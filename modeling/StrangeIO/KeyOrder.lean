-- Maps as lists in the order of their keys: each key once, and the entries
-- of given keys in that order. Nothing here names the program.
import Mathlib.Data.List.Perm.Basic
import Mathlib.Order.Lattice

namespace key_order

variable {K V : Type} [LinearOrder K]

/-- The entries stand in the order of their keys, each key once. -/
def Ordered (l : List (K × V)) : Prop := l.Pairwise fun a b => a.1 < b.1

theorem Ordered.nodup {l : List (K × V)} (h : Ordered l) : l.Nodup := by
  refine h.imp ?_
  rintro a b hab rfl
  exact lt_irrefl _ hab

/-- What a key maps to is what stands with it. -/
theorem Ordered.lookup_iff {l : List (K × V)} (h : Ordered l) {k : K} {v : V} :
    l.lookup k = some v ↔ (k, v) ∈ l := by
  induction l with
  | nil => simp
  | cons e l ih =>
    obtain ⟨hhead, htail⟩ := List.pairwise_cons.mp h
    rw [List.lookup_cons]
    by_cases hk : k = e.1
    · subst hk
      simp only [BEq.rfl, Option.some.injEq, List.mem_cons]
      constructor
      · rintro rfl
        exact .inl rfl
      · rintro (heq | hmem)
        · rw [← heq]
        · exact absurd (hhead _ hmem) (lt_irrefl _)
    · have hbeq : (k == e.1) = false := by simpa using hk
      rw [hbeq]
      simp only [List.mem_cons]
      rw [ih htail]
      constructor
      · exact .inr
      · rintro (heq | hmem)
        · exact absurd (congrArg Prod.fst heq) hk
        · exact hmem

/-- The entry of a key is written over, or put in where its key belongs. -/
def set (k : K) (v : V) : List (K × V) → List (K × V)
  | [] => [(k, v)]
  | e :: l => if k < e.1 then (k, v) :: e :: l else if k = e.1 then (k, v) :: l else e :: set k v l

theorem mem_set {k : K} {v : V} {l : List (K × V)} {e : K × V} (h : e ∈ set k v l) :
    e = (k, v) ∨ e ∈ l := by
  induction l with
  | nil => exact .inl (List.mem_singleton.mp h)
  | cons e' l ih =>
    unfold set at h
    split at h
    · exact List.mem_cons.mp h
    · split at h
      · exact (List.mem_cons.mp h).imp_right (List.mem_cons_of_mem _)
      · rcases List.mem_cons.mp h with rfl | h
        · exact .inr List.mem_cons_self
        · exact (ih h).imp_right (List.mem_cons_of_mem _)

theorem Ordered.set {l : List (K × V)} (h : Ordered l) (k : K) (v : V) :
    Ordered (key_order.set k v l) := by
  induction l with
  | nil => exact List.pairwise_singleton _ _
  | cons e l ih =>
    obtain ⟨hhead, htail⟩ := List.pairwise_cons.mp h
    unfold key_order.set
    split
    · rename_i hlt
      refine List.pairwise_cons.mpr ⟨?_, h⟩
      rintro e' (_ | ⟨_, he'⟩)
      · exact hlt
      · exact lt_trans hlt (hhead e' he')
    · rename_i hlt
      split
      · rename_i heq
        subst heq
        exact List.pairwise_cons.mpr ⟨hhead, htail⟩
      · rename_i hne
        refine List.pairwise_cons.mpr ⟨?_, ih htail⟩
        intro e' he'
        rcases mem_set he' with rfl | he'
        · exact lt_of_le_of_ne (not_lt.mp hlt) (Ne.symm hne)
        · exact hhead e' he'

/-- An entry behind the others is put in at the end. -/
theorem set_last {k : K} (v : V) {l : List (K × V)} (h : ∀ e ∈ l, e.1 < k) :
    set k v l = l ++ [(k, v)] := by
  induction l with
  | nil => rfl
  | cons e l ih =>
    have hlt := h e List.mem_cons_self
    unfold set
    rw [if_neg (lt_asymm hlt), if_neg (ne_of_gt hlt), ih fun e' he' =>
      h e' (List.mem_cons_of_mem _ he')]
    rfl

/-- The entries of some keys, in the order of the keys. -/
def entries (ks : List K) (l : List (K × V)) : List (K × V) :=
  ks.filterMap fun k => (l.lookup k).map fun v => (k, v)

theorem Ordered.mem_entries {l : List (K × V)} (h : Ordered l) {ks : List K} {e : K × V} :
    e ∈ entries ks l ↔ e ∈ l ∧ e.1 ∈ ks := by
  unfold entries
  simp only [List.mem_filterMap, Option.map_eq_some_iff]
  constructor
  · rintro ⟨k, hk, v, hv, rfl⟩
    exact ⟨h.lookup_iff.mp hv, hk⟩
  · rintro ⟨hmem, hk⟩
    exact ⟨e.1, hk, e.2, h.lookup_iff.mpr hmem, rfl⟩

/-- The entries of a map at some keys are found key by key. -/
theorem Ordered.filter_eq {l : List (K × V)} (h : Ordered l) {ks : List K}
    (hks : ks.Pairwise (· < ·)) : l.filter (fun e => e.1 ∈ ks) = entries ks l := by
  have hentries : Ordered (entries ks l) := by
    refine List.Pairwise.filterMap _ ?_ hks
    intro k k' hlt e he e' he'
    obtain ⟨v, -, rfl⟩ := Option.map_eq_some_iff.mp he
    obtain ⟨v', -, rfl⟩ := Option.map_eq_some_iff.mp he'
    exact hlt
  have hfilter : Ordered (l.filter fun e => e.1 ∈ ks) := h.sublist List.filter_sublist
  refine List.Perm.eq_of_pairwise ?_ hfilter hentries ?_
  · intro a b _ _ hab hba
    exact absurd (lt_trans hab hba) (lt_irrefl _)
  · refine (List.perm_ext_iff_of_nodup hfilter.nodup hentries.nodup).mpr ?_
    intro e
    rw [h.mem_entries]
    simp [List.mem_filter]

end key_order
