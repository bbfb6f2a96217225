-- Walks over a finite graph without cycles: how deep they go, in which order
-- they enter and leave the vertices, and folds that may run out of fuel.
-- Nothing here names the program.
import Mathlib.Data.Fintype.Card
import Mathlib.Data.Fintype.List
import Mathlib.Logic.Relation

namespace walk

/-! ## Folds that may fail -/

section folds

variable {α σ : Type}

theorem foldlM_cons_some {f : σ → α → Option σ} {s t : σ} {a : α} {l : List α} :
    (a :: l).foldlM f s = some t ↔ ∃ u, f s a = some u ∧ l.foldlM f u = some t := by
  rw [List.foldlM_cons]
  exact Option.bind_eq_some_iff

/-- What every step relates, the fold relates. -/
theorem foldlM_relates {R : σ → σ → Prop} (hrefl : ∀ s, R s s)
    (htrans : ∀ s t u, R s t → R t u → R s u) {f : σ → α → Option σ} {l : List α}
    (hstep : ∀ s t, ∀ a ∈ l, f s a = some t → R s t) {s t : σ}
    (h : l.foldlM f s = some t) : R s t := by
  induction l generalizing s with
  | nil => exact Option.some.inj h ▸ hrefl s
  | cons a l ih =>
    obtain ⟨u, hu, hl⟩ := foldlM_cons_some.mp h
    exact htrans s u t (hstep s u a List.mem_cons_self hu)
      (ih (fun s t b hb => hstep s t b (List.mem_cons_of_mem _ hb)) hl)

/-- A fold whose steps all give a value gives a value. -/
theorem foldlM_some {I : σ → Prop} {f : σ → α → Option σ} {l : List α}
    (hstep : ∀ s, I s → ∀ a ∈ l, ∃ t, f s a = some t ∧ I t) {s : σ} (hs : I s) :
    ∃ t, l.foldlM f s = some t ∧ I t := by
  induction l generalizing s with
  | nil => exact ⟨s, rfl, hs⟩
  | cons a l ih =>
    obtain ⟨u, hu, hiu⟩ := hstep s hs a List.mem_cons_self
    obtain ⟨t, ht, hit⟩ := ih (fun s hs b hb => hstep s hs b (List.mem_cons_of_mem _ hb)) hiu
    exact ⟨t, foldlM_cons_some.mpr ⟨u, hu, ht⟩, hit⟩

/-- A fold that gives a value took every step, from a state that it relates to the first. -/
theorem foldlM_steps {R : σ → σ → Prop} (hrefl : ∀ s, R s s)
    (htrans : ∀ s t u, R s t → R t u → R s u) {f : σ → α → Option σ} {l : List α}
    (hstep : ∀ s t, ∀ a ∈ l, f s a = some t → R s t) {s t : σ} (h : l.foldlM f s = some t)
    {a : α} (ha : a ∈ l) : ∃ u v, R s u ∧ f u a = some v := by
  induction l generalizing s with
  | nil => cases ha
  | cons b l ih =>
    obtain ⟨u, hu, hl⟩ := foldlM_cons_some.mp h
    rcases List.mem_cons.mp ha with rfl | ha
    · exact ⟨s, u, hrefl s, hu⟩
    · obtain ⟨v, w, hv, hw⟩ := ih (fun s t c hc => hstep s t c (List.mem_cons_of_mem _ hc)) hl ha
      exact ⟨v, w, htrans s u v (hstep s u b List.mem_cons_self hu) hv, hw⟩

end folds

/-! ## The depth of a walk -/

variable {V : Type}

def Edge (succ : V → List V) (u v : V) : Prop := v ∈ succ u

/-- No vertex leads back to itself. -/
def Acyclic (succ : V → List V) : Prop := ∀ v, ¬ Relation.TransGen (Edge succ) v v

theorem rank_lt {succ : V → List V} (rank : V → Nat)
    (h : ∀ u, ∀ v ∈ succ u, rank u < rank v) {u v : V} (huv : Relation.TransGen (Edge succ) u v) :
    rank u < rank v := by
  have hlt : Relation.TransGen (· < ·) (rank u) (rank v) := huv.lift rank h
  rwa [Relation.transGen_eq_self] at hlt

/-- Edges that go up a rank close no cycle. -/
theorem acyclic_of_rank {succ : V → List V} (rank : V → Nat)
    (h : ∀ u, ∀ v ∈ succ u, rank u < rank v) : Acyclic succ :=
  fun _ hv => lt_irrefl _ (rank_lt rank h hv)

/-- Every path from the vertex has at most so many vertices. -/
def Within (succ : V → List V) : Nat → V → Prop
  | 0, _ => False
  | k + 1, u => ∀ v ∈ succ u, Within succ k v

theorem Within.mono {succ : V → List V} {k m : Nat} {u : V} (h : Within succ k u)
    (hkm : k ≤ m) : Within succ m u := by
  induction k generalizing m u with
  | zero => exact h.elim
  | succ k ih =>
    obtain ⟨m, rfl⟩ : ∃ m', m = m' + 1 := ⟨m - 1, by omega⟩
    exact fun v hv => ih (h v hv) (by omega)

theorem exists_chain {succ : V → List V} {k : Nat} {u : V} (h : ¬ Within succ k u) :
    ∃ l : List V, l.length = k ∧ (u :: l).IsChain (Edge succ) := by
  induction k generalizing u with
  | zero => exact ⟨[], rfl, List.isChain_singleton u⟩
  | succ k ih =>
    unfold Within at h
    push Not at h
    obtain ⟨v, hv, hnot⟩ := h
    obtain ⟨l, hl, hchain⟩ := ih hnot
    exact ⟨v :: l, by rw [List.length_cons, hl], List.isChain_cons_cons.mpr ⟨hv, hchain⟩⟩

/-- No vertex that the vertex leads to leads back to itself. -/
def AcyclicFrom (succ : V → List V) (u : V) : Prop :=
  ∀ v, Relation.ReflTransGen (Edge succ) u v → ¬ Relation.TransGen (Edge succ) v v

theorem Acyclic.from {succ : V → List V} (h : Acyclic succ) (u : V) : AcyclicFrom succ u :=
  fun v _ => h v

/-- Without a cycle below its first vertex, a path meets no vertex twice. -/
theorem AcyclicFrom.nodup {succ : V → List V} {u : V} {l : List V} (h : AcyclicFrom succ u)
    (hchain : (u :: l).IsChain (Edge succ)) : (u :: l).Nodup := by
  have hpath : (u :: l).Pairwise (Relation.TransGen (Edge succ)) :=
    List.isChain_iff_pairwise.mp (hchain.imp fun _ _ hab => Relation.TransGen.single hab)
  have hbelow : ∀ v ∈ u :: l, Relation.ReflTransGen (Edge succ) u v := by
    intro v hv
    rcases List.mem_cons.mp hv with rfl | hv
    · exact .refl
    · exact ((List.pairwise_cons.mp hpath).1 v hv).to_reflTransGen
  refine hpath.imp_of_mem ?_
  rintro a b ha - hab rfl
  exact h a (hbelow a ha) hab

/-- Without a cycle, no path has more vertices than there are. -/
theorem within_card [Fintype V] {succ : V → List V} (h : Acyclic succ) (u : V) :
    Within succ (Fintype.card V) u := by
  by_contra hnot
  obtain ⟨l, hl, hchain⟩ := exists_chain hnot
  have := ((h.from u).nodup hchain).length_le_card
  rw [List.length_cons] at this
  omega

/-- Where only so many vertices lead on, a path without a cycle has one vertex more at most. -/
theorem AcyclicFrom.within {succ : V → List V} {us : List V}
    (hus : ∀ u v, Edge succ u v → u ∈ us) {u : V} (h : AcyclicFrom succ u) :
    Within succ (us.length + 1) u := by
  by_contra hnot
  obtain ⟨l, hl, hchain⟩ := exists_chain hnot
  have hnodup := (h.nodup hchain).sublist (List.dropLast_sublist (u :: l))
  have hsub : (u :: l).dropLast ⊆ us := by
    intro v hv
    obtain ⟨pre, post, hpost⟩ := List.append_of_mem hv
    have hsplit : u :: l = pre ++ v :: (post ++ [(u :: l).getLast (List.cons_ne_nil u l)]) := by
      rw [← List.cons_append, ← List.append_assoc, ← hpost, List.dropLast_append_getLast]
    rw [hsplit] at hchain
    have htail := hchain.right_of_append
    cases post with
    | nil => exact hus v _ (List.isChain_cons_cons.mp htail).1
    | cons w post => exact hus v w (List.isChain_cons_cons.mp htail).1
  have := (hnodup.subperm hsub).length_le
  rw [List.length_dropLast, List.length_cons] at this
  omega

theorem Within.descend {succ : V → List V} {k : Nat} {u v : V} (h : Within succ (k + 1) u)
    (huv : Relation.TransGen (Edge succ) u v) : Within succ k v := by
  induction huv with
  | single hv => exact h _ hv
  | tail _ hv ih =>
    cases k with
    | zero => exact ih.elim
    | succ k => exact Within.mono (ih _ hv) k.le_succ

/-- Where all paths end, there is no cycle. -/
theorem Within.acyclicFrom {succ : V → List V} {k : Nat} {u : V} (h : Within succ k u) :
    AcyclicFrom succ u := by
  have hnone : ∀ k v, Within succ k v → ¬ Relation.TransGen (Edge succ) v v := by
    intro k
    induction k with
    | zero => exact fun v hv => hv.elim
    | succ k ih => exact fun v hv hcycle => ih v (hv.descend hcycle) hcycle
  intro v hv
  rcases Relation.reflTransGen_iff_eq_or_transGen.mp hv with rfl | hv
  · exact hnone k v h
  · cases k with
    | zero => exact h.elim
    | succ k => exact hnone k v (h.descend hv)

/-- Where only so many vertices lead on, all paths end just when there is no cycle. -/
theorem exists_within_iff {succ : V → List V} (us : List V)
    (hus : ∀ u v, Edge succ u v → u ∈ us) {u : V} :
    (∃ k, Within succ k u) ↔ AcyclicFrom succ u := by
  constructor
  · rintro ⟨k, h⟩
    exact h.acyclicFrom
  · exact fun h => ⟨_, h.within hus⟩

/-! ## The order of a walk -/

inductive Visit (V : Type) where
  | enter (v : V)
  | leave (v : V)
deriving DecidableEq

/-- The visits of a walk from the vertex that goes down each edge in order. -/
def visits (succ : V → List V) : Nat → V → List (Visit V)
  | 0, _ => []
  | k + 1, u => .enter u :: ((succ u).flatMap (visits succ k) ++ [.leave u])

/-- The visits of the walks from several vertices in turn. -/
def tour (succ : V → List V) (k : Nat) (roots : List V) : List (Visit V) :=
  roots.flatMap (visits succ k)

theorem visits_stable {succ : V → List V} {k m : Nat} {u : V} (h : Within succ k u)
    (hkm : k ≤ m) : visits succ m u = visits succ k u := by
  induction k generalizing m u with
  | zero => exact h.elim
  | succ k ih =>
    obtain ⟨m, rfl⟩ : ∃ m', m = m' + 1 := ⟨m - 1, by omega⟩
    have hsame : (succ u).flatMap (visits succ m) = (succ u).flatMap (visits succ k) :=
      List.flatMap_congr fun v hv => ih (h v hv) (by omega)
    rw [visits, visits, hsame]

theorem tour_stable {succ : V → List V} {k m : Nat} {roots : List V}
    (h : ∀ u ∈ roots, Within succ k u) (hkm : k ≤ m) : tour succ m roots = tour succ k roots :=
  List.flatMap_congr fun u hu => visits_stable (h u hu) hkm

/-- A walk leaves the vertices that it can reach, and no others. -/
theorem leave_mem_visits {succ : V → List V} {k : Nat} {u v : V} (h : Within succ k u) :
    .leave v ∈ visits succ k u ↔ Relation.ReflTransGen (Edge succ) u v := by
  induction k generalizing u with
  | zero => exact h.elim
  | succ k ih =>
    simp only [visits, List.mem_cons, reduceCtorEq, false_or, List.mem_append, List.mem_flatMap,
      Visit.leave.injEq, List.not_mem_nil, or_false]
    constructor
    · rintro (⟨w, hw, hv⟩ | rfl)
      · exact Relation.ReflTransGen.head hw ((ih (h w hw)).mp hv)
      · exact Relation.ReflTransGen.refl
    · intro hr
      rcases Relation.ReflTransGen.cases_head hr with rfl | ⟨w, hw, hv⟩
      · exact Or.inr rfl
      · exact Or.inl ⟨w, hw, (ih (h w hw)).mpr hv⟩

theorem leave_mem_tour {succ : V → List V} {k : Nat} {roots : List V} {v : V}
    (h : ∀ u ∈ roots, Within succ k u) :
    .leave v ∈ tour succ k roots ↔ ∃ u ∈ roots, Relation.ReflTransGen (Edge succ) u v := by
  unfold tour
  rw [List.mem_flatMap]
  constructor
  · rintro ⟨u, hu, hv⟩
    exact ⟨u, hu, (leave_mem_visits (h u hu)).mp hv⟩
  · rintro ⟨u, hu, hv⟩
    exact ⟨u, hu, (leave_mem_visits (h u hu)).mpr hv⟩

/-- A value that a walk carries along: entering a vertex changes it. -/
def carry {α : Type} (enter : V → α → α) (es : List (Visit V)) (a : α) : α :=
  es.foldl (fun a e => match e with | .enter v => enter v a | .leave _ => a) a

/-- The vertices that a walk enters, in order. -/
def entries (es : List (Visit V)) : List V :=
  es.filterMap fun e => match e with | .enter v => some v | .leave _ => none

theorem carry_entries {α : Type} (enter : V → α → α) (es : List (Visit V)) (a : α) :
    carry enter es a = (entries es).foldl (fun a v => enter v a) a := by
  induction es generalizing a with
  | nil => rfl
  | cons e es ih =>
    cases e with
    | enter v => exact ih (enter v a)
    | leave v => exact ih a

/-- A walk enters a vertex before it leaves one. -/
theorem entries_ne_nil {succ : V → List V} {k : Nat} {roots : List V} {v : V}
    {before after : List (Visit V)} (h : tour succ k roots = before ++ .leave v :: after) :
    entries before ≠ [] := by
  have hhead : ∀ e ∈ (tour succ k roots).head?, ∃ u, e = Visit.enter u := by
    clear h
    induction roots with
    | nil =>
      intro e he
      cases he
    | cons u roots ih =>
      unfold tour at ih ⊢
      rw [List.flatMap_cons]
      cases k with
      | zero => exact ih
      | succ k =>
        intro e he
        exact ⟨u, (Option.some.inj he).symm⟩
  cases before with
  | nil =>
    obtain ⟨u, hu⟩ := hhead (.leave v) (by rw [h]; rfl)
    cases hu
  | cons e before =>
    obtain ⟨u, rfl⟩ := hhead e (by rw [h]; rfl)
    simp [entries]

/-- What a list has, it has for the last time somewhere. -/
theorem last_split {α : Type} {a : α} {l : List α} (h : a ∈ l) :
    ∃ before after, l = before ++ a :: after ∧ a ∉ after := by
  induction l with
  | nil => cases h
  | cons b l ih =>
    by_cases hl : a ∈ l
    · obtain ⟨before, after, rfl, hnot⟩ := ih hl
      exact ⟨b :: before, after, rfl, hnot⟩
    · obtain rfl := (List.mem_cons.mp h).resolve_right hl
      exact ⟨[], l, rfl, hl⟩

end walk
