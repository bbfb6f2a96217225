-- Ledgers of ownership: who holds which resource, and which resources are
-- live. Each move says whether it keeps every live resource in some hands.
-- Nothing here names the program.
import Mathlib.Data.Set.Insert
import Mathlib.Logic.Equiv.Basic

namespace ownership

variable {ι ρ : Type} [DecidableEq ι]

/-- What each holder holds, and the resources that exist. -/
structure Ledger (ι ρ : Type) where
  holds : ι → Option ρ
  live : Set ρ

/-- `pass i j` hands what `i` holds to `j`, and what `j` held is forgotten:
`pass i i` forgets what `i` holds. `dispose i` ends the life of it. -/
inductive Move (ι ρ : Type) where
  | acquire (i : ι) (r : ρ)
  | dispose (i : ι)
  | pass (i j : ι)
  | swap (i j : ι)

def Ledger.move (l : Ledger ι ρ) : Move ι ρ → Ledger ι ρ
  | .acquire i r => { holds := Function.update l.holds i (some r), live := insert r l.live }
  | .dispose i =>
    { holds := Function.update l.holds i none, live := {r | r ∈ l.live ∧ l.holds i ≠ some r} }
  | .pass i j =>
    { l with holds := Function.update (Function.update l.holds j (l.holds i)) i none }
  | .swap i j => { l with holds := l.holds ∘ Equiv.swap i j }

/-- No resource has two holders, and what is held is live. -/
structure Valid (l : Ledger ι ρ) : Prop where
  exclusive : ∀ i j r, l.holds i = some r → l.holds j = some r → i = j
  live : ∀ i r, l.holds i = some r → r ∈ l.live

/-- Every live resource has a holder. -/
def Complete (l : Ledger ι ρ) : Prop := ∀ r ∈ l.live, ∃ i, l.holds i = some r

/-- Only a new resource can be acquired. -/
def Fresh (l : Ledger ι ρ) : Move ι ρ → Prop
  | .acquire _ r => r ∉ l.live
  | _ => True

/-- The move overwrites no holder that holds something. -/
def Keeps (l : Ledger ι ρ) : Move ι ρ → Prop
  | .acquire i _ => l.holds i = none
  | .pass _ j => l.holds j = none
  | _ => True

theorem valid_acquire {l : Ledger ι ρ} (h : Valid l) (i : ι) {r : ρ} (hr : r ∉ l.live) :
    Valid (l.move (.acquire i r)) := by
  have hnew : ∀ j, l.holds j ≠ some r := fun j hj => hr (h.live j r hj)
  constructor
  · intro a b q ha hb
    simp only [Ledger.move, Function.update_apply] at ha hb
    split at ha
    · rename_i hai
      split at hb
      · rename_i hbi
        rw [hai, hbi]
      · rw [← ha] at hb
        exact absurd hb (hnew b)
    · split at hb
      · rw [← hb] at ha
        exact absurd ha (hnew a)
      · exact h.exclusive a b q ha hb
  · intro a q ha
    simp only [Ledger.move, Function.update_apply] at ha ⊢
    split at ha
    · cases ha
      exact Set.mem_insert _ _
    · exact Set.mem_insert_of_mem _ (h.live a q ha)

theorem valid_dispose {l : Ledger ι ρ} (h : Valid l) (i : ι) : Valid (l.move (.dispose i)) := by
  constructor
  · intro a b q ha hb
    simp only [Ledger.move, Function.update_apply] at ha hb
    split at ha
    · cases ha
    · split at hb
      · cases hb
      · exact h.exclusive a b q ha hb
  · intro a q ha
    simp only [Ledger.move, Function.update_apply] at ha ⊢
    split at ha
    · cases ha
    · rename_i hai
      exact ⟨h.live a q ha, fun hi => hai (h.exclusive a i q ha hi)⟩

/-- After a pass, `j` holds what `i` held, and every other holder what it held. -/
theorem holds_pass {l : Ledger ι ρ} {i j a : ι} {q : ρ}
    (h : (l.move (.pass i j)).holds a = some q) :
    a ≠ i ∧ (a = j ∧ l.holds i = some q ∨ a ≠ j ∧ l.holds a = some q) := by
  simp only [Ledger.move, Function.update_apply] at h
  split at h
  · cases h
  · rename_i hai
    split at h
    · rename_i haj
      exact ⟨hai, Or.inl ⟨haj, h⟩⟩
    · rename_i haj
      exact ⟨hai, Or.inr ⟨haj, h⟩⟩

theorem valid_pass {l : Ledger ι ρ} (h : Valid l) (i j : ι) : Valid (l.move (.pass i j)) := by
  constructor
  · intro a b q ha hb
    obtain ⟨hai, ⟨haj, hiq⟩ | ⟨haj, haq⟩⟩ := holds_pass ha
    · obtain ⟨hbi, ⟨hbj, _⟩ | ⟨_, hbq⟩⟩ := holds_pass hb
      · rw [haj, hbj]
      · exact absurd (h.exclusive b i q hbq hiq) hbi
    · obtain ⟨hbi, ⟨_, hiq⟩ | ⟨_, hbq⟩⟩ := holds_pass hb
      · exact absurd (h.exclusive a i q haq hiq) hai
      · exact h.exclusive a b q haq hbq
  · intro a q ha
    obtain ⟨_, ⟨_, hq⟩ | ⟨_, hq⟩⟩ := holds_pass ha
    · exact h.live i q hq
    · exact h.live a q hq

theorem valid_swap {l : Ledger ι ρ} (h : Valid l) (i j : ι) : Valid (l.move (.swap i j)) := by
  constructor
  · intro a b q ha hb
    exact (Equiv.swap i j).injective (h.exclusive _ _ q ha hb)
  · intro a q ha
    exact h.live _ q ha

/-- Every move of a new resource, or of what is there, keeps the ledger valid. -/
theorem valid_move {l : Ledger ι ρ} (h : Valid l) {m : Move ι ρ} (hm : Fresh l m) :
    Valid (l.move m) := by
  cases m with
  | acquire i r => exact valid_acquire h i hm
  | dispose i => exact valid_dispose h i
  | pass i j => exact valid_pass h i j
  | swap i j => exact valid_swap h i j

theorem complete_acquire {l : Ledger ι ρ} (h : Valid l) (hc : Complete l) (i : ι) {r : ρ}
    (hr : r ∉ l.live) : Complete (l.move (.acquire i r)) ↔ l.holds i = none := by
  constructor
  · intro hc'
    rcases hi : l.holds i with _ | q
    · rfl
    · exfalso
      have hq := h.live i q hi
      obtain ⟨a, ha⟩ := hc' q (Set.mem_insert_of_mem _ hq)
      simp only [Ledger.move, Function.update_apply] at ha
      split at ha
      · cases ha
        exact hr hq
      · rename_i hai
        exact hai (h.exclusive a i q ha hi)
  · intro hi q hq
    rcases Set.mem_insert_iff.mp hq with rfl | hq
    · exact ⟨i, by simp [Ledger.move]⟩
    · obtain ⟨a, ha⟩ := hc q hq
      refine ⟨a, ?_⟩
      have hai : a ≠ i := fun e => by rw [e, hi] at ha; cases ha
      simp only [Ledger.move, Function.update_of_ne hai, ha]

theorem complete_dispose {l : Ledger ι ρ} (hc : Complete l) (i : ι) :
    Complete (l.move (.dispose i)) := by
  rintro q ⟨hq, hi⟩
  obtain ⟨a, ha⟩ := hc q hq
  have hai : a ≠ i := fun e => hi (e ▸ ha)
  exact ⟨a, by simp only [Ledger.move, Function.update_of_ne hai, ha]⟩

/-- A pass keeps every resource in some hands just when it overwrites none. -/
theorem complete_pass {l : Ledger ι ρ} (h : Valid l) (hc : Complete l) (i j : ι) :
    Complete (l.move (.pass i j)) ↔ l.holds j = none := by
  constructor
  · intro hc'
    rcases hj : l.holds j with _ | q
    · rfl
    · exfalso
      obtain ⟨a, ha⟩ := hc' q (h.live j q hj)
      obtain ⟨hai, ⟨haj, hq⟩ | ⟨haj, hq⟩⟩ := holds_pass ha
      · exact hai (haj.trans (h.exclusive j i q hj hq))
      · exact haj (h.exclusive a j q hq hj)
  · intro hj q hq
    obtain ⟨a, ha⟩ := hc q hq
    by_cases hai : a = i
    · subst hai
      have hja : j ≠ a := fun e => by rw [← e, hj] at ha; cases ha
      exact ⟨j, by simp only [Ledger.move, Function.update_of_ne hja, Function.update_self, ha]⟩
    · have haj : a ≠ j := fun e => by rw [e, hj] at ha; cases ha
      exact ⟨a, by simp only [Ledger.move, Function.update_of_ne hai,
        Function.update_of_ne haj, ha]⟩

theorem complete_swap {l : Ledger ι ρ} (hc : Complete l) (i j : ι) :
    Complete (l.move (.swap i j)) := by
  intro q hq
  obtain ⟨a, ha⟩ := hc q hq
  exact ⟨Equiv.swap i j a, by simpa [Ledger.move] using ha⟩

/-- A move keeps every live resource in some hands just when it overwrites none. -/
theorem complete_move {l : Ledger ι ρ} (h : Valid l) (hc : Complete l) {m : Move ι ρ}
    (hm : Fresh l m) : Complete (l.move m) ↔ Keeps l m := by
  cases m with
  | acquire i r => exact complete_acquire h hc i hm
  | dispose i => exact iff_of_true (complete_dispose hc i) trivial
  | pass i j => exact complete_pass h hc i j
  | swap i j => exact iff_of_true (complete_swap hc i j) trivial

/-! ## Several moves -/

def Ledger.moves (l : Ledger ι ρ) (ms : List (Move ι ρ)) : Ledger ι ρ := ms.foldl Ledger.move l

def AllFresh (l : Ledger ι ρ) : List (Move ι ρ) → Prop
  | [] => True
  | m :: ms => Fresh l m ∧ AllFresh (l.move m) ms

def AllKeep (l : Ledger ι ρ) : List (Move ι ρ) → Prop
  | [] => True
  | m :: ms => Keeps l m ∧ AllKeep (l.move m) ms

theorem valid_moves {l : Ledger ι ρ} (h : Valid l) {ms : List (Move ι ρ)} (hf : AllFresh l ms) :
    Valid (l.moves ms) := by
  induction ms generalizing l with
  | nil => exact h
  | cons m ms ih => exact ih (valid_move h hf.1) hf.2

/-- A resource without a holder never finds one again. -/
theorem complete_of_move {l : Ledger ι ρ} {m : Move ι ρ} (hm : Fresh l m)
    (hc : Complete (l.move m)) : Complete l := by
  intro q hq
  cases m with
  | acquire i r =>
    obtain ⟨a, ha⟩ := hc q (Set.mem_insert_of_mem _ hq)
    simp only [Ledger.move, Function.update_apply] at ha
    split at ha
    · cases ha
      exact absurd hq hm
    · exact ⟨a, ha⟩
  | dispose i =>
    by_cases hi : l.holds i = some q
    · exact ⟨i, hi⟩
    · obtain ⟨a, ha⟩ := hc q ⟨hq, hi⟩
      simp only [Ledger.move, Function.update_apply] at ha
      split at ha
      · cases ha
      · exact ⟨a, ha⟩
  | pass i j =>
    obtain ⟨a, ha⟩ := hc q hq
    obtain ⟨_, ⟨_, hi⟩ | ⟨_, hi⟩⟩ := holds_pass ha
    · exact ⟨i, hi⟩
    · exact ⟨a, hi⟩
  | swap i j =>
    obtain ⟨a, ha⟩ := hc q hq
    exact ⟨_, ha⟩

theorem complete_of_moves {l : Ledger ι ρ} {ms : List (Move ι ρ)} (hf : AllFresh l ms)
    (hc : Complete (l.moves ms)) : Complete l := by
  induction ms generalizing l with
  | nil => exact hc
  | cons m ms ih => exact complete_of_move hf.1 (ih hf.2 hc)

/-- Moves keep every live resource in some hands just when none overwrites a holder. -/
theorem complete_moves {l : Ledger ι ρ} (h : Valid l) (hc : Complete l) {ms : List (Move ι ρ)}
    (hf : AllFresh l ms) : Complete (l.moves ms) ↔ AllKeep l ms := by
  induction ms generalizing l with
  | nil => exact iff_of_true hc trivial
  | cons m ms ih =>
    have hm := complete_move h hc hf.1
    by_cases hk : Keeps l m
    · exact (ih (valid_move h hf.1) (hm.mpr hk) hf.2).trans (and_iff_right hk).symm
    · refine iff_of_false (fun hall => hk (hm.mp ?_)) (fun hall => hk hall.1)
      exact complete_of_moves hf.2 hall

end ownership
