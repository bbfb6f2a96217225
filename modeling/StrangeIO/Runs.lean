-- Runs in a list: how long the run of elements with a property is that
-- starts at a position, and how the count changes when one stretch of the
-- list takes the property on. Nothing here names the program.
import Mathlib.Data.List.TakeWhile

namespace runs

variable {α : Type}

/-- The length of the longest run of elements with `p` that starts at `i`. -/
def runLength (p : α → Bool) (l : List α) (i : Nat) : Nat := ((l.drop i).takeWhile p).length

theorem runLength_end (p : α → Bool) (l : List α) {i : Nat} (h : l.length ≤ i) :
    runLength p l i = 0 := by
  simp [runLength, List.drop_of_length_le h]

theorem runLength_neg {p : α → Bool} {l : List α} {i : Nat} {x : α} (hx : l[i]? = some x)
    (h : p x = false) : runLength p l i = 0 := by
  obtain ⟨hlt, rfl⟩ := List.getElem?_eq_some_iff.mp hx
  rw [runLength, List.drop_eq_getElem_cons hlt, List.takeWhile_cons_of_neg (by simp [h])]
  rfl

theorem runLength_pos {p : α → Bool} {l : List α} {i : Nat} {x : α} (hx : l[i]? = some x)
    (h : p x = true) : runLength p l i = runLength p l (i + 1) + 1 := by
  obtain ⟨hlt, rfl⟩ := List.getElem?_eq_some_iff.mp hx
  rw [runLength, List.drop_eq_getElem_cons hlt, List.takeWhile_cons_of_pos h]
  rfl

theorem runLength_le (p : α → Bool) (l : List α) {i : Nat} (h : i ≤ l.length) :
    i + runLength p l i ≤ l.length := by
  have h1 : runLength p l i ≤ (l.drop i).length := (List.takeWhile_sublist p).length_le
  rw [List.length_drop] at h1
  omega

/-- A run is as long as the elements with `p` in a row from its start. -/
theorem le_runLength_iff (p : α → Bool) (l : List α) (i k : Nat) :
    k ≤ runLength p l i ↔ ∀ j, i ≤ j → j < i + k → ∃ x, l[j]? = some x ∧ p x = true := by
  induction k generalizing i with
  | zero => simpa using fun j h1 h2 => absurd h2 (by omega)
  | succ k ih =>
    constructor
    · intro hk
      cases hx : l[i]? with
      | none =>
        rw [runLength_end p l (List.getElem?_eq_none_iff.mp hx)] at hk
        omega
      | some x =>
        cases hp : p x with
        | false =>
          rw [runLength_neg hx hp] at hk
          omega
        | true =>
          rw [runLength_pos hx hp] at hk
          intro j h1 h2
          by_cases hj : j = i
          · subst hj
            exact ⟨x, hx, hp⟩
          · exact (ih (i + 1)).mp (by omega) j (by omega) (by omega)
    · intro h
      obtain ⟨x, hx, hp⟩ := h i (by omega) (by omega)
      have hrest := (ih (i + 1)).mpr fun j h1 h2 => h j (by omega) (by omega)
      rw [runLength_pos hx hp]
      omega

/-- The runs of two lists whose elements have the property in the same places. -/
theorem runLength_congr {p : α → Bool} {l l' : List α} (h : l.map p = l'.map p) (i : Nat) :
    runLength p l i = runLength p l' i := by
  have hmap : ∀ m : List α, (m.takeWhile p).length = ((m.map p).takeWhile id).length := by
    intro m
    rw [List.takeWhile_map, List.length_map]
    rfl
  unfold runLength
  rw [hmap, hmap, List.map_drop, List.map_drop, h]

/-- The count grows by `k` when the `k` elements from `s` on take the
property on, and no other element changes in it. -/
theorem countP_run (p : α → Bool) (l l' : List α) (s k : Nat) (hlen : l.length = l'.length)
    (hk : s + k ≤ l.length)
    (hout : ∀ (j : Nat) (x y : α), j < s ∨ s + k ≤ j → l[j]? = some x → l'[j]? = some y →
      p x = p y)
    (hin : ∀ (j : Nat) (x : α), s ≤ j → j < s + k → l[j]? = some x → p x = false)
    (hin' : ∀ (j : Nat) (x : α), s ≤ j → j < s + k → l'[j]? = some x → p x = true) :
    l'.countP p = l.countP p + k := by
  induction l generalizing l' s k with
  | nil =>
    simp only [List.length_nil] at hlen hk
    rw [List.length_eq_zero_iff.mp hlen.symm]
    simp
    omega
  | cons x l ih =>
    cases l' with
    | nil => simp at hlen
    | cons y l' =>
      simp only [List.length_cons, Nat.add_right_cancel_iff] at hlen hk
      rw [List.countP_cons, List.countP_cons]
      rcases s with _ | s
      · rcases k with _ | k
        · have hxy := hout 0 x y (by omega) rfl rfl
          have := ih l' 0 0 hlen (by omega)
            (fun j a b _ ha hb => hout (j + 1) a b (by omega) (by simpa using ha)
              (by simpa using hb))
            (fun j a _ hj => by omega) (fun j a _ hj => by omega)
          rw [this, hxy, Nat.add_right_comm]
        · have hx := hin 0 x (by omega) (by omega) rfl
          have hy := hin' 0 y (by omega) (by omega) rfl
          have := ih l' 0 k hlen (by omega)
            (fun j a b h ha hb => hout (j + 1) a b (by omega) (by simpa using ha)
              (by simpa using hb))
            (fun j a _ hj ha => hin (j + 1) a (by omega) (by omega) (by simpa using ha))
            (fun j a _ hj ha => hin' (j + 1) a (by omega) (by omega) (by simpa using ha))
          rw [this, hx, hy]
          simp
          omega
      · have hxy := hout 0 x y (by omega) rfl rfl
        have := ih l' s k hlen (by omega)
          (fun j a b h ha hb => hout (j + 1) a b (by omega) (by simpa using ha) (by simpa using hb))
          (fun j a h1 hj ha => hin (j + 1) a (by omega) (by omega) (by simpa using ha))
          (fun j a h1 hj ha => hin' (j + 1) a (by omega) (by omega) (by simpa using ha))
        rw [this, hxy]
        omega

end runs
