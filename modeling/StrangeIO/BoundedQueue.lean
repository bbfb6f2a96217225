-- Queues of a bounded length, oldest item first: a push onto a full queue drops
-- the oldest item. Nothing here names the program.
import Mathlib.Data.List.Basic

namespace bounded

variable {α : Type}

def push (c : Nat) (q : List α) (x : α) : List α :=
  if q.length < c then q ++ [x] else q.drop 1 ++ [x]

def pushAll (c : Nat) (q : List α) (xs : List α) : List α := xs.foldl (push c) q

theorem push_room {c : Nat} {q : List α} (h : q.length < c) (x : α) : push c q x = q ++ [x] :=
  if_pos h

theorem push_full {c : Nat} {q : List α} (h : c ≤ q.length) (x : α) :
    push c q x = q.drop 1 ++ [x] := if_neg (by omega)

/-- With room for all of them the items go to the end. -/
theorem pushAll_room {c : Nat} {q xs : List α} (h : q.length + xs.length ≤ c) :
    pushAll c q xs = q ++ xs := by
  induction xs generalizing q with
  | nil => simp [pushAll]
  | cons x xs ih =>
    simp only [List.length_cons] at h
    have hpush : push c q x = q ++ [x] := push_room (by omega) x
    have := ih (q := q ++ [x]) (by simp; omega)
    unfold pushAll at this ⊢
    rw [List.foldl_cons, hpush, this, List.append_assoc]
    rfl

theorem push_eq_drop {c : Nat} {q : List α} (hc : 1 ≤ c) (h : q.length ≤ c) (x : α) :
    push c q x = (q ++ [x]).drop (q.length + 1 - c) := by
  rcases Nat.lt_or_ge q.length c with hroom | hfull
  · rw [push_room hroom, Nat.sub_eq_zero_of_le hroom, List.drop_zero]
  · have hone : q.length + 1 - c = 1 := by omega
    rw [push_full hfull, hone, List.drop_append_of_le_length (by omega)]

/-- Of all the items the last ones stay. -/
theorem pushAll_eq_drop {c : Nat} {q : List α} (hc : 1 ≤ c) (h : q.length ≤ c) (xs : List α) :
    pushAll c q xs = (q ++ xs).drop (q.length + xs.length - c) := by
  induction xs generalizing q with
  | nil =>
    have hzero : q.length - c = 0 := by omega
    simp [pushAll, hzero]
  | cons x xs ih =>
    have hpush := push_eq_drop hc h x
    have hlength : (push c q x).length = q.length + 1 - (q.length + 1 - c) := by
      rw [hpush, List.length_drop, List.length_append, List.length_singleton]
    have hrest : pushAll c q (x :: xs) = pushAll c (push c q x) xs := rfl
    rw [hrest, ih (by omega), hlength, hpush, ← List.drop_append_of_le_length (by simp),
      List.drop_drop, List.append_assoc, List.singleton_append, List.length_cons]
    congr 1
    omega

end bounded
