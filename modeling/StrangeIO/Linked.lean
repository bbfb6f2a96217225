-- Cells in memory, each with a pointer to the one after it. Nothing here names
-- the program.
import Mathlib.Data.List.Nodup
import Mathlib.Logic.Function.Basic

namespace linked

variable {κ α ν : Type} (cell : α → Option κ → ν)

/-- The memory holds the cells: each points to the next, the last one to none. -/
def Chain (memory : κ → Option ν) : List (κ × α) → Prop
  | [] => True
  | (a, x) :: rest => memory a = some (cell x (rest.head?.map Prod.fst)) ∧ Chain memory rest

variable {cell}

theorem Chain.head {memory : κ → Option ν} {a : κ} {x : α} {rest : List (κ × α)}
    (h : Chain cell memory ((a, x) :: rest)) :
    memory a = some (cell x (rest.head?.map Prod.fst)) := h.1

theorem Chain.tail {memory : κ → Option ν} {c : κ × α} {rest : List (κ × α)}
    (h : Chain cell memory (c :: rest)) : Chain cell memory rest := h.2

/-- Only the memory under the cells counts. -/
theorem Chain.same {memory memory' : κ → Option ν} {cells : List (κ × α)}
    (h : Chain cell memory cells) (hsame : ∀ a ∈ cells.map Prod.fst, memory' a = memory a) :
    Chain cell memory' cells := by
  induction cells with
  | nil => trivial
  | cons c rest ih =>
    obtain ⟨a, x⟩ := c
    refine ⟨?_, ih h.tail fun b hb => hsame b (List.mem_cons_of_mem _ hb)⟩
    rw [hsame a List.mem_cons_self]
    exact h.head

theorem Chain.last {memory : κ → Option ν} {cells : List (κ × α)} {a : κ} {x : α}
    (h : Chain cell memory (cells ++ [(a, x)])) : memory a = some (cell x none) := by
  induction cells with
  | nil => exact h.head
  | cons c rest ih => exact ih h.tail

theorem Chain.mem {memory : κ → Option ν} {cells : List (κ × α)} {a : κ}
    (h : Chain cell memory cells) (ha : a ∈ cells.map Prod.fst) : ∃ node, memory a = some node := by
  induction cells with
  | nil => cases ha
  | cons c rest ih =>
    rcases List.mem_cons.mp ha with rfl | ha
    · exact ⟨_, h.head⟩
    · exact ih h.tail ha

variable [DecidableEq κ]

/-- A cell is put after the last one, which is made to point to it. -/
theorem Chain.snoc {memory : κ → Option ν} {cells : List (κ × α)} {a b : κ} {x y : α}
    (h : Chain cell memory (cells ++ [(a, x)])) (ha : a ∉ cells.map Prod.fst)
    (hab : b ≠ a) (hb : memory b = some (cell y none)) :
    Chain cell (Function.update memory a (some (cell x (some b)))) (cells ++ [(a, x), (b, y)]) := by
  induction cells with
  | nil =>
    refine ⟨?_, ?_, trivial⟩
    · exact Function.update_self _ _ _
    · rw [Function.update_of_ne hab]
      exact hb
  | cons c rest ih =>
    obtain ⟨d, z⟩ := c
    have hd : d ≠ a := by
      rintro rfl
      exact ha List.mem_cons_self
    have hrest : a ∉ rest.map Prod.fst := fun hmem => ha (List.mem_cons_of_mem _ hmem)
    have hnext : (rest ++ [(a, x), (b, y)]).head? = (rest ++ [(a, x)]).head? := by
      cases rest <;> rfl
    refine ⟨?_, ih h.tail hrest⟩
    change _ = some (cell z ((rest ++ [(a, x), (b, y)]).head?.map Prod.fst))
    rw [Function.update_of_ne hd, hnext]
    exact h.head

end linked
