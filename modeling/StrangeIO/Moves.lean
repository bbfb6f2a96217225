-- Moves between the cells of a memory: what a run of them leaves in the cells, and which
-- cells it writes, in order. Nothing here names the program.
import Mathlib.Data.List.Nodup
import Mathlib.Logic.Function.Basic

namespace moves

variable {κ α : Type} [DecidableEq κ]

/-- The cells, and those that were written so far. -/
structure memory (κ α : Type) where
  cell : κ → α
  written : List κ

def memory.write (m : memory κ α) (k : κ) (x : α) : memory κ α where
  cell := Function.update m.cell k x
  written := m.written ++ [k]

/-- A move writes its first cell with what the second holds. -/
def memory.move (m : memory κ α) (p : κ × κ) : memory κ α := m.write p.1 (m.cell p.2)

def run (ps : List (κ × κ)) (m : memory κ α) : memory κ α := ps.foldl memory.move m

@[simp] theorem run_nil (m : memory κ α) : run [] m = m := rfl

@[simp] theorem run_cons (p : κ × κ) (ps : List (κ × κ)) (m : memory κ α) :
    run (p :: ps) m = run ps (m.move p) := rfl

theorem run_append (ps qs : List (κ × κ)) (m : memory κ α) :
    run (ps ++ qs) m = run qs (run ps m) := List.foldl_append

@[simp] theorem move_written (m : memory κ α) (p : κ × κ) :
    (m.move p).written = m.written ++ [p.1] := rfl

theorem move_self (m : memory κ α) (p : κ × κ) : (m.move p).cell p.1 = m.cell p.2 := by
  unfold memory.move memory.write
  exact Function.update_self ..

theorem move_other (m : memory κ α) {p : κ × κ} {k : κ} (h : k ≠ p.1) :
    (m.move p).cell k = m.cell k := by
  unfold memory.move memory.write
  exact Function.update_of_ne h ..

theorem run_written (ps : List (κ × κ)) (m : memory κ α) :
    (run ps m).written = m.written ++ ps.map Prod.fst := by
  induction ps generalizing m with
  | nil => simp
  | cons p ps ih => simp [ih]

/-- A cell that no move writes stays. -/
theorem run_other {ps : List (κ × κ)} {k : κ} (h : k ∉ ps.map Prod.fst) (m : memory κ α) :
    (run ps m).cell k = m.cell k := by
  induction ps generalizing m with
  | nil => rfl
  | cons p ps ih =>
    have hp : k ≠ p.1 := fun hk => h (hk ▸ List.mem_cons_self)
    have hps : k ∉ ps.map Prod.fst := fun hk => h (List.mem_cons_of_mem _ hk)
    rw [run_cons, ih hps, move_other m hp]

/-- When no cell is written twice, and none is read that is written, each move brings what
was there before the run. -/
theorem run_moved {ps : List (κ × κ)} (hnodup : (ps.map Prod.fst).Nodup)
    (hapart : ∀ p ∈ ps, p.2 ∉ ps.map Prod.fst) {p : κ × κ} (hp : p ∈ ps) (m : memory κ α) :
    (run ps m).cell p.1 = m.cell p.2 := by
  induction ps generalizing m with
  | nil => cases hp
  | cons q ps ih =>
    obtain ⟨hq, hnodup⟩ := List.nodup_cons.mp hnodup
    rw [run_cons]
    rcases List.mem_cons.mp hp with rfl | hmem
    · rw [run_other hq, move_self]
    · have hpq : p.2 ≠ q.1 := fun h => hapart p hp (h ▸ List.mem_cons_self)
      have happs : ∀ p ∈ ps, p.2 ∉ ps.map Prod.fst := fun p hp' h =>
        hapart p (List.mem_cons_of_mem _ hp') (List.mem_cons_of_mem _ h)
      rw [ih hnodup happs hmem, move_other m hpq]

end moves
