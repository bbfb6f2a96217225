-- Computations that give a value or an error: how binds and maps of them
-- compute, and what a fold keeps. Nothing here names the program.
import Mathlib.Data.List.Basic

namespace fallible

variable {ε α β σ : Type}

@[simp] theorem ok_bind (x : α) (f : α → Except ε β) :
    ((Except.ok x : Except ε α) >>= f) = f x := rfl

@[simp] theorem error_bind (e : ε) (f : α → Except ε β) :
    ((Except.error e : Except ε α) >>= f) = .error e := rfl

@[simp] theorem map_ok (f : α → β) (x : α) : (Except.ok x : Except ε α).map f = .ok (f x) := rfl

@[simp] theorem map_error (f : α → β) (e : ε) :
    (Except.error e : Except ε α).map f = .error e := rfl

/-- A bind that gives a value took one from its first part. -/
theorem bind_ok {x : Except ε α} {f : α → Except ε β} {b : β} :
    (x >>= f) = .ok b ↔ ∃ a, x = .ok a ∧ f a = .ok b := by
  cases x with
  | error e => simp
  | ok a => simp

theorem map_eq_ok {x : Except ε α} {f : α → β} {b : β} :
    x.map f = .ok b ↔ ∃ a, x = .ok a ∧ f a = b := by
  cases x with
  | error e => simp
  | ok a => simp

theorem foldlM_cons_ok {f : σ → α → Except ε σ} {a : α} {l : List α} {s t : σ} :
    (a :: l).foldlM f s = .ok t ↔ ∃ u, f s a = .ok u ∧ l.foldlM f u = .ok t := by
  rw [List.foldlM_cons]
  exact bind_ok

/-- What every step keeps, a fold that gives a value keeps. -/
theorem foldlM_keeps {I : σ → Prop} {f : σ → α → Except ε σ} {l : List α}
    (hstep : ∀ s t, ∀ a ∈ l, I s → f s a = .ok t → I t) {s t : σ} (hs : I s)
    (h : l.foldlM f s = .ok t) : I t := by
  induction l generalizing s with
  | nil =>
    cases h
    exact hs
  | cons a l ih =>
    obtain ⟨u, hu, hl⟩ := foldlM_cons_ok.mp h
    exact ih (fun s t b hb => hstep s t b (List.mem_cons_of_mem _ hb))
      (hstep s u a List.mem_cons_self hs hu) hl

end fallible
