-- Labelled transition systems: the runs of a system, the states that they
-- reach, and the rule that carries an invariant from one step to a whole
-- run. Nothing here names the program.
import Mathlib.Data.List.Induction

namespace transition

variable {σ α : Type}

/-- The start states, and the steps that an action can take. -/
structure System (σ α : Type) where
  start : σ → Prop
  step : σ → α → σ → Prop

/-- The actions `as` lead from the first state to the last one. -/
inductive Run (S : System σ α) : σ → List α → σ → Prop
  | nil (s : σ) : Run S s [] s
  | snoc {s : σ} {as : List α} {t : σ} {a : α} {u : σ} :
      Run S s as t → S.step t a u → Run S s (as ++ [a]) u

theorem Run.one {S : System σ α} {s t : σ} {a : α} (h : S.step s a t) : Run S s [a] t :=
  .snoc (.nil s) h

theorem Run.append {S : System σ α} {s t u : σ} {as bs : List α} (h : Run S s as t)
    (g : Run S t bs u) : Run S s (as ++ bs) u := by
  induction g with
  | nil => rwa [List.append_nil]
  | snoc _ hb ih =>
    rw [← List.append_assoc]
    exact ih.snoc hb

theorem Run.last {S : System σ α} {s t : σ} {as : List α} {a : α} (h : Run S s (as ++ [a]) t) :
    ∃ u, Run S s as u ∧ S.step u a t := by
  generalize hl : as ++ [a] = l at h
  cases h with
  | nil => exact absurd hl (by simp)
  | snoc hr ha =>
    obtain ⟨rfl, hsame⟩ := List.append_inj' hl rfl
    cases hsame
    exact ⟨_, hr, ha⟩

/-- A run comes to each of its actions. -/
theorem Run.split {S : System σ α} {s t : σ} {as bs : List α} {a : α}
    (h : Run S s (as ++ a :: bs) t) : ∃ u v, Run S s as u ∧ S.step u a v ∧ Run S v bs t := by
  induction bs using List.reverseRecOn generalizing t with
  | nil =>
    obtain ⟨u, hr, ha⟩ := h.last
    exact ⟨u, t, hr, ha, .nil _⟩
  | append_singleton bs b ih =>
    rw [← List.cons_append, ← List.append_assoc] at h
    obtain ⟨w, hr, hb⟩ := h.last
    obtain ⟨u, v, hu, ha, hv⟩ := ih hr
    exact ⟨u, v, hu, ha, hv.snoc hb⟩

/-- A run from a start state ends here. -/
def Reachable (S : System σ α) (t : σ) : Prop :=
  ∃ s as, S.start s ∧ Run S s as t

/-- The runs whose steps all meet `G`, each in the state before the step. -/
def System.guarded (S : System σ α) (G : σ → α → Prop) : System σ α where
  start := S.start
  step s a t := G s a ∧ S.step s a t

/-- The runs that stay within `P` after each step. -/
def System.within (S : System σ α) (P : σ → Prop) : System σ α where
  start := S.start
  step s a t := S.step s a t ∧ P t

theorem Run.of_guarded {S : System σ α} {G : σ → α → Prop} {s t : σ} {as : List α}
    (h : Run (S.guarded G) s as t) : Run S s as t := by
  induction h with
  | nil => exact .nil _
  | snoc _ ha ih => exact ih.snoc ha.2

theorem Reachable.of_guarded {S : System σ α} {G : σ → α → Prop} {t : σ}
    (h : Reachable (S.guarded G) t) : Reachable S t := by
  obtain ⟨s, as, hs, hr⟩ := h
  exact ⟨s, as, hs, hr.of_guarded⟩

theorem Reachable.guarded_mono {S : System σ α} {G H : σ → α → Prop}
    (hGH : ∀ s a, G s a → H s a) {t : σ}
    (h : Reachable (S.guarded G) t) : Reachable (S.guarded H) t := by
  obtain ⟨s, as, hs, hr⟩ := h
  refine ⟨s, as, hs, ?_⟩
  induction hr with
  | nil => exact .nil _
  | snoc _ ha ih => exact ih.snoc ⟨hGH _ _ ha.1, ha.2⟩

theorem Reachable.step {S : System σ α} {s t : σ} (h : Reachable S s) (a : α)
    (ha : S.step s a t) : Reachable S t := by
  obtain ⟨s0, as, hs, hr⟩ := h
  exact ⟨s0, as ++ [a], hs, hr.snoc ha⟩

theorem Run.keeps {S : System σ α} {P : σ → Prop}
    (hstep : ∀ s a t, P s → S.step s a t → P t) {s t : σ} {as : List α}
    (h : Run S s as t) (hs : P s) : P t := by
  induction h with
  | nil => exact hs
  | snoc _ ha ih => exact hstep _ _ _ ih ha

theorem Reachable.keeps {S : System σ α} {P : σ → Prop} (hstart : ∀ s, S.start s → P s)
    (hstep : ∀ s a t, P s → S.step s a t → P t) {t : σ} (h : Reachable S t) : P t := by
  obtain ⟨s, as, hs, hr⟩ := h
  exact hr.keeps hstep (hstart s hs)

/-- Where every step makes a measure smaller, a run has no more steps than the measure. -/
theorem Run.length_le {S : System σ α} {P : σ → Prop} {μ : σ → Nat}
    (hstep : ∀ s a t, P s → S.step s a t → P t ∧ μ t < μ s) {s t : σ} {as : List α}
    (h : Run S s as t) (hs : P s) : P t ∧ as.length + μ t ≤ μ s := by
  induction h with
  | nil => exact ⟨hs, by simp⟩
  | snoc _ ha ih =>
    obtain ⟨hp, hle⟩ := ih
    obtain ⟨hp', hlt⟩ := hstep _ _ _ hp ha
    refine ⟨hp', ?_⟩
    rw [List.length_append, List.length_singleton]
    omega

/-- Where each step of one system is a step of another one as seen through `f`, or leaves
what is seen as it is, the states that are reached are seen as states that are reached. -/
theorem Reachable.seen {τ β : Type} {S : System σ α} {T : System τ β} {P : σ → Prop} (f : σ → τ)
    (hstart : ∀ s, S.start s → P s ∧ T.start (f s))
    (hstep : ∀ s a t, P s → Reachable T (f s) → S.step s a t →
      P t ∧ (f t = f s ∨ ∃ b, T.step (f s) b (f t))) {t : σ} (h : Reachable S t) :
    P t ∧ Reachable T (f t) := by
  refine h.keeps (P := fun s => P s ∧ Reachable T (f s)) ?_ ?_
  · intro s hs
    obtain ⟨hp, ht⟩ := hstart s hs
    exact ⟨hp, f s, [], ht, .nil _⟩
  · rintro s a t ⟨hp, hr⟩ ha
    obtain ⟨hp', hsame | ⟨b, hb⟩⟩ := hstep s a t hp hr ha
    · exact ⟨hp', hsame ▸ hr⟩
    · exact ⟨hp', hr.step b hb⟩

/-- Where a step keeps `P` just when it meets `G`, the runs that stay within
`P` are those whose steps all meet `G`. -/
theorem run_within_iff {S : System σ α} {P I : σ → Prop} {G : σ → α → Prop}
    (hstep : ∀ s a t, I s → P s → S.step s a t → I t ∧ (P t ↔ G s a)) {s t : σ} {as : List α}
    (hi : I s) (hp : P s) : Run (S.within P) s as t ↔ Run (S.guarded G) s as t := by
  constructor
  · intro h
    have hboth : I t ∧ P t ∧ Run (S.guarded G) s as t := by
      induction h with
      | nil => exact ⟨hi, hp, .nil _⟩
      | snoc _ ha ih =>
        obtain ⟨hi', hp', hr⟩ := ih
        obtain ⟨h1, h2⟩ := hstep _ _ _ hi' hp' ha.1
        exact ⟨h1, ha.2, hr.snoc ⟨h2.mp ha.2, ha.1⟩⟩
    exact hboth.2.2
  · intro h
    have hboth : I t ∧ P t ∧ Run (S.within P) s as t := by
      induction h with
      | nil => exact ⟨hi, hp, .nil _⟩
      | snoc _ ha ih =>
        obtain ⟨hi', hp', hr⟩ := ih
        obtain ⟨h1, h2⟩ := hstep _ _ _ hi' hp' ha.2
        exact ⟨h1, h2.mpr ha.1, hr.snoc ⟨ha.2, h2.mpr ha.1⟩⟩
    exact hboth.2.2

/-- A system whose actions lead to one state at most. -/
def machine (start : σ → Prop) (act : σ → α → Option σ) : System σ α where
  start := start
  step s a t := act s a = some t

theorem Run.machine {start : σ → Prop} {act : σ → α → Option σ} {r s t : σ} {as bs : List α}
    (h : Run (machine start act) r as s) (hb : bs.foldlM act s = some t) :
    Run (transition.machine start act) r (as ++ bs) t := by
  induction bs generalizing as s with
  | nil =>
    cases hb
    rwa [List.append_nil]
  | cons b bs ih =>
    rw [List.foldlM_cons] at hb
    obtain ⟨u, hu, hbs⟩ := Option.bind_eq_some_iff.mp hb
    have := ih (h.snoc hu) hbs
    rwa [List.append_assoc] at this

/-- A run from a start state that is only looked at where it ends. -/
theorem Reachable.machine {start : σ → Prop} {act : σ → α → Option σ} {Q : σ → Prop}
    [DecidablePred Q] (s : σ) (hs : start s) (as : List α)
    (h : (as.foldlM act s).any (fun t => Q t) = true) :
    ∃ t, Reachable (transition.machine start act) t ∧ Q t := by
  cases ht : as.foldlM act s with
  | none =>
    rw [ht] at h
    cases h
  | some t =>
    rw [ht] at h
    exact ⟨t, ⟨s, as, hs, (Run.nil s).machine ht⟩, of_decide_eq_true h⟩

/-- The runs of a machine whose actions all meet `G` are those of a machine. -/
theorem guarded_machine (start : σ → Prop) (act : σ → α → Option σ) (G : σ → α → Prop)
    [∀ s a, Decidable (G s a)] : (machine start act).guarded G =
      machine start fun s a => if G s a then act s a else none := by
  unfold System.guarded machine
  congr 1
  funext s a t
  by_cases hG : G s a
  · simp [hG]
  · simp [hG]

theorem Run.machine_guarded {start : σ → Prop} {act : σ → α → Option σ} {G : σ → α → Prop}
    [∀ s a, Decidable (G s a)] {r s t : σ} {as bs : List α}
    (h : Run ((transition.machine start act).guarded G) r as s)
    (hb : bs.foldlM (fun s a => if G s a then act s a else none) s = some t) :
    Run ((transition.machine start act).guarded G) r (as ++ bs) t := by
  rw [guarded_machine] at h ⊢
  exact h.machine hb

theorem Reachable.machine_guarded {start : σ → Prop} {act : σ → α → Option σ} {G : σ → α → Prop}
    {Q : σ → Prop} [∀ s a, Decidable (G s a)] [DecidablePred Q] (s : σ) (hs : start s) (as : List α)
    (h : (as.foldlM (fun s a => if G s a then act s a else none) s).any (fun t => Q t) = true) :
    ∃ t, Reachable ((transition.machine start act).guarded G) t ∧ Q t := by
  rw [guarded_machine]
  exact Reachable.machine s hs as h

end transition
