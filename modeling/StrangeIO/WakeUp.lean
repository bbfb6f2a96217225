-- The wake-ups of the rack thread: `trigger_cycle` notifies without the mutex,
-- and the loop waits without a look at the queue, so a trigger that lands
-- between its last look and its wait goes unheard.
import StrangeIO.RackLoop

namespace strangeio.component.rack_loop

/-- The loop is running and blocked with cycles in its queue, and no call is
left that would notify it. -/
def stalled (s : rack_loop) : Prop :=
  s.m_running = true ∧ s.pc = .blocked ∧ 0 < s.m_cycle_queue ∧ s.notifying = 0

/-- The thread goes to wait only when its queue is empty or a call has yet to notify it. -/
def waits_in_time (s : rack_loop) (a : action) : Prop :=
  a = .rack → s.pc = .at_wait → s.owns_lock = true → s.m_running = true →
    0 < s.m_cycle_queue → 0 < s.notifying

/-- A step of the thread that blocks it is the wait with the lock. -/
theorem run_blocked {s t : rack_loop} (h : s.run = some t) (ht : t.pc = .blocked) :
    s.pc = .at_wait ∧ s.owns_lock = true ∧ t = { s with owns_lock := false, pc := .blocked } := by
  unfold run at h
  grind

/-- A step of another thread blocks no one: a thread that is blocked after it
was before, and the step was no notification. -/
theorem act_blocked {s t : rack_loop} {a : action} (h : s.act a = some t) (ha : a ≠ .rack)
    (ht : t.pc = .blocked) :
    s.pc = .blocked ∧ (t.m_running = true → s.m_running = true) ∧
      (0 < t.notifying ∨ t.m_cycle_queue = s.m_cycle_queue ∧ t.notifying = s.notifying) := by
  unfold act at h
  cases a with
  | rack => exact absurd rfl ha
  | notify =>
    simp only at h
    split at h
    · cases h
      unfold notify_one at ht
      split at ht
      · cases ht
      · rename_i hpc
        exact absurd ht hpc
    · cases h
  | _ => grind

/-- A step stalls the loop just when the thread goes to wait too late. -/
theorem act_stalled {s t : rack_loop} {a : action} (h : s.act a = some t) (hs : ¬ s.stalled) :
    ¬ t.stalled ↔ s.waits_in_time a := by
  by_cases ha : a = .rack
  · subst ha
    constructor
    · intro ht _ hpc howns hrunning hqueue
      have hwait : t = { s with owns_lock := false, pc := .blocked } := by
        have hrun : s.run = some { s with owns_lock := false, pc := .blocked } := by
          unfold run
          rw [hpc]
          simp only [howns, if_true]
        exact Option.some.inj (h.symm.trans hrun)
      subst hwait
      by_contra hnone
      exact ht ⟨hrunning, rfl, hqueue, by simpa using hnone⟩
    · rintro hwaits ⟨hrunning, hpc, hqueue, hnotifying⟩
      obtain ⟨hwait, howns, rfl⟩ := run_blocked h hpc
      have := hwaits rfl hwait howns hrunning hqueue
      simp only at hnotifying
      omega
  · constructor
    · exact fun _ hrack => absurd hrack ha
    · rintro - ⟨hrunning, hpc, hqueue, hnotifying⟩
      obtain ⟨hblocked, hrun, hcalls⟩ := act_blocked h ha hpc
      rcases hcalls with hcalls | ⟨hsame, hnone⟩
      · omega
      · exact hs ⟨hrun hrunning, hblocked, hsame ▸ hqueue, hnone ▸ hnotifying⟩

/-! ## When a wait comes too late -/

/-- The thread has looked at its queue, or not yet begun, and will wait next. -/
def idle (s : rack_loop) : Prop :=
  match s.pc with
  | .unstarted | .created | .activated => True
  | .at_loop | .at_wait => s.owns_lock = true
  | _ => False

/-- Without a trigger since the last look the queue is still empty. -/
def heard_all (s : rack_loop) : Prop := s.idle → s.landed = 0 → s.m_cycle_queue ≤ 0

theorem heard_all_run {s t : rack_loop} (h : s.run = some t) (hs : s.heard_all) : t.heard_all := by
  unfold run at h
  unfold heard_all idle at hs ⊢
  grind

theorem heard_all_act {s t : rack_loop} {a : action} (h : s.act a = some t) (hs : s.heard_all) :
    t.heard_all := by
  cases a with
  | rack => exact heard_all_run h hs
  | notify =>
    unfold act notify_one at h
    unfold heard_all idle at hs ⊢
    grind
  | trigger_cycle =>
    cases h
    intro _ hlanded
    exact absurd hlanded (Nat.succ_ne_zero _)
  | throws =>
    obtain ⟨-, rfl⟩ := act_throws h
    intro hidle
    cases hidle
  | _ =>
    unfold act at h
    unfold heard_all idle at hs ⊢
    grind

theorem heard_all_reachable {s : rack_loop} (h : transition.Reachable loops s) : s.heard_all := by
  refine h.keeps (P := heard_all) ?_ ?_
  · rintro s rfl
    exact fun _ _ => Int.le_refl 0
  · intro s a t hs ha
    exact heard_all_act ha hs

/-- No wake-up is lost in the runs in which the thread always waits in time,
and in no others. A wait comes too late only after a trigger has landed since
the thread last looked at its queue, or before it ever did. -/
theorem no_wake_up_is_lost (s : rack_loop) :
    (∀ as, transition.Run (loops.within fun s => ¬ s.stalled) new as s ↔
      transition.Run (loops.guarded waits_in_time) new as s) ∧
    (transition.Reachable loops s → s.pc = .at_wait → ¬ s.waits_in_time .rack →
      0 < s.landed) := by
  constructor
  · intro as
    apply transition.run_within_iff (I := fun _ => True)
    · intro s a t _ hs ha
      exact ⟨trivial, act_stalled ha hs⟩
    · trivial
    · rintro ⟨hrunning, -⟩
      cases hrunning
  · intro hs hpc hlate
    unfold waits_in_time at hlate
    push Not at hlate
    obtain ⟨-, -, howns, -, hqueue, -⟩ := hlate
    by_contra hnone
    have := heard_all_reachable hs (by unfold idle; rw [hpc]; exact howns) (by omega)
    omega

/-- A trigger lands between the activation of the thread and its first wait:
the thread is notified before it waits, and blocks with a cycle in its queue. -/
theorem a_trigger_before_the_wait_goes_unheard :
    ∃ s, transition.Run loops new
      [.start, .rack, .rack, .rack, .trigger_cycle, .notify, .rack] s ∧ s.stalled := by
  refine ⟨{ new with
    m_running := true
    m_active := true
    m_cycle_queue := 1
    pc := .blocked
    landed := 1 }, ?_, by unfold stalled; decide⟩
  apply transition.Run.machine (.nil _)
  decide

end strangeio.component.rack_loop
