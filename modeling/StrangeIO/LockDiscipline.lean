-- The mutex of the rack loop on its error paths: both handlers unlock it by
-- hand and leave the inner loop only, so the outer loop goes on without it.
import StrangeIO.RackLoop

namespace strangeio.component.rack_loop

/-- The step calls `m_trigger.wait`. -/
def waits (s : rack_loop) (a : action) : Prop := a = .rack ∧ s.pc = .at_wait

/-- The step calls `lock.unlock`: in a handler, or before the loop is left. -/
def unlocks (s : rack_loop) (a : action) : Prop :=
  a = .throws ∨ a = .rack ∧ s.pc = .at_recheck ∧ s.m_running = false

def keeps_lock (s : rack_loop) (a : action) : Prop :=
  s.waits a ∨ s.unlocks a → s.owns_lock = true

/-- The loop comes to its test after a bail-out only when it has been told to stop. -/
def stops_after_bail (s : rack_loop) (a : action) : Prop :=
  a = .rack → s.pc = .at_loop → s.bailed = true → s.m_running = false

instance (s : rack_loop) (a : action) : Decidable (s.stops_after_bail a) :=
  inferInstanceAs (Decidable (_ → _ → _ → _))

/-! ## Where the mutex is held -/

/-- While no handler has bailed out the mutex is held from the activation on,
but for the wait. A thread that has bailed out is on its way to the end. -/
def Locked (s : rack_loop) : Prop :=
  match s.pc with
  | .unstarted | .created | .activated | .blocked | .woken => s.bailed = false
  | .at_loop => s.owns_lock = !s.bailed
  | .ended => True
  | .finished => s.m_active = false
  | .undefined => False
  | _ => s.owns_lock = true ∧ s.bailed = false

theorem locked_new : new.Locked := rfl

/-- The invariant reads no more than these fields. -/
theorem Locked.same {s t : rack_loop} (h : s.Locked) (hpc : t.pc = s.pc)
    (howns : t.owns_lock = s.owns_lock) (hb : t.bailed = s.bailed)
    (hactive : t.m_active = s.m_active) : t.Locked := by
  unfold Locked at h ⊢
  rw [hpc, howns, hb, hactive]
  exact h

theorem Locked.woken {s : rack_loop} (h : s.Locked) (hpc : s.pc = .blocked) :
    { s with pc := .woken }.Locked := by
  unfold Locked at h
  rw [hpc] at h
  exact h

theorem Locked.throws {s : rack_loop} (h : s.Locked) (ht : s.may_throw = true) :
    s.owns_lock = true := by
  unfold may_throw at ht
  unfold Locked at h
  grind

/-- A step of the thread unlocks and waits only with the mutex, and keeps the
invariant where the loop does not go on after a bail-out. -/
theorem Locked.run {s t : rack_loop} (h : s.Locked) (ht : s.run = some t)
    (hs : s.stops_after_bail .rack) : t.Locked := by
  have hs := hs rfl
  unfold rack_loop.run at ht
  unfold Locked at h ⊢
  grind [start_phase, store_flags, store_resync]

theorem Locked.act {s t : rack_loop} {a : action} (h : s.Locked) (ht : s.act a = some t)
    (hs : s.stops_after_bail a) : t.Locked := by
  cases a with
  | rack => exact h.run ht hs
  | throws =>
    obtain ⟨-, rfl⟩ := act_throws ht
    rfl
  | start =>
    simp only [rack_loop.act] at ht
    split at ht
    · rename_i hpc
      cases ht
      unfold Locked at h
      rw [hpc] at h
      exact h
    · cases ht
  | wake =>
    simp only [rack_loop.act] at ht
    split at ht
    · rename_i hpc
      cases ht
      exact h.woken hpc
    · cases ht
  | notify =>
    simp only [rack_loop.act, notify_one] at ht
    split at ht
    · cases ht
      split
      · rename_i hpc
        exact (h.woken hpc).same rfl rfl rfl rfl
      · exact h.same rfl rfl rfl rfl
    · cases ht
  | raise i =>
    simp only [rack_loop.act] at ht
    split at ht
    · cases ht
    · cases ht
      exact h.same rfl rfl rfl rfl
  | stop =>
    simp only [rack_loop.act] at ht
    split at ht
    · cases ht
    · cases ht
      exact h.same rfl rfl rfl rfl
  | _ =>
    cases ht
    exact h.same rfl rfl rfl rfl

theorem Locked.keeps {s t : rack_loop} {a : action} (h : s.Locked) (ht : s.act a = some t) :
    s.keeps_lock a := by
  rintro (⟨-, hpc⟩ | rfl | ⟨-, hpc, -⟩)
  · unfold Locked at h
    rw [hpc] at h
    exact h.1
  · exact h.throws (act_throws ht).1
  · unfold Locked at h
    rw [hpc] at h
    exact h.1

theorem locked_reachable {s : rack_loop}
    (h : transition.Reachable (loops.guarded stops_after_bail) s) : s.Locked := by
  refine h.keeps (P := Locked) ?_ ?_
  · rintro s rfl
    exact locked_new
  · rintro s a t hs ⟨hguard, ha⟩
    exact hs.act ha hguard

/-! ## After a bail-out -/

/-- A thread that has bailed out comes to the test of the loop, or has passed it. -/
theorem Locked.bailed {s : rack_loop} (h : s.Locked) (hb : s.bailed = true) :
    s.pc = .at_loop ∨ s.pc = .ended ∨ s.pc = .finished := by
  unfold Locked at h
  grind

/-- Told to stop, the thread ends by its own steps alone, and is inactive then. -/
theorem Locked.ends {s : rack_loop} (h : s.Locked) (hb : s.bailed = true)
    (hstop : s.m_running = false) :
    ∃ as t, transition.Run (loops.guarded stops_after_bail) s as t ∧ (∀ a ∈ as, a = .rack) ∧
      t.pc = .finished ∧ t.m_active = false := by
  have hend : ∀ u : rack_loop, u.pc = .ended →
      (loops.guarded stops_after_bail).step u .rack
        { u with m_active := false, pc := .finished } := by
    intro u hu
    refine ⟨fun _ hpc => ?_, ?_⟩
    · rw [hu] at hpc
      cases hpc
    · change u.run = _
      unfold rack_loop.run
      rw [hu]
  rcases h.bailed hb with hpc | hpc | hpc
  · refine ⟨[.rack, .rack], { s with m_active := false, pc := .finished }, ?_, by simp, rfl, rfl⟩
    have hloop : (loops.guarded stops_after_bail).step s .rack { s with pc := .ended } := by
      refine ⟨fun _ _ _ => hstop, ?_⟩
      change s.run = _
      unfold rack_loop.run
      rw [hpc]
      simp [hstop]
    exact (transition.Run.one hloop).snoc (hend _ rfl)
  · exact ⟨[.rack], _, .one (hend s hpc), by simp, rfl, rfl⟩
  · refine ⟨[], s, .nil s, by simp, hpc, ?_⟩
    unfold Locked at h
    rwa [hpc] at h

/-- In the runs in which no loop goes on after a bail-out the thread waits and
unlocks only with the mutex, and a thread that has bailed out ends when it is
told to. A loop that does go on waits without the mutex at its next step. -/
theorem the_mutex_is_held_unless_the_loop_goes_on {s : rack_loop}
    (hs : transition.Reachable (loops.guarded stops_after_bail) s) :
    (∀ a t, s.act a = some t → s.keeps_lock a) ∧
      (s.bailed = true → (s.pc = .at_loop ∨ s.pc = .ended ∨ s.pc = .finished) ∧
        (s.m_running = false → ∃ as t, transition.Run (loops.guarded stops_after_bail) s as t ∧
          (∀ a ∈ as, a = .rack) ∧ t.pc = .finished ∧ t.m_active = false)) ∧
      ∀ a, ¬ s.stops_after_bail a → ∃ t u, s.act a = some t ∧ ¬ t.keeps_lock .rack ∧
        t.act .rack = some u ∧ u.pc = .undefined := by
  have hlocked := locked_reachable hs
  refine ⟨fun a t ha => hlocked.keeps ha, ?_, ?_⟩
  · exact fun hb => ⟨hlocked.bailed hb, fun hstop => hlocked.ends hb hstop⟩
  · intro a hgoes
    unfold stops_after_bail at hgoes
    push Not at hgoes
    obtain ⟨rfl, hpc, hb, hrunning⟩ := hgoes
    have howns : s.owns_lock = false := by
      unfold Locked at hlocked
      rw [hpc, hb] at hlocked
      exact hlocked
    refine ⟨{ s with pc := .at_wait }, { s with pc := .undefined }, ?_, ?_, ?_, rfl⟩
    · simp [act, run, hpc, hrunning]
    · intro hkeeps
      have := hkeeps (.inl ⟨rfl, rfl⟩)
      rw [howns] at this
      cases this
    · simp [act, run, howns]

/-- The loop is told to stop in its first cycle. -/
def stopped_in_cycle : rack_loop :=
  { new with
    m_active := true
    m_cycle_queue := 1
    owns_lock := true
    pc := .cycling
    notifying := 1 }

def bailed_out : rack_loop :=
  { stopped_in_cycle with owns_lock := false, pc := .at_loop, bailed := true }

/-- Where that cycle drains the cache, the handler has the mutex to unlock, and the thread
comes to its end. -/
theorem a_stopped_loop_bails_out_and_ends :
    ∃ s t, transition.Run loops new
      [.start, .rack, .rack, .rack, .rack, .trigger_cycle, .notify, .rack, .rack, .rack, .stop] s ∧
      s.keeps_lock .throws ∧ s.act .throws = some t ∧ ∃ as u, transition.Run loops t as u ∧
        (∀ a ∈ as, a = .rack) ∧ u.pc = .finished ∧ u.m_active = false := by
  have hrun : transition.Run (loops.guarded stops_after_bail) new
      [.start, .rack, .rack, .rack, .rack, .trigger_cycle, .notify, .rack, .rack, .rack, .stop]
      stopped_in_cycle := by
    apply transition.Run.machine_guarded (.nil _)
    decide
  have hkeeps := (the_mutex_is_held_unless_the_loop_goes_on ⟨_, _, rfl, hrun⟩).1 .throws _ rfl
  have hbailed : transition.Reachable (loops.guarded stops_after_bail) bailed_out :=
    ⟨_, _, rfl, hrun.snoc (a := .throws) ⟨nofun, rfl⟩⟩
  obtain ⟨-, hends⟩ := (the_mutex_is_held_unless_the_loop_goes_on hbailed).2.1 rfl
  obtain ⟨as, u, hrest, hrack, hpc, hactive⟩ := hends rfl
  exact ⟨_, _, hrun.of_guarded, hkeeps, rfl, as, u, hrest.of_guarded, hrack, hpc, hactive⟩

/-- The first cycle drains the cache: the loop bails out and goes to wait without the mutex. -/
theorem a_drained_cycle_waits_without_the_mutex :
    ∃ s, transition.Run loops new
      [.start, .rack, .rack, .rack, .rack, .trigger_cycle, .notify, .rack, .rack, .rack, .throws,
        .rack] s ∧ ¬ s.keeps_lock .rack := by
  refine ⟨{ new with
    m_running := true
    m_active := true
    m_cycle_queue := 1
    pc := .at_wait
    bailed := true }, ?_, ?_⟩
  · apply transition.Run.machine (.nil _)
    decide
  · intro hkeeps
    exact absurd (hkeeps (.inl ⟨rfl, rfl⟩)) (by decide)

end strangeio.component.rack_loop
