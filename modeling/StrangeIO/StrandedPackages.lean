-- The wake-ups of the waiter (threads/queue.cpp): three parties notify it without
-- its mutex, it waits without a look at what it has in its hand, and its thread
-- is there before `start` says that the queue is running.
import StrangeIO.PackageRuns

namespace strangeio.thread

/-- The thread of the worker has yet to say that it is running. -/
def worker_pc.begins : worker_pc → Bool
  | .created | .clearing | .activating | .starting => true
  | _ => false

/-- The queue may be running: `start` has ended, and `stop` has not told it to end. -/
def control_pc.runs : control_pc → Bool
  | .started | .stopping _ | .halting _ | .calling _ | .joining _ | .at_stop => true
  | _ => false

namespace queue

/-- A package waits in the pump or in the waiter's hand. -/
def work (s : queue) : Prop := s.m_pump.m_queue ≠ [] ∨ s.hand ≠ none

/-- A call of `add_package` or a worker has made its change and has yet to notify. -/
def notification_due (s : queue) : Prop :=
  0 < s.notifying ∨ ∃ i, i < s.m_pool.length ∧ (s.worker i).pc = .at_ready

/-- The worker waits and has nothing loaded. -/
def idle (w : thread.worker) : Prop := w.pc = .blocked ∧ w.m_loaded = false

/-- The worker is idle, or has told the waiter so and has yet to wait. -/
def settling (w : thread.worker) : Prop := w.pc = .at_loop ∨ w.pc = .at_wait ∨ idle w

instance (w : thread.worker) : Decidable (idle w) := inferInstanceAs (Decidable (_ ∧ _))

instance (w : thread.worker) : Decidable (settling w) := inferInstanceAs (Decidable (_ ∨ _ ∨ _))

instance (s : queue) : Decidable s.work := inferInstanceAs (Decidable (_ ∨ _))

instance (s : queue) : Decidable s.notification_due :=
  inferInstanceAs (Decidable (_ ∨ ∃ i, i < s.m_pool.length ∧ _))

/-- The queue is started and not yet told to stop, and its waiter has ended, or is blocked
with a package and an idle worker while no one is about to notify it. -/
def stranded (s : queue) : Prop :=
  s.control = .started ∧ (s.waiter = .exited ∨
    s.waiter = .blocked ∧ ¬ s.notification_due ∧ s.work ∧ ∃ i < s.m_pool.length, idle (s.worker i))

instance (s : queue) : Decidable s.stranded := inferInstanceAs (Decidable (_ ∧ (_ ∨ _)))

/-- The waiter first tests `m_running` after `start` has set it, and goes to wait with a
package only while a party is about to notify it, or all workers have yet to. -/
def waits_in_time (s : queue) : action → Prop
  | .cycle =>
    (s.waiter = .at_loop → s.control ≠ .at_running) ∧
      (s.waiter = .at_wait → s.work →
        s.notification_due ∨ ∀ i < s.m_pool.length, ¬ settling (s.worker i))
  | _ => True

instance (s : queue) (a : action) : Decidable (s.waits_in_time a) :=
  match a with
  | .cycle => inferInstanceAs (Decidable (_ ∧ _))
  | .start | .stop | .steer | .add_package | .notify | .process _ | .wake | .wake_worker _ =>
    inferInstanceAs (Decidable True)

/-! ## When the workers and the waiter start -/

/-- The workers begin while `start` waits for each in turn. -/
structure Begun (s : queue) : Prop where
  begins : ∀ i, (s.worker i).pc.begins = true →
    (s.worker i).m_running = false ∧ s.control = .awaiting i
  spawns : ∀ i, s.control = .spawning i → (s.worker i).m_running = false

/-- The waiter's thread runs before the queue does, and then does until it is told not to. -/
structure Launched (s : queue) : Prop where
  before : s.control = .at_running → s.waiter = .created ∨ s.waiter = .at_loop
  during : s.control = .started → s.m_running = true ∧ s.waiter ≠ .exited
  running : s.m_running = true → s.control.runs = true

/-- The steps of other threads than the worker's own and those that start and stop it. -/
theorem act_quiet {s t : queue} {a : action} (h : s.act a = some t) (hsteer : a ≠ .steer)
    (hprocess : ∀ i, a ≠ .process i) (j : Nat) :
    (t.worker j).m_running = (s.worker j).m_running ∧
      ((t.worker j).pc = (s.worker j).pc ∨
        (s.worker j).pc = .blocked ∧ (t.worker j).pc = .woken) := by
  cases a with
  | steer => exact absurd rfl hsteer
  | process i => exact absurd rfl (hprocess i)
  | cycle =>
    rcases cycle_worker h j with ⟨hrun, -, -, hpc⟩ | ⟨-, ht⟩ | ⟨-, ht⟩
    · exact ⟨hrun, hpc⟩
    · rw [ht]
      exact ⟨rfl, .inl rfl⟩
    · rw [ht]
      exact ⟨rfl, .inl rfl⟩
  | add_package =>
    cases h
    exact ⟨rfl, .inl rfl⟩
  | wake_worker i =>
    simp only [act] at h
    split at h
    · rename_i hpc
      cases h
      rw [worker_update i rfl j]
      grind [thread.worker.wake]
    · cases h
  | notify =>
    simp only [act] at h
    split at h
    · cases h
      change (s.notify.worker j).m_running = _ ∧ ((s.notify.worker j).pc = _ ∨
        _ ∧ (s.notify.worker j).pc = _)
      rw [worker_notify]
      exact ⟨rfl, .inl rfl⟩
    · cases h
  | _ =>
    simp only [act] at h
    split at h
    · cases h
      exact ⟨rfl, .inl rfl⟩
    · cases h

theorem process_begins {w w' : thread.worker} (h : w.process = some w')
    (hw : w.pc.begins = true → w.m_running = false) :
    (w'.pc.begins = true → w.pc.begins = true ∧ w'.m_running = false) ∧
      (w.pc.begins = false → w'.m_running = w.m_running) := by
  cases hpc : w.pc <;> simp only [worker.process, hpc] at h <;> grind [worker_pc.begins]

/-- Where no worker begins, a step that starts none keeps it so. -/
theorem Begun.of_none {s t : queue} (hnone : ∀ j, (s.worker j).pc.begins = false)
    (hpc : ∀ j, (t.worker j).pc = (s.worker j).pc ∨ (t.worker j).pc = .woken)
    (hspawns : ∀ i, t.control = .spawning i → (t.worker i).m_running = false) : t.Begun := by
  refine ⟨fun j hj => ?_, hspawns⟩
  rcases hpc j with hsame | hwoken
  · rw [hsame, hnone j] at hj
    cases hj
  · rw [hwoken] at hj
    cases hj

theorem wake_pc (w : thread.worker) : w.wake.pc = w.pc ∨ w.wake.pc = .woken := by
  unfold worker.wake
  split
  · exact .inr rfl
  · exact .inl rfl

theorem Begun.none {s : queue} (hs : s.Begun) (hc : ∀ j, s.control ≠ .awaiting j) (j : Nat) :
    (s.worker j).pc.begins = false := by
  by_contra hj
  exact hc j (hs.begins j (by simpa using hj)).2

theorem Begun.steer {s t : queue} (hs : s.Begun) (h : s.steer = some t) : t.Begun := by
  by_cases hawait : ∃ i, s.control = .awaiting i
  · obtain ⟨i, hc⟩ := hawait
    simp only [queue.steer, hc] at h
    split at h
    · rename_i hrun
      cases h
      refine ⟨fun j hj => ?_, fun j hj => by cases hj⟩
      obtain ⟨hstopped, hj⟩ := hs.begins j hj
      obtain rfl : i = j := by simpa [hc] using hj
      change (s.worker i).m_running = false at hstopped
      rw [hrun] at hstopped
      cases hstopped
    · cases h
  have hnone := hs.none fun j hj => hawait ⟨j, hj⟩
  cases hc : s.control with
  | awaiting i => exact absurd ⟨i, hc⟩ hawait
  | spawning i =>
    simp only [queue.steer, hc] at h
    cases h
    refine ⟨fun j hj => ?_, fun j hj => by cases hj⟩
    rw [worker_update i rfl] at hj ⊢
    split at hj
    · rename_i hji
      subst hji
      rw [if_pos rfl]
      exact ⟨hs.spawns j hc, rfl⟩
    · rw [hnone j] at hj
      cases hj
  | starting i =>
    simp only [queue.steer, hc] at h
    split at h
    · split at h
      · cases h
        exact Begun.of_none hnone (fun _ => .inl rfl) (fun j hj => by cases hj)
      · cases h
        refine Begun.of_none hnone (fun j => .inl ?_) (fun j hj => ?_)
        · rw [worker_update i rfl]
          grind
        · obtain rfl : i = j := by simpa using hj
          rw [worker_update i rfl, if_pos rfl]
    · cases h
      exact Begun.of_none hnone (fun _ => .inl rfl) (fun j hj => by cases hj)
  | halting i =>
    simp only [queue.steer, hc] at h
    cases h
    refine Begun.of_none hnone (fun j => .inl ?_) (fun j hj => by cases hj)
    rw [worker_update i rfl]
    grind
  | calling i =>
    simp only [queue.steer, hc] at h
    cases h
    refine Begun.of_none hnone (fun j => ?_) (fun j hj => by cases hj)
    rw [worker_update i rfl]
    have hwake := wake_pc (s.worker i)
    grind
  | stopping i =>
    simp only [queue.steer, hc] at h
    split at h
    · split at h
      · cases h
        exact Begun.of_none hnone (fun _ => .inl rfl) (fun j hj => by cases hj)
      · cases h
        exact Begun.of_none hnone (fun _ => .inl rfl) (fun j hj => by cases hj)
    · cases h
      exact Begun.of_none hnone (fun _ => .inl rfl) (fun j hj => by cases hj)
  | joining i =>
    simp only [queue.steer, hc] at h
    split at h
    · cases h
      refine Begun.of_none hnone (fun j => .inl ?_) (fun j hj => by cases hj)
      rw [worker_update i rfl]
      grind
    · cases h
  | at_notify =>
    simp only [queue.steer, hc] at h
    cases h
    refine Begun.of_none hnone (fun j => .inl ?_) (fun j hj => by cases hj)
    exact congrArg worker.pc (worker_notify s j)
  | at_join =>
    simp only [queue.steer, hc] at h
    split at h
    · cases h
      exact Begun.of_none hnone (fun _ => .inl rfl) (fun j hj => by cases hj)
    · cases h
  | stopped | started =>
    simp only [queue.steer, hc] at h
    cases h
  | _ =>
    simp only [queue.steer, hc] at h
    cases h
    exact Begun.of_none hnone (fun _ => .inl rfl) (fun j hj => by cases hj)

theorem Begun.act {s t : queue} {a : action} (hs : s.Begun) (h : s.act a = some t) : t.Begun := by
  by_cases hsteer : a = .start ∨ a = .stop ∨ a = .steer
  · rcases hsteer with rfl | rfl | rfl
    · simp only [queue.act] at h
      split at h
      · rename_i hc
        cases h
        exact Begun.of_none (hs.none fun j => by simp [hc]) (fun _ => .inl rfl)
          (fun j hj => by cases hj)
      · cases h
    · simp only [queue.act] at h
      split at h
      · rename_i hc
        cases h
        refine Begun.of_none (hs.none fun j => by simp [hc]) (fun _ => .inl rfl) (fun j hj => ?_)
        simp only at hj
        split at hj <;> cases hj
      · cases h
    · exact hs.steer h
  push Not at hsteer
  obtain ⟨hstart, hstop, hsteer⟩ := hsteer
  by_cases hprocess : ∃ i, a = .process i
  · obtain ⟨i, rfl⟩ := hprocess
    obtain ⟨w, hw, hpool⟩ := process_pool h
    have hcontrol := (act_control h (by simp) (by simp) (by simp)).1
    obtain ⟨h1, h2⟩ := process_begins hw fun hb => (hs.begins i hb).1
    constructor
    · intro j hj
      rw [worker_update i hpool] at hj ⊢
      rw [hcontrol]
      split at hj
      · rename_i hji
        subst hji
        obtain ⟨h3, h4⟩ := h1 hj
        rw [if_pos rfl]
        exact ⟨h4, (hs.begins j h3).2⟩
      · rename_i hji
        rw [if_neg hji]
        exact hs.begins j hj
    · intro j hj
      rw [hcontrol] at hj
      rw [worker_update i hpool]
      split
      · rename_i hji
        subst hji
        rw [h2 (hs.none (fun k => by simp [hj]) j)]
        exact hs.spawns j hj
      · exact hs.spawns j hj
  · push Not at hprocess
    have hquiet := act_quiet h hsteer hprocess
    have hcontrol := (act_control h hstart hstop hsteer).1
    constructor
    · intro j hj
      obtain ⟨h1, h2⟩ := hquiet j
      rw [h1, hcontrol]
      rcases h2 with hpc | ⟨-, hpc⟩
      · exact hs.begins j (hpc ▸ hj)
      · rw [hpc] at hj
        cases hj
    · intro j hj
      rw [(hquiet j).1]
      exact hs.spawns j (hcontrol ▸ hj)

theorem begun_new (size : Nat) : (new size).Begun :=
  ⟨fun _ hi => (by cases hi), fun _ hi => (by cases hi)⟩

theorem Launched.steer {s t : queue} (hs : s.Launched) (h : s.steer = some t) : t.Launched := by
  obtain ⟨h1, h2, h3⟩ := hs
  unfold queue.steer queue.notify set_worker at h
  constructor <;> grind [control_pc.runs]

/-- The waiter ends where it finds the queue not running. -/
theorem cycle_exits {s t : queue} (h : s.cycle = some t) (ht : t.waiter = .exited) :
    s.m_running = false := by
  cases hw : s.waiter <;> simp only [queue.cycle, hw] at h <;> grind [set_worker]

theorem Launched.act {s t : queue} {a : action} (hs : s.Launched) (h : s.act a = some t)
    (hg : s.waits_in_time a) : t.Launched := by
  by_cases hsteer : a = .start ∨ a = .stop ∨ a = .steer
  · rcases hsteer with rfl | rfl | rfl
    · obtain ⟨h1, h2, h3⟩ := hs
      simp only [queue.act] at h
      constructor <;> grind [control_pc.runs]
    · obtain ⟨h1, h2, h3⟩ := hs
      simp only [queue.act] at h
      constructor <;> grind [control_pc.runs]
    · exact hs.steer h
  push Not at hsteer
  obtain ⟨hstart, hstop, hsteer⟩ := hsteer
  obtain ⟨hcontrol, hrunning⟩ := act_control h hstart hstop hsteer
  by_cases hcycle : a = .cycle
  · subst hcycle
    refine ⟨?_, ?_, ?_⟩
    · intro hc
      rw [hcontrol] at hc
      rcases hs.before hc with hw | hw
      · change s.cycle = some t at h
        simp only [queue.cycle, hw] at h
        cases h
        exact .inr rfl
      · exact absurd hc (hg.1 hw)
    · intro hc
      rw [hcontrol] at hc
      rw [hrunning]
      refine ⟨(hs.during hc).1, fun hw => ?_⟩
      have hstopped := cycle_exits h hw
      rw [(hs.during hc).1] at hstopped
      cases hstopped
    · rw [hrunning, hcontrol]
      exact hs.running
  · have hwaiter : t.waiter = s.waiter ∨ s.waiter = .blocked ∧ t.waiter = .woken := by
      by_cases hadd : a = .add_package
      · subst hadd
        cases h
        exact .inl rfl
      · rcases (Aside.act h hcycle hadd).waiter with hw | hw | ⟨ha, -⟩
        · exact .inl hw
        · exact .inr hw
        · exact absurd ha hsteer
    refine ⟨?_, ?_, ?_⟩
    · intro hc
      rw [hcontrol] at hc
      rcases hwaiter with hw | ⟨hw, -⟩
      · rw [hw]
        exact hs.before hc
      · rcases hs.before hc with hold | hold
        · rw [hw] at hold
          cases hold
        · rw [hw] at hold
          cases hold
    · intro hc
      rw [hcontrol] at hc
      rw [hrunning]
      refine ⟨(hs.during hc).1, ?_⟩
      rcases hwaiter with hw | ⟨-, hw⟩
      · rw [hw]
        exact (hs.during hc).2
      · rw [hw]
        simp
    · rw [hrunning, hcontrol]
      exact hs.running

theorem launched_new (size : Nat) : (new size).Launched :=
  ⟨fun hc => (by cases hc), fun hc => (by cases hc), fun hr => (by cases hr)⟩

/-! ## What a blocked waiter can count on -/

/-- While the waiter is blocked with a package, a party is about to notify it, or all
workers have yet to. -/
def Heard (s : queue) : Prop :=
  s.control = .started → s.waiter = .blocked → s.work →
    s.notification_due ∨ ∀ i < s.m_pool.length, ¬ settling (s.worker i)

theorem Heard.not_stranded {s : queue} (hs : s.Heard) (hl : s.Launched) : ¬ s.stranded := by
  rintro ⟨hc, hw | ⟨hw, hdue, hwork, i, hi, hidle⟩⟩
  · exact (hl.during hc).2 hw
  · rcases hs hc hw hwork with hsoon | hnone
    · exact hdue hsoon
    · exact hnone i hi (.inr (.inr hidle))

theorem process_settling {w w' : thread.worker} (h : w.process = some w') (hs : settling w') :
    settling w ∨ w.pc = .at_ready ∨ w.pc = .starting := by
  unfold settling idle at hs ⊢
  cases hpc : w.pc <;> simp only [worker.process, hpc] at h <;> grind

/-- A step of a worker that has not just finished wakes no one. -/
theorem process_blocked {s t : queue} {i : Nat} (h : s.process i = some t)
    (ht : t.waiter = .blocked) :
    s.waiter = .blocked ∧ (s.worker i).pc ≠ .at_ready ∧ t.notifying = s.notifying ∧
      t.m_pool.length = s.m_pool.length := by
  obtain ⟨w, -, rfl⟩ := process_eq h
  unfold queue.notify at ht ⊢
  grind [set_worker]

theorem notify_wakes (s : queue) : s.notify.waiter ≠ .blocked := by
  unfold queue.notify
  split
  · simp
  · assumption

theorem cycle_blocks {s t : queue} (h : s.cycle = some t) (ht : t.waiter = .blocked) :
    s.waiter = .at_wait ∧ t = { s with waiter := .blocked } := by
  cases hw : s.waiter <;> simp only [queue.cycle, hw] at h <;> grind [set_worker]

theorem steer_starts {s t : queue} (h : s.steer = some t) (ht : t.control = .started) :
    s.control = .at_running ∧ t.waiter = s.waiter := by
  cases hc : s.control <;> simp only [queue.steer, hc] at h <;> grind [set_worker]

theorem work_blocked {s : queue} (hw : s.waiter = .blocked) :
    s.work ↔ s.m_pump.m_queue ≠ [] ∨ s.raw_pkg ≠ none := by
  unfold work hand
  rw [hw]

/-- What the worker's own step leaves of a waiter that can count on being notified. -/
theorem Heard.process {s t : queue} {i : Nat} (hs : s.Heard) (hb : s.Begun)
    (h : s.act (.process i) = some t) : t.Heard := by
  intro hc hw hwork
  obtain ⟨hw', hready, hnotifying, hlength⟩ := process_blocked h hw
  have haside := Aside.act h (by simp) (by simp)
  rw [(act_control h (by simp) (by simp) (by simp)).1] at hc
  rw [work_blocked hw, haside.m_pump, haside.raw_pkg, ← work_blocked hw'] at hwork
  obtain ⟨w, hprocess, hpool⟩ := process_pool h
  rcases hs hc hw' hwork with (hcalls | ⟨k, hk, hpc⟩) | hnone
  · exact .inl (.inl (hnotifying ▸ hcalls))
  · have hki : k ≠ i := by
      rintro rfl
      exact hready hpc
    refine .inl (.inr ⟨k, hlength ▸ hk, ?_⟩)
    rwa [worker_update i hpool, if_neg hki]
  · refine .inr fun k hk => ?_
    rw [hlength] at hk
    rw [worker_update i hpool]
    split
    · rename_i hki
      subst hki
      intro hsettling
      rcases process_settling hprocess hsettling with hold | hold | hold
      · exact hnone k hk hold
      · exact hready hold
      · have hbegins := hb.none (fun j => by simp [hc]) k
        rw [hold] at hbegins
        cases hbegins
    · exact hnone k hk

theorem Heard.act {s t : queue} {a : action} (hs : s.Heard) (hb : s.Begun) (hl : s.Launched)
    (h : s.act a = some t) (hg : s.waits_in_time a) : t.Heard := by
  cases a with
  | process i => exact hs.process hb h
  | cycle =>
    intro hc hw hwork
    obtain ⟨hwait, rfl⟩ := cycle_blocks h hw
    refine hg.2 hwait ?_
    rw [work_blocked hw] at hwork
    unfold work hand
    rwa [hwait]
  | steer =>
    intro hc hw _
    obtain ⟨hrunning, hsame⟩ := steer_starts h hc
    rw [hsame] at hw
    rcases hl.before hrunning with hold | hold
    · rw [hw] at hold
      cases hold
    · rw [hw] at hold
      cases hold
  | start =>
    intro hc
    simp only [queue.act] at h
    grind
  | stop =>
    intro hc
    simp only [queue.act] at h
    grind
  | add_package =>
    cases h
    exact fun _ _ _ => .inl (.inl (Nat.succ_pos _))
  | notify =>
    intro _ hw
    simp only [queue.act] at h
    split at h
    · cases h
      exact absurd hw (notify_wakes s)
    · cases h
  | wake =>
    intro _ hw
    simp only [queue.act] at h
    split at h
    · cases h
      cases hw
    · cases h
  | wake_worker i =>
    simp only [queue.act] at h
    split at h
    · rename_i hpc
      cases h
      intro hc hw hwork
      have hworker := worker_update (s := s) (t := s.set_worker i (s.worker i).wake) i rfl
      have hwoken : (s.worker i).wake.pc = .woken := by
        unfold worker.wake
        rw [if_pos hpc]
      rcases hs hc hw hwork with (hcalls | ⟨k, hk, hready⟩) | hnone
      · exact .inl (.inl hcalls)
      · refine .inl (.inr ⟨k, hk, ?_⟩)
        rw [hworker, if_neg]
        · exact hready
        · rintro rfl
          rw [hpc] at hready
          cases hready
      · refine .inr fun k hk => ?_
        rw [hworker]
        split
        · unfold settling idle
          simp [hwoken]
        · exact hnone k hk
    · cases h

/-! ## When a package is stranded -/

/-- In the runs in which the waiter first tests whether the queue is running after `start`
has said so, and never goes to wait with a package too late to be notified, a started queue
has its waiter, which does not stay blocked with a package while a worker is idle. -/
theorem no_package_is_stranded {s : queue}
    (h : transition.Reachable (queues.guarded waits_in_time) s) : ¬ s.stranded := by
  have hall : s.Begun ∧ s.Launched ∧ s.Heard := by
    refine h.keeps (P := fun s => s.Begun ∧ s.Launched ∧ s.Heard) ?_ ?_
    · rintro s ⟨size, rfl⟩
      exact ⟨begun_new size, launched_new size, fun hc => by cases hc⟩
    · rintro s a t ⟨hb, hl, hs⟩ ⟨hg, ha⟩
      exact ⟨hb.act ha, hl.act ha hg, hs.act hb hl ha hg⟩
  exact hall.2.2.not_stranded hall.2.1

/-- The waiter waits with nothing to do, and is notified of the first package. -/
def wait_first : List action :=
  List.flatten [start_one, List.replicate 4 .cycle, [.add_package, .notify]]

theorem a_package_wakes_the_waiter :
    ∃ s, transition.Reachable (queues.guarded waits_in_time) s ∧
      (s.control = .started ∧ s.waiter = .woken ∧ s.m_pump.m_queue = [0]) ∧ ¬ s.stranded := by
  have hrun : (wait_first.foldlM (fun s a => if waits_in_time s a then s.act a else none)
      (new 1)).any (fun s => decide (s.control = .started ∧ s.waiter = .woken ∧
        s.m_pump.m_queue = [0])) = true := by
    decide +kernel
  obtain ⟨s, hs, hwoken⟩ := reachable_guarded 1 wait_first hrun
  exact ⟨s, hs, hwoken, no_package_is_stranded hs⟩

/-- The waiter's thread is faster than `start`, and ends. -/
def early_waiter : List action :=
  List.flatten [
    [.start, .steer, .steer, .steer, .steer],
    List.replicate 4 (.process 0),
    [.steer, .steer, .steer, .cycle, .cycle, .steer, .process 0, .process 0],
    [.add_package, .notify]]

/-- A package comes between the test of the load and the wait. -/
def late_wait : List action :=
  List.flatten [start_one, List.replicate 3 .cycle, [.add_package, .notify, .cycle]]

/-- The waiter has taken a package, and the worker is done just before the waiter waits. -/
def wait_in_hand : List action :=
  List.flatten [
    start_one,
    [.add_package, .notify],
    List.replicate 13 .cycle,
    [.process 0, .process 0, .process 0, .add_package, .notify],
    List.replicate 9 .cycle,
    List.replicate 3 (.process 0),
    [.cycle, .process 0, .process 0]]

/-- The waiter can end before it begins, sleep through a package that was added, and sleep
with one in its hand. -/
theorem a_package_is_stranded :
    (∃ s, transition.Reachable queues s ∧ s.stranded ∧ s.waiter = .exited ∧
      s.m_pump.m_queue = [0] ∧ idle (s.worker 0)) ∧
    (∃ s, transition.Reachable queues s ∧ s.stranded ∧ s.waiter = .blocked ∧
      s.m_pump.m_queue = [0]) ∧
    ∃ s, transition.Reachable queues s ∧ s.stranded ∧ s.m_pump.m_queue = [] ∧ s.hand = some 1 := by
  refine ⟨?_, ?_, ?_⟩
  · apply reachable 1 early_waiter
    decide +kernel
  · apply reachable 1 late_wait
    decide +kernel
  · apply reachable 1 wait_in_hand
    decide +kernel

end queue

end strangeio.thread
