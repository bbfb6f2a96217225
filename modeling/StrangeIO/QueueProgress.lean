-- The threads of the queue do not all wait for each other (threads/queue.cpp, pool.cpp,
-- worker.cpp): who holds a mutex is inside of it, and a worker that waits with a package
-- is about to be notified.
import StrangeIO.PackageFate

namespace strangeio.thread

/-- `start` has yet to start the worker's thread. -/
def control_pc.unspawned (i : Nat) : control_pc → Bool
  | .stopped | .deactivating | .initing => true
  | .starting j | .spawning j => j ≤ i
  | .awaiting j => j < i
  | _ => false

namespace queue

/-! ## Mutexes and notifications -/

/-- Who holds a mutex is inside of it, and a worker that waits with a package is about to
be notified. -/
structure Exact (s : queue) : Prop where
  unspawned : ∀ i, control_pc.unspawned i s.control = true → (s.worker i).pc = .unstarted
  worker : ∀ i, (s.worker i).m_mutex = some .worker → (s.worker i).pc.inside = true
  waiter : ∀ i, (s.worker i).m_mutex = some .waiter → s.waiter.holds i = true
  told : ∀ i, (s.worker i).pc = .blocked → (s.worker i).m_loaded = true →
    s.waiter = .unlocking i ∨ s.waiter = .notifying i

theorem exact_new (size : Nat) : (new size).Exact where
  unspawned _ _ := rfl
  worker i hi := by cases hi
  waiter i hi := by cases hi
  told i hi := by cases hi

theorem process_exact {w w' : thread.worker} (h : w.process = some w')
    (hcleared : w.pc.cleared = true → w.m_loaded = false)
    (hloaded : w.pc = .at_run → w.m_current ≠ none) :
    (w'.m_mutex = some .worker → w'.pc.inside = true) ∧
      (w'.m_mutex = some .waiter → w.m_mutex = some .waiter) ∧
      (w'.pc = .blocked → w'.m_loaded = false) ∧ w.pc ≠ .unstarted := by
  cases hpc : w.pc <;> rw [hpc] at hcleared hloaded <;> simp only [worker.process, hpc] at h <;>
    grind [worker_pc.inside, worker_pc.cleared]

/-- Where the waiter is, as far as the mutexes and the notifications go. -/
structure Waits (pc pc' : waiter_pc) : Prop where
  holds : ∀ i, pc.holds i = true → pc'.holds i = true
  told : ∀ i, pc = .unlocking i ∨ pc = .notifying i → pc' = .unlocking i ∨ pc' = .notifying i

theorem Waits.refl (pc : waiter_pc) : Waits pc pc := ⟨fun _ h => h, fun _ h => h⟩

/-- A waiter that holds no mutex and is about to notify no one. -/
theorem Waits.away {pc : waiter_pc} (pc' : waiter_pc) (hholds : ∀ i, pc.holds i = false)
    (hnotify : ∀ i, pc ≠ .notifying i) : Waits pc pc' := by
  refine ⟨fun i hi => ?_, fun i hi => ?_⟩
  · rw [hholds i] at hi
    cases hi
  · have hi := hi.resolve_right (hnotify i)
    have hnone := hholds i
    rw [hi] at hnone
    simp [waiter_pc.holds] at hnone

theorem Exact.same {s t : queue} (hs : s.Exact) (hpool : t.m_pool.m_pool = s.m_pool.m_pool)
    (hspawn : ∀ i, control_pc.unspawned i t.control = true →
      control_pc.unspawned i s.control = true)
    (hwaits : Waits s.waiter t.waiter) : t.Exact := by
  have hworker : ∀ i, t.worker i = s.worker i := by
    intro i
    unfold queue.worker
    rw [hpool]
  constructor
  · intro i hi
    rw [hworker]
    exact hs.unspawned i (hspawn i hi)
  · intro i
    rw [hworker]
    exact hs.worker i
  · intro i hi
    rw [hworker] at hi
    exact hwaits.holds i (hs.waiter i hi)
  · intro i
    rw [hworker]
    exact fun h1 h2 => hwaits.told i (hs.told i h1 h2)

theorem Exact.away {s t : queue} (hs : s.Exact) (hpool : t.m_pool.m_pool = s.m_pool.m_pool)
    (hcontrol : t.control = s.control) (hholds : ∀ i, s.waiter.holds i = false)
    (hnotify : ∀ i, s.waiter ≠ .notifying i) : t.Exact :=
  hs.same hpool (fun _ hj => hcontrol ▸ hj) (Waits.away _ hholds hnotify)

/-- The same where one worker changes. -/
theorem Exact.update {s t : queue} (hs : s.Exact) (i : Nat) {w : thread.worker}
    (hpool : t.m_pool.m_pool = Function.update s.m_pool.m_pool i w)
    (hspawn : ∀ j, control_pc.unspawned j t.control = true →
      control_pc.unspawned j s.control = true ∧ (j = i → w.pc = .unstarted))
    (hinside : w.m_mutex = some .worker → w.pc.inside = true)
    (hholds : w.m_mutex = some .waiter → t.waiter.holds i = true)
    (htold : w.pc = .blocked → w.m_loaded = true → t.waiter = .unlocking i ∨
      t.waiter = .notifying i)
    (hwaits : ∀ j, j ≠ i → (s.waiter.holds j = true → t.waiter.holds j = true) ∧
      (s.waiter = .unlocking j ∨ s.waiter = .notifying j →
        t.waiter = .unlocking j ∨ t.waiter = .notifying j)) : t.Exact := by
  constructor
  · intro j hj
    rw [worker_update i hpool]
    split
    · rename_i hji
      exact (hspawn j hj).2 hji
    · exact hs.unspawned j (hspawn j hj).1
  · intro j
    rw [worker_update i hpool]
    split
    · exact hinside
    · exact hs.worker j
  · intro j
    rw [worker_update i hpool]
    split
    · rename_i hji
      rw [hji]
      exact hholds
    · rename_i hji
      exact fun hj => (hwaits j hji).1 (hs.waiter j hj)
  · intro j
    rw [worker_update i hpool]
    split
    · rename_i hji
      rw [hji]
      exact htold
    · rename_i hji
      exact fun h1 h2 => (hwaits j hji).2 (hs.told j h1 h2)

theorem Exact.steer {s t : queue} (hs : s.Exact) (hu : s.Up) (h : s.steer = some t) : t.Exact := by
  have hcontrol := hu.control
  cases hc : s.control with
  | stopped | started =>
    simp only [queue.steer, hc] at h
    cases h
  | deactivating | initing =>
    simp only [queue.steer, hc] at h
    cases h
    exact hs.same rfl (fun i _ => by rw [hc]; rfl) (Waits.refl _)
  | starting i =>
    simp only [queue.steer, hc] at h
    split at h
    · split at h
      · cases h
        refine hs.same rfl (fun j hj => ?_) (Waits.refl _)
        rw [hc]
        simpa [control_pc.unspawned] using Nat.le_of_lt (of_decide_eq_true hj)
      · cases h
        have hnew := hs.unspawned i (by rw [hc]; simp [control_pc.unspawned])
        refine hs.update i rfl (fun j hj => ?_) (hs.worker i) (hs.waiter i) (hs.told i)
          (fun j _ => ⟨id, id⟩)
        rw [hc]
        exact ⟨hj, fun _ => hnew⟩
    · cases h
      exact hs.same rfl (fun j hj => by cases hj) (Waits.refl _)
  | spawning i =>
    simp only [queue.steer, hc] at h
    cases h
    have hnew := hs.unspawned i (by rw [hc]; simp [control_pc.unspawned])
    refine hs.update i rfl (fun j hj => ?_) (fun hmutex => ?_) (hs.waiter i)
      (fun hpc => by cases hpc)
      (fun j _ => ⟨id, id⟩)
    · have hlt : i < j := of_decide_eq_true hj
      rw [hc]
      refine ⟨decide_eq_true (Nat.le_of_lt hlt), ?_⟩
      rintro rfl
      exact absurd hlt (Nat.lt_irrefl _)
    · have hin := hs.worker i hmutex
      rw [hnew] at hin
      cases hin
  | awaiting i =>
    simp only [queue.steer, hc] at h
    split at h
    · cases h
      refine hs.same rfl (fun j hj => ?_) (Waits.refl _)
      rw [hc]
      exact hj
    · cases h
  | at_waiter =>
    simp only [queue.steer, hc] at h
    cases h
    refine hs.same rfl (fun j hj => by cases hj) ?_
    have hnone : s.waiter = .unstarted := by
      rcases hu.waiter with ⟨hw, -⟩ | ⟨hw, -⟩ | ⟨hw, -⟩
      · exact hw
      · rw [hc] at hw
        cases hw
      · rw [hc] at hw
        cases hw
    rw [hnone]
    exact Waits.away _ (fun _ => rfl) (fun _ => by simp)
  | at_running =>
    simp only [queue.steer, hc] at h
    cases h
    exact hs.same rfl (fun j hj => by cases hj) (Waits.refl _)
  | _ =>
    rw [hc] at hcontrol
    cases hcontrol

theorem wake_not_blocked (w : thread.worker) : w.wake.pc ≠ .blocked := by
  unfold worker.wake
  split
  · simp
  · assumption

theorem wake_same (w : thread.worker) :
    w.wake.m_mutex = w.m_mutex ∧ (w.pc.inside = true → w.wake.pc.inside = true) := by
  unfold worker.wake
  split
  · rename_i hpc
    rw [hpc]
    exact ⟨rfl, fun h => by cases h⟩
  · exact ⟨rfl, id⟩

theorem Exact.cycle {s t : queue} (hs : s.Exact) (h : s.cycle = some t) : t.Exact := by
  -- a worker that waits with a package is only found while the waiter is about to notify it
  have hquiet {i : Nat} (h1 : s.waiter ≠ .unlocking i) (h2 : s.waiter ≠ .notifying i)
      (hpc : (s.worker i).pc = .blocked) (hload : (s.worker i).m_loaded = true) : False := by
    rcases hs.told i hpc hload with hw | hw
    · exact h1 hw
    · exact h2 hw
  have hspawn (i : Nat) {w : thread.worker}
    (hpc : (s.worker i).pc = .unstarted → w.pc = .unstarted) (j : Nat)
      (hj : control_pc.unspawned j s.control = true) :
      control_pc.unspawned j s.control = true ∧ (j = i → w.pc = .unstarted) := by
    refine ⟨hj, ?_⟩
    rintro rfl
    exact hpc (hs.unspawned j hj)
  cases hw : s.waiter with
  | unstarted | blocked | exited =>
    simp only [queue.cycle, hw] at h
    cases h
  | trying i =>
    simp only [queue.cycle, hw] at h
    split at h
    · split at h
      · rename_i hfree
        cases h
        refine hs.update i rfl (hspawn i id) (fun hm => by cases hm) (fun _ => ?_) ?_ ?_
        · simp [waiter_pc.holds]
        · intro hpc hload
          exact (hquiet (by simp [hw]) (by simp [hw]) hpc hload).elim
        · intro j hj
          simp [hw, waiter_pc.holds]
      · cases h
        exact hs.away rfl rfl (by simp [hw, waiter_pc.holds]) (by simp [hw])
    · cases h
      exact hs.away rfl rfl (by simp [hw, waiter_pc.holds]) (by simp [hw])
  | testing i =>
    simp only [queue.cycle, hw] at h
    split at h
    · cases h
      refine hs.update i rfl (hspawn i id) (fun hm => by cases hm) (fun hm => by cases hm) ?_ ?_
      · intro hpc hload
        exact (hquiet (by simp [hw]) (by simp [hw]) hpc hload).elim
      · intro j hj
        simp [hw, waiter_pc.holds, hj]
    · cases h
      refine hs.same rfl (fun j hj => hj) ?_
      rw [hw]
      exact ⟨fun j hj => hj, by simp⟩
  | giving i =>
    simp only [queue.cycle, hw] at h
    cases h
    refine hs.update i rfl (hspawn i id) (hs.worker i) (fun _ => ?_) ?_ ?_
    · simp [waiter_pc.holds]
    · intro hpc hload
      exact (hquiet (by simp [hw]) (by simp [hw]) hpc hload).elim
    · intro j hj
      simp [hw, waiter_pc.holds]
  | loading i =>
    simp only [queue.cycle, hw] at h
    cases h
    refine hs.update i rfl (hspawn i id) (hs.worker i) (fun _ => ?_) (fun _ _ => .inl rfl) ?_
    · simp [waiter_pc.holds]
    · intro j hj
      simp [hw, waiter_pc.holds]
  | unlocking i =>
    simp only [queue.cycle, hw] at h
    cases h
    refine hs.update i rfl (hspawn i id) (fun hm => by cases hm) (fun hm => by cases hm)
      (fun _ _ => .inr rfl) ?_
    intro j hj
    simp [hw, waiter_pc.holds, hj, Ne.symm hj]
  | notifying i =>
    simp only [queue.cycle, hw] at h
    cases h
    obtain ⟨hmutex, hinside⟩ := wake_same (s.worker i)
    refine hs.update i rfl (hspawn i ?_) ?_ ?_ ?_ ?_
    · intro hpc
      unfold thread.worker.wake
      rw [hpc]
      exact hpc
    · intro hm
      exact hinside (hs.worker i (hmutex ▸ hm))
    · intro hm
      have hheld := hs.waiter i (hmutex ▸ hm)
      rw [hw] at hheld
      cases hheld
    · exact fun hpc => absurd hpc (wake_not_blocked _)
    · intro j hj
      simp [hw, waiter_pc.holds, Ne.symm hj]
  | at_take =>
    simp only [queue.cycle, hw] at h
    split at h
    · cases h
      exact hs.away rfl rfl (by simp [hw, waiter_pc.holds]) (by simp [hw])
    · cases h
      exact hs.away rfl rfl (by simp [hw, waiter_pc.holds]) (by simp [hw])
  | _ =>
    simp only [queue.cycle, hw] at h
    cases h
    exact hs.away rfl rfl (by simp [hw, waiter_pc.holds]) (by simp [hw])

theorem Exact.act {s t : queue} {a : action} (hs : s.Exact) (hgoing : s.Going)
    (h : s.act a = some t) (hg : s.undisturbed a) : t.Exact := by
  by_cases hcycle : a = .cycle
  · subst hcycle
    exact hs.cycle h
  by_cases hsteer : a = .steer
  · subst hsteer
    exact hs.steer hgoing.up h
  have hwaits : Waits s.waiter t.waiter := by
    by_cases hadd : a = .add_package
    · subst hadd
      cases h
      exact Waits.refl _
    · rcases (Aside.act h hcycle hadd).waiter with hw | ⟨hw, -⟩ | ⟨ha, -⟩
      · rw [hw]
        exact Waits.refl _
      · rw [hw]
        exact Waits.away _ (fun _ => rfl) (fun _ => by simp)
      · exact absurd ha hsteer
  have hspawn : ∀ i, control_pc.unspawned i t.control = true →
    control_pc.unspawned i s.control = true := by
    intro i hi
    by_cases hstart : a = .start
    · subst hstart
      simp only [queue.act] at h
      split at h
      · rename_i hc
        rw [hc]
        rfl
      · cases h
    · rwa [← (act_control h hstart hg.1 hsteer).1]
  by_cases hprocess : ∃ i, a = .process i
  · obtain ⟨i, rfl⟩ := hprocess
    obtain ⟨w, hw, hpool⟩ := process_pool h
    have hloaded : (s.worker i).pc = .at_run → (s.worker i).m_current ≠ none := by
      intro hpc
      obtain ⟨task, hcurrent, -⟩ := hgoing.fresh.at_run rfl hpc hg.2
      rw [hcurrent]
      exact Option.some_ne_none task
    obtain ⟨h1, h2, h3, h4⟩ := process_exact hw (hgoing.mutexes.cleared i) hloaded
    refine hs.update i hpool (fun j hj => ⟨hspawn j hj, ?_⟩) h1 (fun hm => ?_) (fun hpc hload => ?_)
      fun j _ => ⟨hwaits.holds j, hwaits.told j⟩
    · rintro rfl
      exact absurd (hs.unspawned j (hspawn j hj)) h4
    · exact hwaits.holds i (hs.waiter i (h2 hm))
    · rw [h3 hpc] at hload
      cases hload
  · push Not at hprocess
    have hstill := still_act h hcycle hprocess
    have hquiet := act_quiet h hsteer hprocess
    constructor
    · intro i hi
      have hnew := hs.unspawned i (hspawn i hi)
      rcases (hquiet i).2 with hpc | ⟨hpc, -⟩
      · rw [hpc, hnew]
      · rw [hnew] at hpc
        cases hpc
    · intro i hi
      rw [(hstill i).m_mutex] at hi
      have hin := hs.worker i hi
      rcases (hquiet i).2 with hpc | ⟨hpc, -⟩
      · rwa [hpc]
      · rw [hpc] at hin
        cases hin
    · intro i hi
      rw [(hstill i).m_mutex] at hi
      exact hwaits.holds i (hs.waiter i hi)
    · intro i hpc hload
      rw [(hstill i).m_loaded] at hload
      rcases (hquiet i).2 with hsame | ⟨-, hwoken⟩
      · exact hwaits.told i (hs.told i (hsame ▸ hpc) hload)
      · rw [hwoken] at hpc
        cases hpc

/-! ## Threads that can go on -/

/-- What neither stops nor disturbs the queue, and lets its waiter wait only in time. -/
def undisturbed_in_time (s : queue) (a : action) : Prop := s.undisturbed a ∧ s.waits_in_time a

instance (s : queue) (a : action) : Decidable (s.undisturbed_in_time a) :=
  inferInstanceAs (Decidable (_ ∧ _))

/-- A step of the waiter or of a worker, or a notification that a call has yet to make. -/
def action.own : action → Bool
  | .cycle | .notify | .process _ => true
  | _ => false

/-- A worker in its loop can go on, but for one that waits or comes back to a mutex that is held. -/
theorem process_goes_on {w : thread.worker} (hup : w.pc.up = true) (hpc : w.pc ≠ .blocked)
    (hmutex : w.pc = .woken → w.m_mutex = none) : w.process ≠ none := by
  unfold worker.process
  cases hw : w.pc with
  | unstarted | created | clearing | activating | starting | exited | undefined =>
    rw [hw] at hup
    cases hup
  | blocked => exact absurd hw hpc
  | woken => simp [hmutex hw]
  | at_loop | at_check | at_run =>
    simp only
    split <;> simp
  | at_wait | busy | finishing | at_ready => simp

theorem cycle_goes_on {s : queue} (h : s.waiter ≠ .unstarted) (h' : s.waiter ≠ .exited)
    (hblocked : s.waiter ≠ .blocked) : s.cycle ≠ none := by
  unfold queue.cycle
  cases hw : s.waiter with
  | unstarted => exact absurd hw h
  | exited => exact absurd hw h'
  | blocked => exact absurd hw hblocked
  | at_take | testing i =>
    simp only
    split <;> simp
  | trying i =>
    simp only
    split
    · split <;> simp
    · simp
  | _ => simp

/-- A queue whose own threads are all blocked has idle workers and no package. -/
theorem Going.at_rest {s : queue} (hs : s.Going) (hexact : s.Exact) (hl : s.Launched)
    (hheard : s.Heard) (hc : s.control = .started) (hsize : 0 < s.m_size)
    (hrest : ∀ a : action, a.own = true → s.act a = none) :
    s.waiter = .blocked ∧ (∀ i < s.m_size, idle (s.worker i)) ∧ ¬ s.work := by
  have hwaiter : s.waiter = .blocked := by
    by_contra hblocked
    refine cycle_goes_on ?_ (hl.during hc).2 hblocked (hrest .cycle rfl)
    intro hw
    rcases hs.up.waiter with ⟨-, hold⟩ | ⟨hold, -⟩ | ⟨-, hold⟩
    · rw [hc] at hold
      cases hold
    · rw [hc] at hold
      cases hold
    · exact hold hw
  have hidle (i : Nat) (hi : i < s.m_size) : idle (s.worker i) := by
    have hrunning : (s.worker i).m_running = true := by
      refine hs.up.first i ?_
      unfold workers_up
      rwa [hc]
    have hnone : (s.worker i).process = none := Option.map_eq_none_iff.mp (hrest (.process i) rfl)
    have hmutex : (s.worker i).pc = .woken → (s.worker i).m_mutex = none := by
      intro hpc
      cases hm : (s.worker i).m_mutex with
      | none => rfl
      | some x =>
        cases x with
        | worker =>
          have hin := hexact.worker i hm
          rw [hpc] at hin
          cases hin
        | waiter =>
          have hheld := hexact.waiter i hm
          rw [hwaiter] at hheld
          cases hheld
    have hpc : (s.worker i).pc = .blocked := by
      by_contra hpc
      exact process_goes_on (hs.up.running i hrunning) hpc hmutex hnone
    refine ⟨hpc, ?_⟩
    by_contra hload
    rcases hexact.told i hpc (by simpa using hload) with hw | hw
    · rw [hwaiter] at hw
      cases hw
    · rw [hwaiter] at hw
      cases hw
  have hlength : s.m_pool.length = s.m_size := by
    have hlength := hs.up.length
    rw [hc] at hlength
    exact hlength
  refine ⟨hwaiter, hidle, fun hwork => ?_⟩
  rcases hheard hc hwaiter hwork with (hdue | ⟨i, hi, hready⟩) | hnone
  · have hnotify := hrest .notify rfl
    simp only [queue.act, if_pos hdue] at hnotify
    cases hnotify
  · rw [(hidle i (hlength ▸ hi)).1] at hready
    cases hready
  · exact hnone 0 (hlength ▸ hsize) (.inr (.inr (hidle 0 hsize)))

theorem reachable_in_time {s : queue}
    (h : transition.Reachable (queues.guarded undisturbed_in_time) s) :
    s.Going ∧ s.Exact ∧ s.Launched ∧ s.Heard := by
  refine h.keeps (P := fun s => s.Going ∧ s.Exact ∧ s.Launched ∧ s.Heard) ?_ ?_
  · rintro s ⟨size, rfl⟩
    exact ⟨going_new size, exact_new size, launched_new size, fun hc => by cases hc⟩
  · rintro s a t ⟨hs, he, hl, hheard⟩ ⟨⟨hg, htime⟩, ha⟩
    exact ⟨hs.act ha hg, he.act hs ha hg, hl.act ha htime, hheard.act hs.begun hl ha htime⟩

/-- In the runs in which the queue is not disturbed and its waiter waits in time, one of the
queue's own threads, or a call that has yet to notify, can go on as long as a package has not
been run. -/
theorem a_started_queue_goes_on {s : queue}
    (h : transition.Reachable (queues.guarded undisturbed_in_time) s) (hc : s.control = .started)
    (hsize : 0 < s.m_size) (hleft : ∃ task < s.added, some task ∉ s.runs) :
    ∃ a : action, a.own = true ∧ s.act a ≠ none := by
  obtain ⟨hs, hexact, hl, hheard⟩ := reachable_in_time h
  by_contra hnone
  have hrest : ∀ a : action, a.own = true → s.act a = none := by
    intro a ha
    by_contra hgoes
    exact hnone ⟨a, ha, hgoes⟩
  obtain ⟨hwaiter, hidle, hwork⟩ := hs.at_rest hexact hl hheard hc hsize hrest
  obtain ⟨task, htask, hran⟩ := hleft
  unfold work at hwork
  push Not at hwork
  have hhanded : task ∈ s.handed.map Prod.fst := by
    have hmem := List.mem_range.mpr htask
    rw [← hs.ordered, places, hwork.1, hwork.2] at hmem
    simpa using hmem
  obtain ⟨e, he, rfl⟩ := List.mem_map.mp hhanded
  obtain ⟨hlt, hran' | ⟨hready | hload, -⟩⟩ := hs.kept.handed e he
  · exact hran hran'
  · have hloaded := hready.1
    rw [(hidle e.2 hlt).2] at hloaded
    cases hloaded
  · rw [hwaiter] at hload
    cases hload

theorem a_woken_waiter_goes_on :
    ∃ s, transition.Reachable (queues.guarded undisturbed_in_time) s ∧
      (s.control = .started ∧ s.m_size = 1 ∧ s.added = 1 ∧ s.runs = []) ∧
      ∃ a : action, a.own = true ∧ s.act a ≠ none := by
  have hrun : (wait_first.foldlM (fun s a => if undisturbed_in_time s a then s.act a else none)
      (new 1)).any (fun s => decide (s.control = .started ∧ s.m_size = 1 ∧ s.added = 1 ∧
        s.runs = [])) = true := by
    decide +kernel
  obtain ⟨s, hs, hq⟩ := reachable_guarded 1 wait_first hrun
  refine ⟨s, hs, hq, a_started_queue_goes_on hs hq.1 (by simp [hq.2.1]) ⟨0, by simp [hq.2.2.1], ?_⟩⟩
  simp [hq.2.2.2]

end queue

end strangeio.thread
