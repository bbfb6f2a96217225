-- How often a package is run (threads/worker.cpp): the worker does not test
-- whether it has a package when its wait returns, and keeps the one that it has
-- run, so a wait that returns by itself runs it again.
import StrangeIO.PackageOrder

namespace strangeio.thread

/-! ## The mutexes of the workers -/

/-- The thread of the worker holds its mutex. -/
def worker_pc.inside : worker_pc → Bool
  | .clearing | .activating | .starting | .at_loop | .at_wait => true
  | .at_check | .at_run | .busy | .finishing | .at_ready => true
  | _ => false

/-- The thread of the worker holds its mutex and has nothing loaded. -/
def worker_pc.cleared : worker_pc → Bool
  | .activating | .starting | .at_loop | .at_wait | .at_ready => true
  | _ => false

/-- A package that is loaded is the next that the worker runs. -/
def worker_pc.receives : worker_pc → Bool
  | .blocked | .woken | .at_check | .at_run => true
  | _ => false

/-- The waiter looks for a worker for the package in its hand. -/
def waiter_pc.carries : waiter_pc → Bool
  | .trying _ | .testing _ | .giving _ => true
  | _ => false

/-- The waiter holds the mutex of the worker. -/
def waiter_pc.holds (i : Nat) : waiter_pc → Bool
  | .testing j | .giving j | .loading j | .unlocking j => i = j
  | _ => false

namespace queue

/-- Who holds the mutex of a worker, and when the worker has nothing loaded. -/
structure Mutexes (s : queue) : Prop where
  inside : ∀ i, (s.worker i).pc.inside = true → (s.worker i).m_mutex = some .worker
  holds : ∀ i, s.waiter.holds i = true → (s.worker i).m_mutex = some .waiter
  cleared : ∀ i, (s.worker i).pc.cleared = true → (s.worker i).m_loaded = false
  empty : ∀ i, s.waiter = .giving i ∨ s.waiter = .loading i → (s.worker i).m_loaded = false

/-- What the threads that call `start`, `stop` and `add_package` leave alone in a worker. -/
structure Still (w w' : thread.worker) : Prop where
  m_loaded : w'.m_loaded = w.m_loaded
  m_current : w'.m_current = w.m_current
  m_mutex : w'.m_mutex = w.m_mutex
  pc : w'.pc = w.pc ∨ w'.pc = .created ∨ w.pc = .blocked ∧ w'.pc = .woken

theorem Still.refl (w : thread.worker) : Still w w := ⟨rfl, rfl, rfl, .inl rfl⟩

theorem Still.running (w : thread.worker) (b : Bool) : Still w { w with m_running := b } :=
  ⟨rfl, rfl, rfl, .inl rfl⟩

theorem Still.active (w : thread.worker) (b : Bool) : Still w { w with m_active := b } :=
  ⟨rfl, rfl, rfl, .inl rfl⟩

theorem Still.spawned (w : thread.worker) : Still w { w with pc := .created } :=
  ⟨rfl, rfl, rfl, .inr (.inl rfl)⟩

theorem Still.wake (w : thread.worker) : Still w w.wake := by
  unfold worker.wake
  split
  · rename_i h
    exact ⟨rfl, rfl, rfl, .inr (.inr ⟨h, rfl⟩)⟩
  · exact Still.refl w

theorem Still.inside {w w' : thread.worker} (h : Still w w') (hin : w'.pc.inside = true) :
    w.pc.inside = true := by
  rcases h.pc with hpc | hpc | ⟨-, hpc⟩
  · rwa [hpc] at hin
  · rw [hpc] at hin
    cases hin
  · rw [hpc] at hin
    cases hin

theorem Still.cleared {w w' : thread.worker} (h : Still w w') (hclear : w'.pc.cleared = true) :
    w.pc.cleared = true := by
  rcases h.pc with hpc | hpc | ⟨-, hpc⟩
  · rwa [hpc] at hclear
  · rw [hpc] at hclear
    cases hclear
  · rw [hpc] at hclear
    cases hclear

theorem still_update {s t : queue} (i : Nat) {w : thread.worker} (h : Still (s.worker i) w)
    (ht : t.m_pool.m_pool = Function.update s.m_pool.m_pool i w) (j : Nat) :
    Still (s.worker j) (t.worker j) := by
  unfold queue.worker at h ⊢
  rw [ht, Function.update_apply]
  split
  · rename_i hj
    rwa [hj]
  · exact Still.refl _

theorem worker_notify (s : queue) (j : Nat) : s.notify.worker j = s.worker j := by
  unfold queue.notify
  split <;> rfl

theorem still_steer {s t : queue} (h : s.steer = some t) (j : Nat) :
    Still (s.worker j) (t.worker j) := by
  cases hc : s.control with
  | stopped =>
    simp only [steer, hc] at h
    cases h
  | started =>
    simp only [steer, hc] at h
    cases h
  | starting i =>
    simp only [steer, hc] at h
    split at h
    · split at h
      · cases h
        exact Still.refl _
      · cases h
        exact still_update i (Still.running _ false) rfl j
    · cases h
      exact Still.refl _
  | spawning i =>
    simp only [steer, hc] at h
    cases h
    exact still_update i (Still.spawned _) rfl j
  | halting i =>
    simp only [steer, hc] at h
    cases h
    exact still_update i (Still.running _ false) rfl j
  | calling i =>
    simp only [steer, hc] at h
    cases h
    exact still_update i (Still.wake _) rfl j
  | awaiting i =>
    simp only [steer, hc] at h
    split at h
    · cases h
      exact Still.refl _
    · cases h
  | stopping i =>
    simp only [steer, hc] at h
    split at h
    · split at h
      · cases h
        exact Still.refl _
      · cases h
        exact Still.refl _
    · cases h
      exact Still.refl _
  | joining i =>
    simp only [steer, hc] at h
    split at h
    · cases h
      exact still_update i (Still.active _ false) rfl j
    · cases h
  | at_notify =>
    simp only [steer, hc] at h
    cases h
    change Still (s.worker j) (s.notify.worker j)
    rw [worker_notify]
    exact Still.refl _
  | at_join =>
    simp only [steer, hc] at h
    split at h
    · cases h
      exact Still.refl _
    · cases h
  | _ =>
    simp only [steer, hc] at h
    cases h
    exact Still.refl _

theorem still_act {s t : queue} {a : action} (h : s.act a = some t) (hcycle : a ≠ .cycle)
    (hprocess : ∀ i, a ≠ .process i) (j : Nat) : Still (s.worker j) (t.worker j) := by
  cases a with
  | cycle => exact absurd rfl hcycle
  | process i => exact absurd rfl (hprocess i)
  | steer => exact still_steer h j
  | add_package =>
    cases h
    exact Still.refl _
  | wake_worker i =>
    simp only [act] at h
    split at h
    · cases h
      exact still_update i (Still.wake _) rfl j
    · cases h
  | notify =>
    simp only [act] at h
    split at h
    · cases h
      change Still (s.worker j) (s.notify.worker j)
      rw [worker_notify]
      exact Still.refl _
    · cases h
  | _ =>
    simp only [act] at h
    split at h
    · cases h
      exact Still.refl _
    · cases h

/-- A step of a worker's thread, as far as its own mutex goes. -/
theorem process_mutex {w w' : thread.worker} (h : w.process = some w')
    (hinside : w.pc.inside = true → w.m_mutex = some .worker)
    (hcleared : w.pc.cleared = true → w.m_loaded = false) :
    (w'.pc.inside = true → w'.m_mutex = some .worker) ∧
      (w'.pc.cleared = true → w'.m_loaded = false) ∧
      (w.m_mutex = some .waiter → w'.m_mutex = some .waiter ∧ w'.m_loaded = w.m_loaded ∧
        w'.m_current = w.m_current) := by
  cases hpc : w.pc <;> simp only [worker.process, hpc] at h <;>
    grind [worker_pc.inside, worker_pc.cleared]

/-- A step that changes one worker keeps the mutexes, when that worker keeps its own and the
waiter holds no other than before. -/
theorem Mutexes.update {s t : queue} (hs : s.Mutexes) (i : Nat) {w : thread.worker}
    (hpool : t.m_pool.m_pool = Function.update s.m_pool.m_pool i w)
    (hinside : w.pc.inside = true → w.m_mutex = some .worker)
    (hcleared : w.pc.cleared = true → w.m_loaded = false)
    (hholds : ∀ j, t.waiter.holds j = true →
      j = i ∧ w.m_mutex = some .waiter ∨ j ≠ i ∧ s.waiter.holds j = true)
    (hempty : ∀ j, t.waiter = .giving j ∨ t.waiter = .loading j →
      j = i ∧ w.m_loaded = false ∨ j ≠ i ∧ (s.waiter = .giving j ∨ s.waiter = .loading j)) :
    t.Mutexes := by
  have hworker : ∀ j, t.worker j = if j = i then w else s.worker j := by
    intro j
    unfold queue.worker
    rw [hpool, Function.update_apply]
  constructor
  · intro j
    rw [hworker]
    split
    · exact hinside
    · exact hs.inside j
  · intro j hj
    rw [hworker]
    rcases hholds j hj with ⟨rfl, hmutex⟩ | ⟨hne, hold⟩
    · rwa [if_pos rfl]
    · rw [if_neg hne]
      exact hs.holds j hold
  · intro j
    rw [hworker]
    split
    · exact hcleared
    · exact hs.cleared j
  · intro j hj
    rw [hworker]
    rcases hempty j hj with ⟨rfl, hload⟩ | ⟨hne, hold⟩
    · rwa [if_pos rfl]
    · rw [if_neg hne]
      exact hs.empty j hold

/-- The same where no worker changes. -/
theorem Mutexes.same {s t : queue} (hs : s.Mutexes) (hpool : t.m_pool.m_pool = s.m_pool.m_pool)
    (hholds : ∀ j, t.waiter.holds j = true → s.waiter.holds j = true)
    (hempty : ∀ j, t.waiter = .giving j ∨ t.waiter = .loading j →
      (s.worker j).m_loaded = false) : t.Mutexes := by
  have hworker : ∀ j, t.worker j = s.worker j := by
    intro j
    unfold queue.worker
    rw [hpool]
  constructor
  · intro j hj
    rw [hworker] at hj ⊢
    exact hs.inside j hj
  · intro j hj
    rw [hworker]
    exact hs.holds j (hholds j hj)
  · intro j hj
    rw [hworker] at hj ⊢
    exact hs.cleared j hj
  · intro j hj
    rw [hworker]
    exact hempty j hj

/-- The same where the waiter holds none. -/
theorem Mutexes.away {s t : queue} (hs : s.Mutexes) (hpool : t.m_pool.m_pool = s.m_pool.m_pool)
    (haway : ∀ j, t.waiter.holds j = false) : t.Mutexes := by
  refine hs.same hpool (fun j hj => ?_) (fun j hj => ?_)
  · rw [haway j] at hj
    cases hj
  · have hnone := haway j
    rcases hj with hj | hj
    · simp [hj, waiter_pc.holds] at hnone
    · simp [hj, waiter_pc.holds] at hnone

/-- One worker changes, and the waiter holds none. -/
theorem Mutexes.update_away {s t : queue} (hs : s.Mutexes) (i : Nat) {w : thread.worker}
    (hpool : t.m_pool.m_pool = Function.update s.m_pool.m_pool i w)
    (hinside : w.pc.inside = true → w.m_mutex = some .worker)
    (hcleared : w.pc.cleared = true → w.m_loaded = false)
    (haway : ∀ j, t.waiter.holds j = false) : t.Mutexes := by
  refine hs.update i hpool hinside hcleared (fun j hj => ?_) (fun j hj => ?_)
  · rw [haway j] at hj
    cases hj
  · have hnone := haway j
    rcases hj with hj | hj
    · simp [hj, waiter_pc.holds] at hnone
    · simp [hj, waiter_pc.holds] at hnone

/-- A worker whose mutex another holds, or nobody, is not inside. -/
theorem Mutexes.outside {s : queue} (hs : s.Mutexes) {i : Nat}
    (hmutex : (s.worker i).m_mutex ≠ some .worker) : ¬ (s.worker i).pc.inside = true :=
  fun hin => hmutex (hs.inside i hin)

/-- A worker that has nothing loaded yet is inside. -/
theorem inside_of_cleared {pc : worker_pc} (h : pc.cleared = true) : pc.inside = true := by
  revert h
  cases pc <;> simp [worker_pc.inside, worker_pc.cleared]

theorem Mutexes.cycle {s t : queue} (hs : s.Mutexes) (h : s.cycle = some t) : t.Mutexes := by
  cases hw : s.waiter with
  | trying i =>
    simp only [queue.cycle, hw] at h
    split at h
    · split at h
      · rename_i hfree
        cases h
        refine hs.update i rfl ?_ (hs.cleared i) ?_ ?_
        · intro hin
          exact absurd hin (hs.outside (by simp [hfree]))
        · intro j hj
          exact .inl ⟨of_decide_eq_true hj, rfl⟩
        · intro j hj
          simp at hj
      · cases h
        exact hs.away rfl fun _ => rfl
    · cases h
      exact hs.away rfl fun _ => rfl
  | testing i =>
    have hmutex := hs.holds i (by simp [hw, waiter_pc.holds])
    simp only [queue.cycle, hw] at h
    split at h
    · cases h
      refine hs.update_away i rfl (fun hin => ?_) (hs.cleared i) fun _ => rfl
      exact absurd hin (hs.outside (by simp [hmutex]))
    · rename_i hload
      cases h
      refine hs.same rfl (fun j hj => ?_) (fun j hj => ?_)
      · rw [hw]
        exact hj
      · obtain rfl : i = j := by simpa using hj
        simpa using hload
  | giving i =>
    have hmutex := hs.holds i (by simp [hw, waiter_pc.holds])
    simp only [queue.cycle, hw] at h
    cases h
    refine hs.update i rfl (hs.inside i) (hs.cleared i) (fun j hj => .inl ?_) (fun j hj => .inl ?_)
    · exact ⟨of_decide_eq_true hj, hmutex⟩
    · obtain rfl : i = j := by simpa using hj
      exact ⟨rfl, hs.empty i (.inl hw)⟩
  | loading i =>
    have hmutex := hs.holds i (by simp [hw, waiter_pc.holds])
    simp only [queue.cycle, hw] at h
    cases h
    refine hs.update i rfl (hs.inside i) ?_ (fun j hj => .inl ⟨of_decide_eq_true hj, hmutex⟩)
      (fun j hj => by simp at hj)
    intro hclear
    exact absurd (inside_of_cleared hclear) (hs.outside (by simp [hmutex]))
  | unlocking i =>
    have hmutex := hs.holds i (by simp [hw, waiter_pc.holds])
    simp only [queue.cycle, hw] at h
    cases h
    refine hs.update_away i rfl (fun hin => ?_) (hs.cleared i) fun _ => rfl
    exact absurd hin (hs.outside (by simp [hmutex]))
  | notifying i =>
    simp only [queue.cycle, hw] at h
    cases h
    have hstill := Still.wake (s.worker i)
    refine hs.update_away i rfl (fun hin => ?_) (fun hclear => ?_) fun _ => rfl
    · rw [hstill.m_mutex]
      exact hs.inside i (hstill.inside hin)
    · rw [hstill.m_loaded]
      exact hs.cleared i (hstill.cleared hclear)
  | at_take =>
    simp only [queue.cycle, hw] at h
    split at h
    · cases h
      exact hs.away rfl fun _ => rfl
    · cases h
      exact hs.away rfl fun _ => rfl
  | unstarted =>
    simp only [queue.cycle, hw] at h
    cases h
  | blocked =>
    simp only [queue.cycle, hw] at h
    cases h
  | exited =>
    simp only [queue.cycle, hw] at h
    cases h
  | at_loop | at_load | at_check | at_hand =>
    simp only [queue.cycle, hw, Option.some.injEq] at h
    subst h
    refine hs.away rfl fun _ => ?_
    simp only
    split <;> rfl
  | _ =>
    simp only [queue.cycle, hw] at h
    cases h
    exact hs.away rfl fun _ => rfl

/-- A waiter that holds a mutex stays where it is in the steps of the others. -/
theorem act_holds {s t : queue} {a : action} (h : s.act a = some t) (hcycle : a ≠ .cycle) {j : Nat}
    (hj : t.waiter.holds j = true) : t.waiter = s.waiter := by
  by_cases hadd : a = .add_package
  · subst hadd
    cases h
    rfl
  · rcases (Aside.act h hcycle hadd).waiter with hw | ⟨-, hw⟩ | ⟨-, -, hw⟩
    · exact hw
    · rw [hw] at hj
      cases hj
    · rw [hw] at hj
      cases hj

theorem process_pool {s t : queue} {i : Nat} (h : s.process i = some t) :
    ∃ w, (s.worker i).process = some w ∧
      t.m_pool.m_pool = Function.update s.m_pool.m_pool i w := by
  obtain ⟨w, hw, rfl⟩ := process_eq h
  refine ⟨w, hw, ?_⟩
  unfold queue.notify
  grind [set_worker]

theorem holds_of_at {i : Nat} {pc : waiter_pc} (h : pc = .giving i ∨ pc = .loading i) :
    pc.holds i = true := by
  rcases h with rfl | rfl <;> simp [waiter_pc.holds]

theorem Mutexes.act {s t : queue} {a : action} (hs : s.Mutexes) (h : s.act a = some t) :
    t.Mutexes := by
  by_cases hcycle : a = .cycle
  · subst hcycle
    exact hs.cycle h
  by_cases hprocess : ∃ i, a = .process i
  · obtain ⟨i, rfl⟩ := hprocess
    obtain ⟨w, hw, hpool⟩ := process_pool h
    obtain ⟨h1, h2, h3⟩ := process_mutex hw (hs.inside i) (hs.cleared i)
    refine hs.update i hpool h1 h2 (fun j hj => ?_) (fun j hj => ?_)
    · have hold : s.waiter.holds j = true := act_holds h hcycle hj ▸ hj
      by_cases hij : j = i
      · subst hij
        exact .inl ⟨rfl, (h3 (hs.holds j hold)).1⟩
      · exact .inr ⟨hij, hold⟩
    · have hold := act_holds h hcycle (holds_of_at hj)
      rw [hold] at hj
      by_cases hij : j = i
      · subst hij
        refine .inl ⟨rfl, ?_⟩
        rw [(h3 (hs.holds j (holds_of_at hj))).2.1]
        exact hs.empty j hj
      · exact .inr ⟨hij, hj⟩
  · push Not at hprocess
    have hstill := still_act h hcycle hprocess
    constructor
    · intro j hj
      rw [(hstill j).m_mutex]
      exact hs.inside j ((hstill j).inside hj)
    · intro j hj
      rw [(hstill j).m_mutex]
      exact hs.holds j (act_holds h hcycle hj ▸ hj)
    · intro j hj
      rw [(hstill j).m_loaded]
      exact hs.cleared j ((hstill j).cleared hj)
    · intro j hj
      rw [(hstill j).m_loaded]
      exact hs.empty j (act_holds h hcycle (holds_of_at hj) ▸ hj)

theorem mutexes_new (size : Nat) : (new size).Mutexes := by
  constructor
  · intro i hi
    cases hi
  · intro i hi
    cases hi
  · intro i hi
    cases hi
  · intro i hi
    rcases hi with hi | hi
    · cases hi
    · cases hi

/-! ## What a step does with the package of a worker -/

/-- The worker has a package loaded that it runs next. -/
def ready (w : thread.worker) : Prop := w.m_loaded = true ∧ w.pc.receives = true

theorem Still.ready {w w' : thread.worker} (h : Still w w') (hready : queue.ready w') :
    queue.ready w := by
  obtain ⟨hload, hpc⟩ := hready
  refine ⟨h.m_loaded ▸ hload, ?_⟩
  rcases h.pc with hsame | hcreated | ⟨hblocked, -⟩
  · rwa [hsame] at hpc
  · rw [hcreated] at hpc
    cases hpc
  · rw [hblocked]
    rfl

/-- A worker's own steps give it no package, and keep the one that it has to run. -/
theorem process_ready {w w' : thread.worker} (h : w.process = some w')
    (hcleared : w.pc.cleared = true → w.m_loaded = false) (hready : queue.ready w') :
    queue.ready w ∧ w'.m_current = w.m_current ∧ w.pc ≠ .at_run := by
  unfold queue.ready at hready ⊢
  cases hpc : w.pc <;> simp only [worker.process, hpc] at h <;>
    grind [worker_pc.receives, worker_pc.cleared]

theorem worker_update {s t : queue} (i : Nat) {w : thread.worker}
    (ht : t.m_pool.m_pool = Function.update s.m_pool.m_pool i w) (j : Nat) :
    t.worker j = if j = i then w else s.worker j := by
  unfold queue.worker
  rw [ht, Function.update_apply]

/-- The waiter gives a worker its package and loads it, and leaves the others as they are. -/
theorem cycle_worker {s t : queue} (h : s.cycle = some t) (j : Nat) :
    ((t.worker j).m_running = (s.worker j).m_running ∧
        (t.worker j).m_loaded = (s.worker j).m_loaded ∧
        (t.worker j).m_current = (s.worker j).m_current ∧
        ((t.worker j).pc = (s.worker j).pc ∨
          (s.worker j).pc = .blocked ∧ (t.worker j).pc = .woken)) ∨
      s.waiter = .giving j ∧ t.worker j = { s.worker j with m_current := s.raw_pkg } ∨
      s.waiter = .loading j ∧ t.worker j = { s.worker j with m_loaded := true } := by
  cases hw : s.waiter with
  | trying i =>
    simp only [queue.cycle, hw] at h
    split at h
    · split at h
      · cases h
        rw [worker_update i rfl j]
        grind
      · cases h
        exact .inl ⟨rfl, rfl, rfl, .inl rfl⟩
    · cases h
      exact .inl ⟨rfl, rfl, rfl, .inl rfl⟩
  | testing i =>
    simp only [queue.cycle, hw] at h
    split at h
    · cases h
      rw [worker_update i rfl j]
      grind
    · cases h
      exact .inl ⟨rfl, rfl, rfl, .inl rfl⟩
  | giving i | loading i | unlocking i =>
    simp only [queue.cycle, hw] at h
    cases h
    rw [worker_update i rfl j]
    grind
  | notifying i =>
    simp only [queue.cycle, hw] at h
    cases h
    rw [worker_update i rfl j]
    grind [thread.worker.wake]
  | at_take =>
    simp only [queue.cycle, hw] at h
    split at h
    · cases h
      exact .inl ⟨rfl, rfl, rfl, .inl rfl⟩
    · cases h
      exact .inl ⟨rfl, rfl, rfl, .inl rfl⟩
  | unstarted | blocked | exited =>
    simp only [queue.cycle, hw] at h
    cases h
  | _ =>
    simp only [queue.cycle, hw] at h
    cases h
    exact .inl ⟨rfl, rfl, rfl, .inl rfl⟩

/-- The steps of the waiter give a package to the worker that it loads. -/
theorem cycle_ready {s t : queue} (hs : s.Mutexes) (h : s.cycle = some t) {j : Nat}
    (hready : queue.ready (t.worker j)) :
    (queue.ready (s.worker j) ∨ s.waiter = .loading j) ∧
      (t.worker j).m_current = (s.worker j).m_current := by
  rcases cycle_worker h j with ⟨-, hload, hcurrent, hpc⟩ | ⟨hw, ht⟩ | ⟨hw, ht⟩
  · refine ⟨.inl ?_, hcurrent⟩
    obtain ⟨h1, h2⟩ := hready
    refine ⟨hload ▸ h1, ?_⟩
    rcases hpc with hpc | ⟨hpc, -⟩
    · rwa [hpc] at h2
    · rw [hpc]
      rfl
  · rw [ht] at hready
    have hempty := hs.empty j (.inl hw)
    rw [hready.1] at hempty
    cases hempty
  · rw [ht]
    exact ⟨.inr hw, rfl⟩

theorem cycle_loading {s t : queue} (h : s.cycle = some t) {j : Nat} (hj : t.waiter = .loading j) :
    s.waiter = .giving j ∧ (t.worker j).m_current = s.raw_pkg ∧
      t.handed = s.handed ++ s.raw_pkg.toList.map fun task => (task, j) := by
  cases hw : s.waiter <;> simp only [queue.cycle, hw] at h
  case giving i =>
    cases h
    obtain rfl : i = j := by simpa using hj
    rw [worker_update i rfl]
    simp
  all_goals grind

theorem cycle_carries {s t : queue} (h : s.cycle = some t)
    (hs : s.waiter.carries = true → s.raw_pkg ≠ none) :
    t.waiter.carries = true → t.raw_pkg ≠ none := by
  cases hw : s.waiter <;> simp only [queue.cycle, hw] at h <;> grind [waiter_pc.carries, set_worker]

/-- Only a worker that comes to its package runs it. -/
theorem act_runs {s t : queue} {a : action} (h : s.act a = some t) : t.runs = s.runs ∨
    ∃ i, a = .process i ∧ (s.worker i).pc = .at_run ∧
      t.runs = s.runs ++ [(s.worker i).m_current] := by
  cases a with
  | process i =>
    obtain ⟨w, -, rfl⟩ := process_eq h
    split
    · rename_i hpc
      exact .inr ⟨i, rfl, hpc, rfl⟩
    · left
      unfold queue.notify
      split <;> rfl
    · exact .inl rfl
  | cycle =>
    left
    simp only [act, cycle, set_worker] at h
    grind
  | steer =>
    left
    simp only [act, steer, set_worker, queue.notify] at h
    grind
  | _ =>
    left
    simp only [act, queue.notify, set_worker] at h
    grind

/-! ## Which packages have not been run -/

/-- The worker has a package that it runs next, or the waiter is about to load it. -/
def due (s : queue) (i : Nat) : Prop := ready (s.worker i) ∨ s.waiter = .loading i

/-- A worker that is due was before, or is the one that the waiter gives a package. -/
theorem act_due {s t : queue} {a : action} (hs : s.Mutexes) (h : s.act a = some t) {j : Nat}
    (hj : t.due j) :
    (s.due j ∧ (t.worker j).m_current = (s.worker j).m_current ∧
        ¬ (a = .process j ∧ (s.worker j).pc = .at_run)) ∨
      a = .cycle ∧ s.waiter = .giving j ∧ (t.worker j).m_current = s.raw_pkg ∧
        t.handed = s.handed ++ s.raw_pkg.toList.map fun task => (task, j) := by
  by_cases hcycle : a = .cycle
  · subst hcycle
    rcases hj with hready | hload
    · obtain ⟨h1, h2⟩ := cycle_ready hs h hready
      exact .inl ⟨h1, h2, by simp⟩
    · exact .inr ⟨rfl, cycle_loading h hload⟩
  left
  by_cases hprocess : a = .process j
  · subst hprocess
    obtain ⟨w, hw, hpool⟩ := process_pool h
    have hworker : t.worker j = w := by rw [worker_update j hpool, if_pos rfl]
    obtain ⟨-, -, h3⟩ := process_mutex hw (hs.inside j) (hs.cleared j)
    unfold due at hj ⊢
    rw [hworker] at hj ⊢
    rcases hj with hready | hload
    · obtain ⟨h4, h5, h6⟩ := process_ready hw (hs.cleared j) hready
      exact ⟨.inl h4, h5, fun hrun => h6 hrun.2⟩
    · have hold := act_holds h hcycle (holds_of_at (.inr hload))
      have hmutex := hs.holds j (holds_of_at (.inr (hold ▸ hload)))
      refine ⟨.inr (hold ▸ hload), (h3 hmutex).2.2, ?_⟩
      rintro ⟨-, hpc⟩
      have hin := hs.inside j (by rw [hpc]; rfl)
      rw [hmutex] at hin
      cases hin
  · have hstill : Still (s.worker j) (t.worker j) := by
      by_cases hother : ∃ i, a = .process i
      · obtain ⟨i, rfl⟩ := hother
        obtain ⟨w, -, hpool⟩ := process_pool h
        have hne : j ≠ i := by
          rintro rfl
          exact hprocess rfl
        rw [worker_update i hpool, if_neg hne]
        exact Still.refl _
      · push Not at hother
        exact still_act h hcycle hother j
    refine ⟨?_, hstill.m_current, fun hrun => hprocess hrun.1⟩
    rcases hj with hready | hload
    · exact .inl (hstill.ready hready)
    · exact .inr (act_holds h hcycle (holds_of_at (.inr hload)) ▸ hload)

/-- The worker's package was handed to it and has not been run. -/
def unrun (s : queue) (i : Nat) : Prop :=
  ∃ task, (s.worker i).m_current = some task ∧ (task, i) ∈ s.handed ∧ some task ∉ s.runs

/-- Every package that a worker has loaded, or is about to get, has not been run. -/
structure Fresh (s : queue) : Prop where
  apart : s.places.Nodup
  below : ∀ task ∈ s.places, task < s.added
  ran : ∀ task, some task ∈ s.runs → task ∈ s.handed.map Prod.fst
  in_hand : s.waiter.carries = true → s.raw_pkg ≠ none
  due : ∀ i, s.due i → s.unrun i

theorem act_handed {s t : queue} {a : action} (h : s.act a = some t) : s.handed ⊆ t.handed := by
  by_cases hcycle : a = .cycle
  · subst hcycle
    obtain ⟨-, hcases⟩ := cycle_cases h
    rcases hcases with ⟨h1, -⟩ | ⟨h1, -⟩ | ⟨i, h1, -⟩ | ⟨-, -, h1, -⟩
    · rw [h1]
      exact fun _ hx => hx
    · rw [h1]
      exact fun _ hx => hx
    · rw [h1]
      exact List.subset_append_left _ _
    · rw [h1]
      exact fun _ hx => hx
  · by_cases hadd : a = .add_package
    · subst hadd
      cases h
      exact fun _ hx => hx
    · rw [(Aside.act h hcycle hadd).handed]
      exact fun _ hx => hx

theorem act_places {s t : queue} {a : action} (hlast : s.waiter_last) (h : s.act a = some t) :
    t.places.Sublist s.places ∧ t.added = s.added ∨
      t.places = s.places ++ [s.added] ∧ t.added = s.added + 1 := by
  by_cases hcycle : a = .cycle
  · subst hcycle
    refine .inl ⟨?_, (cycle_cases h).1⟩
    rcases cycle_places h with hsame | ⟨-, -, hdrop⟩
    · rw [hsame]
    · rw [hdrop, places]
      exact List.Sublist.append_left (List.sublist_append_right _ _) _
  · by_cases hadd : a = .add_package
    · subst hadd
      exact .inr (places_add s t h)
    · have haside := Aside.act h hcycle hadd
      exact .inl ⟨by rw [haside.places hlast], haside.added⟩

theorem Fresh.places {s t : queue} {a : action} (hs : s.Fresh) (hlast : s.waiter_last)
    (h : s.act a = some t) : t.places.Nodup ∧ ∀ task ∈ t.places, task < t.added := by
  rcases act_places hlast h with ⟨hsub, hadded⟩ | ⟨hplaces, hadded⟩
  · refine ⟨hs.apart.sublist hsub, ?_⟩
    intro task htask
    rw [hadded]
    exact hs.below task (hsub.subset htask)
  · rw [hplaces, hadded]
    constructor
    · refine List.nodup_append.mpr ⟨hs.apart, List.nodup_singleton _, ?_⟩
      rintro task htask other hother rfl
      have hlt := hs.below task htask
      rw [List.mem_singleton.mp hother] at hlt
      exact absurd hlt (Nat.lt_irrefl _)
    · intro task htask
      rcases List.mem_append.mp htask with htask | htask
      · exact Nat.lt_succ_of_lt (hs.below task htask)
      · rw [List.mem_singleton.mp htask]
        exact Nat.lt_succ_self _

theorem act_carries {s t : queue} {a : action} (h : s.act a = some t)
    (hs : s.waiter.carries = true → s.raw_pkg ≠ none) :
    t.waiter.carries = true → t.raw_pkg ≠ none := by
  by_cases hcycle : a = .cycle
  · subst hcycle
    exact cycle_carries h hs
  · by_cases hadd : a = .add_package
    · subst hadd
      cases h
      exact hs
    · have haside := Aside.act h hcycle hadd
      rw [haside.raw_pkg]
      intro hcarries
      rcases haside.waiter with hw | ⟨-, hw⟩ | ⟨-, -, hw⟩
      · exact hs (hw ▸ hcarries)
      · rw [hw] at hcarries
        cases hcarries
      · rw [hw] at hcarries
        cases hcarries

/-- A package that is run was never run before, and no worker has ever run nothing. -/
def runs_once (s : queue) : Prop := none ∉ s.runs ∧ s.runs.Nodup

/-- A worker that comes to run its package has one loaded. -/
def runs_loaded (s : queue) : action → Prop
  | .process i => (s.worker i).pc = .at_run → (s.worker i).m_loaded = true
  | _ => True

instance (s : queue) (a : action) : Decidable (s.runs_loaded a) :=
  match a with
  | .process i => inferInstanceAs (Decidable ((s.worker i).pc = .at_run → _))
  | .start | .stop | .steer | .add_package | .notify | .cycle | .wake | .wake_worker _ =>
    inferInstanceAs (Decidable True)

/-- No two workers were handed the same package. -/
theorem Fresh.worker_eq {s : queue} (hs : s.Fresh) {task : pkg} {i j : Nat}
    (hi : (task, i) ∈ s.handed) (hj : (task, j) ∈ s.handed) : i = j := by
  have hnodup : (s.handed.map Prod.fst).Nodup := hs.apart.sublist (List.sublist_append_left _ _)
  have hsame := List.inj_on_of_nodup_map hnodup hi hj rfl
  exact congrArg Prod.snd hsame

/-- A worker that comes to its package with one loaded has it, and has not run it. -/
theorem Fresh.at_run {s : queue} (hs : s.Fresh) {a : action} {i : Nat} (ha : a = .process i)
    (hpc : (s.worker i).pc = .at_run) (hg : s.runs_loaded a) : s.unrun i := by
  subst ha
  refine hs.due i (.inl ⟨hg hpc, ?_⟩)
  rw [hpc]
  rfl

theorem Fresh.act_unrun {s t : queue} {a : action} (hs : s.Fresh) (hm : s.Mutexes)
    (h : s.act a = some t) (hg : s.runs_loaded a) {j : Nat} (hj : t.due j) : t.unrun j := by
  have hhanded := act_handed h
  rcases act_due hm h hj with ⟨hdue, hcurrent, hother⟩ | ⟨rfl, hgiving, hcurrent, hgiven⟩
  · obtain ⟨task, h1, h2, h3⟩ := hs.due j hdue
    refine ⟨task, hcurrent.trans h1, hhanded h2, ?_⟩
    rcases act_runs h with hruns | ⟨i, ha, hpc, hruns⟩
    · rwa [hruns]
    · -- another worker runs, and it runs another package
      obtain ⟨task', h4, h5, -⟩ := hs.at_run ha hpc hg
      rw [hruns, h4]
      intro hmem
      rcases List.mem_append.mp hmem with hmem | hmem
      · exact h3 hmem
      · obtain rfl : task = task' := by simpa using hmem
        obtain rfl := hs.worker_eq h2 h5
        exact hother ⟨ha, hpc⟩
  · have hcarries : s.raw_pkg ≠ none := hs.in_hand (by rw [hgiving]; rfl)
    obtain ⟨task, hraw⟩ := Option.ne_none_iff_exists'.mp hcarries
    have hhand : s.hand = some task := by
      unfold hand
      rw [hgiving, hraw]
    refine ⟨task, hcurrent.trans hraw, by rw [hgiven, hraw]; simp, ?_⟩
    have hruns : t.runs = s.runs := by
      rcases act_runs h with hruns | ⟨i, ha, -⟩
      · exact hruns
      · cases ha
    rw [hruns]
    intro hran
    have hbefore := hs.ran task hran
    have hapart := hs.apart
    rw [queue.places, hhand] at hapart
    have hdisjoint := (List.nodup_append.mp hapart).2.2 task hbefore task (by simp)
    exact hdisjoint rfl

theorem Fresh.act {s t : queue} {a : action} (hs : s.Fresh) (hm : s.Mutexes)
    (hlast : s.waiter_last) (h : s.act a = some t) (hg : s.runs_loaded a) : t.Fresh := by
  have hhanded : ∀ task, task ∈ s.handed.map Prod.fst → task ∈ t.handed.map Prod.fst :=
    fun _ htask => List.map_subset _ (act_handed h) htask
  obtain ⟨hapart, hbelow⟩ := hs.places hlast h
  refine ⟨hapart, hbelow, ?_, act_carries h hs.in_hand, fun j => hs.act_unrun hm h hg⟩
  intro task hran
  rcases act_runs h with hruns | ⟨i, ha, hpc, hruns⟩
  · rw [hruns] at hran
    exact hhanded task (hs.ran task hran)
  · obtain ⟨task', h1, h2, -⟩ := hs.at_run ha hpc hg
    rw [hruns, h1] at hran
    rcases List.mem_append.mp hran with hran | hran
    · exact hhanded task (hs.ran task hran)
    · obtain rfl : task = task' := by simpa using hran
      exact hhanded task (List.mem_map_of_mem h2)

theorem Fresh.runs_once {s t : queue} {a : action} (hs : s.Fresh) (ho : s.runs_once)
    (h : s.act a = some t) (hg : s.runs_loaded a) : t.runs_once := by
  unfold queue.runs_once at ho ⊢
  rcases act_runs h with hruns | ⟨i, ha, hpc, hruns⟩
  · rwa [hruns]
  · obtain ⟨task, h1, -, h2⟩ := hs.at_run ha hpc hg
    rw [hruns, h1]
    refine ⟨by simpa using ho.1, List.nodup_append.mpr ⟨ho.2, List.nodup_singleton _, ?_⟩⟩
    rintro x hx y hy rfl
    rw [List.mem_singleton.mp hy] at hx
    exact h2 hx

theorem fresh_new (size : Nat) : (new size).Fresh := by
  refine ⟨List.nodup_nil, ?_, ?_, ?_, ?_⟩
  · intro task htask
    cases htask
  · intro task hran
    cases hran
  · intro hcarries
    cases hcarries
  · rintro i (hready | hload)
    · cases hready.1
    · cases hload

/-! ## When a package is run twice -/

/-- In the runs in which no worker comes back from its wait to run a package without one
loaded, no worker runs nothing, and no package is run twice. -/
theorem no_package_is_run_twice {s : queue}
    (h : transition.Reachable (queues.guarded runs_loaded) s) : s.runs_once := by
  have hall : s.waiter_last ∧ s.Mutexes ∧ s.Fresh ∧ s.runs_once := by
    refine h.keeps (P := fun s => s.waiter_last ∧ s.Mutexes ∧ s.Fresh ∧ s.runs_once) ?_ ?_
    · rintro s ⟨size, rfl⟩
      exact ⟨fun _ => .inl rfl, mutexes_new size, fresh_new size, List.not_mem_nil, List.nodup_nil⟩
    · rintro s a t ⟨hlast, hm, hs, ho⟩ ⟨hg, ha⟩
      exact ⟨waiter_last_act ha hlast, hm.act ha, hs.act hm hlast ha hg, hs.runs_once ho ha hg⟩
  exact hall.2.2.2

/-- A worker is handed a package and runs it. -/
def run_first : List action :=
  List.flatten [start_one, [.add_package, .notify], List.replicate 13 .cycle,
    List.replicate 3 (.process 0)]

theorem a_package_is_run_once :
    ∃ s, transition.Reachable (queues.guarded runs_loaded) s ∧ s.runs = [some 0] ∧ s.runs_once := by
  have hrun : (run_first.foldlM (fun s a => if runs_loaded s a then s.act a else none)
      (new 1)).any (fun s => decide (s.runs = [some 0])) = true := by
    decide +kernel
  obtain ⟨s, hs, hruns⟩ := reachable_guarded 1 run_first hrun
  exact ⟨s, hs, hruns, no_package_is_run_twice hs⟩

/-- The wait of a worker returns before it was handed anything. -/
def wake_idle : List action :=
  List.flatten [start_one, [.wake_worker 0], List.replicate 3 (.process 0)]

/-- The wait of a worker returns after it has run its package. -/
def wake_again : List action :=
  List.flatten [
    start_one,
    [.add_package, .notify],
    List.replicate 13 .cycle,
    List.replicate 8 (.process 0),
    [.wake_worker 0],
    List.replicate 3 (.process 0)]

/-- A wait that returns by itself makes the worker run nothing at all, or a package again. -/
theorem a_spurious_return_runs_a_package_twice :
    (∃ s, transition.Reachable queues s ∧ s.runs = [none]) ∧
      ∃ s, transition.Reachable queues s ∧ s.runs = [some 0, some 0] ∧ ¬ s.runs_once := by
  have hidle : (wake_idle.foldlM act (new 1)).any (fun s => decide (s.runs = [none])) = true := by
    decide +kernel
  have hagain : (wake_again.foldlM act (new 1)).any
      (fun s => decide (s.runs = [some 0, some 0])) = true := by
    decide +kernel
  refine ⟨reachable 1 wake_idle hidle, ?_⟩
  obtain ⟨s, hs, hruns⟩ := reachable 1 wake_again hagain
  refine ⟨s, hs, hruns, ?_⟩
  rintro ⟨-, honce⟩
  rw [hruns] at honce
  exact absurd honce (by decide)

end queue

end strangeio.thread
