-- What becomes of a package (threads/queue.cpp, pool.cpp, worker.cpp): while the queue is
-- not stopped its workers stay in their loops, and each package is run unless it is still
-- on its way.
import StrangeIO.StrandedPackages

namespace strangeio.thread

/-- The thread of the worker has come to its loop and has not left it. -/
def worker_pc.up : worker_pc → Bool
  | .at_loop | .at_wait | .blocked | .woken | .at_check => true
  | .at_run | .busy | .finishing | .at_ready => true
  | _ => false

/-- The queue has not been told to stop. -/
def control_pc.upwards : control_pc → Bool
  | .stopped | .deactivating | .initing | .starting _ | .spawning _ | .awaiting _ => true
  | .at_waiter | .at_running | .started => true
  | _ => false

/-- The pool has yet to make its workers. -/
def control_pc.unsized : control_pc → Bool
  | .stopped | .deactivating | .initing => true
  | _ => false

namespace queue

/-! ## Workers that stay -/

/-- So many workers are known to be in their loops. -/
def workers_up (s : queue) : Nat :=
  match s.control with
  | .starting i | .spawning i | .awaiting i => i
  | .at_waiter | .at_running | .started => s.m_size
  | _ => 0

/-- Where the waiter is: it is there before the queue says that it is running, and may find
that it is not. -/
def placed (s : queue) : Prop :=
  s.waiter = .unstarted ∧ s.control.waiterless = true ∨
    s.control = .at_running ∧
      (s.waiter = .created ∨ s.waiter = .at_loop ∧ s.raw_pkg = none ∨ s.waiter = .exited) ∨
    s.control = .started ∧ s.waiter ≠ .unstarted

/-- Where the threads are while the queue has not been told to stop. -/
structure Up (s : queue) : Prop where
  control : s.control.upwards = true
  pool_size : s.m_pool.m_size = s.m_size
  length : s.m_pool.length = if s.control.unsized then 0 else s.m_size
  running : ∀ i, (s.worker i).m_running = true → (s.worker i).pc.up = true
  first : ∀ i < s.workers_up, (s.worker i).m_running = true
  m_running : s.m_running = true ↔ s.control = .started
  waiter : s.placed

theorem up_new (size : Nat) : (new size).Up where
  control := rfl
  pool_size := rfl
  length := rfl
  running i hi := by cases hi
  first i hi := absurd hi (Nat.not_lt_zero i)
  m_running := by constructor <;> (intro h; cases h)
  waiter := .inl ⟨rfl, rfl⟩

theorem act_size {s t : queue} {a : action} (h : s.act a = some t) (hsteer : a ≠ .steer) :
    t.m_size = s.m_size ∧ t.m_pool.m_size = s.m_pool.m_size ∧
      t.m_pool.length = s.m_pool.length := by
  cases a with
  | steer => exact absurd rfl hsteer
  | cycle =>
    simp only [act, cycle, set_worker] at h
    grind
  | process i =>
    obtain ⟨w, -, rfl⟩ := process_eq h
    unfold queue.notify set_worker
    grind
  | _ =>
    simp only [act, queue.notify, set_worker] at h
    grind

/-- A worker that runs goes on to run, and stays in its loop. -/
theorem process_up {w w' : thread.worker} (h : w.process = some w')
    (hrunning : w.m_running = true → w.pc.up = true)
    (hloaded : w.pc = .at_run → w.m_current ≠ none) :
    (w'.m_running = true → w'.pc.up = true) ∧ (w.m_running = true → w'.m_running = true) := by
  cases hpc : w.pc <;> simp only [worker.process, hpc] at h <;> grind [worker_pc.up]

/-- What the steps of the threads leave is enough where the workers stay in their loops. -/
theorem Up.stays {s t : queue} (hs : s.Up) (hcontrol : t.control = s.control)
    (hrunning : t.m_running = s.m_running)
    (hsize : t.m_size = s.m_size ∧ t.m_pool.m_size = s.m_pool.m_size ∧
      t.m_pool.length = s.m_pool.length)
    (hworker : ∀ i, ((t.worker i).m_running = true → (t.worker i).pc.up = true) ∧
      ((s.worker i).m_running = true → (t.worker i).m_running = true))
    (hwaiter : t.placed) : t.Up where
  control := by rw [hcontrol, hs.control]
  pool_size := by rw [hsize.2.1, hsize.1, hs.pool_size]
  length := by rw [hsize.2.2, hcontrol, hsize.1, hs.length]
  running i := (hworker i).1
  first := by
    intro i hi
    unfold workers_up at hi
    rw [hcontrol, hsize.1] at hi
    exact (hworker i).2 (hs.first i hi)
  m_running := by rw [hrunning, hcontrol, hs.m_running]
  waiter := hwaiter

theorem Up.steer {s t : queue} (hs : s.Up) (hb : s.Begun) (h : s.steer = some t) : t.Up := by
  obtain ⟨h1, h2, h3, h4, h5, h6, h7⟩ := hs
  unfold workers_up at h5
  unfold placed at h7
  have hold (i : Nat) {w : thread.worker} (hw : w.m_running = true → w.pc.up = true) (j : Nat) :
      ((s.set_worker i w).worker j).m_running = true →
        ((s.set_worker i w).worker j).pc.up = true := by
    rw [worker_set_worker]
    split
    · exact hw
    · exact h4 j
  cases hc : s.control with
  | stopped =>
    simp only [queue.steer, hc] at h
    cases h
  | started =>
    simp only [queue.steer, hc] at h
    cases h
  | deactivating =>
    simp only [queue.steer, hc] at h
    cases h
    rw [hc] at h3 h5 h6 h7
    have hr : ¬ s.m_running = true := by simpa using h6
    have hw : s.waiter = .unstarted := by simpa [control_pc.waiterless] using h7
    exact ⟨rfl, h2, h3, h4, h5, iff_of_false hr (by simp), .inl ⟨hw, rfl⟩⟩
  | initing =>
    simp only [queue.steer, hc] at h
    cases h
    rw [hc] at h3 h5 h6 h7
    have hr : ¬ s.m_running = true := by simpa using h6
    have hw : s.waiter = .unstarted := by simpa [control_pc.waiterless] using h7
    refine ⟨rfl, h2, ?_, h4, h5, iff_of_false hr (by simp), .inl ⟨hw, rfl⟩⟩
    change s.m_pool.length + s.m_pool.m_size = s.m_size
    rw [h3, h2]
    exact Nat.zero_add _
  | starting i =>
    simp only [queue.steer, hc] at h
    rw [hc] at h3 h5 h6 h7
    have hr : ¬ s.m_running = true := by simpa using h6
    have hw : s.waiter = .unstarted := by simpa [control_pc.waiterless] using h7
    split at h
    · split at h
      · cases h
        exact ⟨rfl, h2, h3, h4, h5, iff_of_false hr (by simp), .inl ⟨hw, rfl⟩⟩
      · cases h
        refine ⟨rfl, h2, h3, hold i (fun hr => by cases hr), ?_, iff_of_false hr (by simp),
          .inl ⟨hw, rfl⟩⟩
        intro j hj
        have hj : j < i := hj
        change ((s.set_worker i _).worker j).m_running = true
        rw [worker_set_worker, if_neg (Nat.ne_of_lt hj)]
        exact h5 j hj
    · rename_i hi
      cases h
      refine ⟨rfl, h2, h3, h4, ?_, iff_of_false hr (by simp), .inl ⟨hw, rfl⟩⟩
      intro j hj
      refine h5 j (Nat.lt_of_lt_of_le hj ?_)
      change s.m_size ≤ i
      rw [h3] at hi
      exact Nat.le_of_not_lt hi
  | spawning i =>
    simp only [queue.steer, hc] at h
    cases h
    have hstopped := hb.spawns i hc
    rw [hc] at h3 h5 h6 h7
    have hr : ¬ s.m_running = true := by simpa using h6
    have hw : s.waiter = .unstarted := by simpa [control_pc.waiterless] using h7
    refine ⟨rfl, h2, h3, hold i (fun hr => ?_), ?_, iff_of_false hr (by simp), .inl ⟨hw, rfl⟩⟩
    · rw [hstopped] at hr
      cases hr
    · intro j hj
      have hj : j < i := hj
      change ((s.set_worker i _).worker j).m_running = true
      rw [worker_set_worker, if_neg (Nat.ne_of_lt hj)]
      exact h5 j hj
  | awaiting i =>
    simp only [queue.steer, hc] at h
    rw [hc] at h3 h5 h6 h7
    have hr : ¬ s.m_running = true := by simpa using h6
    have hw : s.waiter = .unstarted := by simpa [control_pc.waiterless] using h7
    split at h
    · rename_i hrunning
      cases h
      refine ⟨rfl, h2, h3, h4, ?_, iff_of_false hr (by simp), .inl ⟨hw, rfl⟩⟩
      intro j hj
      rcases Nat.lt_succ_iff_lt_or_eq.mp hj with hj | rfl
      · exact h5 j hj
      · exact hrunning
    · cases h
  | at_waiter =>
    simp only [queue.steer, hc] at h
    cases h
    rw [hc] at h3 h5 h6
    exact ⟨rfl, h2, h3, h4, h5, iff_of_false (by simpa using h6) (by simp),
      .inr (.inl ⟨rfl, .inl rfl⟩)⟩
  | at_running =>
    simp only [queue.steer, hc] at h
    cases h
    rw [hc] at h3 h5
    have hw : s.waiter ≠ .unstarted := by
      rw [hc] at h7
      rcases h7 with ⟨-, hnone⟩ | ⟨-, hw | ⟨hw, -⟩ | hw⟩ | ⟨hnone, -⟩
      · cases hnone
      · simp [hw]
      · simp [hw]
      · simp [hw]
      · cases hnone
    exact ⟨rfl, h2, h3, h4, h5, iff_of_true rfl rfl, .inr (.inr ⟨rfl, hw⟩)⟩
  | _ =>
    rw [hc] at h1
    cases h1

/-- The queue is not stopped, and a worker that comes to run a package has one loaded. -/
def undisturbed (s : queue) (a : action) : Prop := a ≠ .stop ∧ s.runs_loaded a

instance (s : queue) (a : action) : Decidable (s.undisturbed a) :=
  inferInstanceAs (Decidable (_ ∧ _))

theorem Up.cycle {s t : queue} (hs : s.Up) (h : s.cycle = some t)
    (hcontrol : t.control = s.control) :
    t.placed := by
  unfold placed
  rw [hcontrol]
  rcases hs.waiter with ⟨hw, -⟩ | ⟨hc, hw | ⟨hw, -⟩ | hw⟩ | ⟨hc, -⟩
  · exact absurd hw (cycle_gone h).1
  · simp only [queue.cycle, hw] at h
    cases h
    exact .inr (.inl ⟨hc, .inr (.inl ⟨rfl, rfl⟩)⟩)
  · have hstopped : s.m_running = false := by
      have hiff := hs.m_running
      rw [hc] at hiff
      simpa using hiff
    simp only [queue.cycle, hw, hstopped] at h
    cases h
    exact .inr (.inl ⟨hc, .inr (.inr rfl)⟩)
  · exact absurd hw (cycle_gone h).2
  · refine .inr (.inr ⟨hc, fun hw => ?_⟩)
    unfold queue.cycle at h
    grind

/-- The other threads leave the waiter where it is, or wake it. -/
theorem Up.aside {s t : queue} {a : action} (hs : s.Up) (haside : Aside a s t) (hsteer : a ≠ .steer)
    (hcontrol : t.control = s.control) : t.placed := by
  unfold placed
  rw [haside.raw_pkg, hcontrol]
  rcases haside.waiter with hw | ⟨hw, hwoken⟩ | ⟨ha, -⟩
  · rw [hw]
    exact hs.waiter
  · rcases hs.waiter with ⟨hold, -⟩ | ⟨-, hold | ⟨hold, -⟩ | hold⟩ | ⟨hc, -⟩
    · rw [hw] at hold
      cases hold
    · rw [hw] at hold
      cases hold
    · rw [hw] at hold
      cases hold
    · rw [hw] at hold
      cases hold
    · exact .inr (.inr ⟨hc, by simp [hwoken]⟩)
  · exact absurd ha hsteer

theorem Up.act {s t : queue} {a : action} (hs : s.Up) (hb : s.Begun) (hf : s.Fresh)
    (h : s.act a = some t) (hg : s.undisturbed a) : t.Up := by
  by_cases hsteer : a = .steer
  · subst hsteer
    exact hs.steer hb h
  by_cases hstart : a = .start
  · subst hstart
    simp only [queue.act] at h
    split at h
    · rename_i hc
      cases h
      obtain ⟨-, h2, h3, h4, -, h6, h7⟩ := hs
      unfold placed at h7
      rw [hc] at h3 h6 h7
      refine ⟨rfl, h2, h3, h4, fun i hi => absurd hi (Nat.not_lt_zero i), ?_,
        .inl ⟨by simpa [control_pc.waiterless] using h7, rfl⟩⟩
      exact iff_of_false (by simpa using h6) (by simp)
    · cases h
  have hcontrol := act_control h hstart hg.1 hsteer
  have hsize := act_size h hsteer
  by_cases hprocess : ∃ i, a = .process i
  · obtain ⟨i, rfl⟩ := hprocess
    obtain ⟨w, hw, hpool⟩ := process_pool h
    have hloaded : (s.worker i).pc = .at_run → (s.worker i).m_current ≠ none := by
      intro hpc
      obtain ⟨task, hcurrent, -⟩ := hf.at_run rfl hpc hg.2
      rw [hcurrent]
      exact Option.some_ne_none task
    have hup := process_up hw (hs.running i) hloaded
    refine hs.stays hcontrol.1 hcontrol.2 hsize (fun j => ?_) ?_
    · rw [worker_update i hpool]
      split
      · rename_i hj
        subst hj
        exact hup
      · exact ⟨hs.running j, id⟩
    · exact hs.aside (Aside.act h (by simp) (by simp)) (by simp) hcontrol.1
  push Not at hprocess
  refine hs.stays hcontrol.1 hcontrol.2 hsize (fun j => ?_) ?_
  · obtain ⟨hrun, hpc⟩ := act_quiet h hsteer hprocess j
    rw [hrun]
    refine ⟨fun hr => ?_, id⟩
    rcases hpc with hpc | ⟨-, hpc⟩
    · rw [hpc]
      exact hs.running j hr
    · rw [hpc]
      rfl
  · by_cases hcycle : a = .cycle
    · subst hcycle
      exact hs.cycle h hcontrol.1
    · by_cases hadd : a = .add_package
      · subst hadd
        cases h
        exact hs.waiter
      · exact hs.aside (Aside.act h hcycle hadd) hsteer hcontrol.1

/-! ## Packages that were handed over -/

/-- The worker is to run the package next. -/
def expects (s : queue) (i : Nat) (task : pkg) : Prop :=
  s.due i ∧ (s.worker i).m_current = some task

/-- The waiter hands packages to the workers of a started queue, and each was run, or is
what its worker runs next. -/
structure Kept (s : queue) : Prop where
  holds : ∀ i, s.waiter.holds i = true → i < s.m_size
  started : s.handed ≠ [] → s.control = .started
  handed : ∀ e ∈ s.handed, e.2 < s.m_size ∧ (some e.1 ∈ s.runs ∨ s.expects e.2 e.1)

theorem kept_new (size : Nat) : (new size).Kept where
  holds i hi := by cases hi
  started h := absurd rfl h
  handed e he := by cases he

theorem cycle_holds {s t : queue} (h : s.cycle = some t) {i : Nat} (hi : t.waiter.holds i = true) :
    i < s.m_size ∨ s.waiter.holds i = true := by
  cases hw : s.waiter <;> simp only [queue.cycle, hw] at h <;> grind [waiter_pc.holds, set_worker]

theorem act_handed_cases {s t : queue} {a : action} (h : s.act a = some t) : t.handed = s.handed ∨
    ∃ i, a = .cycle ∧ s.waiter = .giving i ∧ t.waiter = .loading i ∧
      (t.worker i).m_current = s.raw_pkg ∧
      t.handed = s.handed ++ s.raw_pkg.toList.map fun task => (task, i) := by
  by_cases hcycle : a = .cycle
  · subst hcycle
    cases hw : s.waiter with
    | giving i =>
      simp only [queue.act, queue.cycle, hw] at h
      cases h
      refine .inr ⟨i, rfl, rfl, rfl, ?_, rfl⟩
      rw [worker_update i rfl]
      simp
    | _ =>
      left
      simp only [queue.act, queue.cycle, hw] at h
      grind [set_worker]
  · left
    by_cases hadd : a = .add_package
    · subst hadd
      cases h
      rfl
    · exact (Aside.act h hcycle hadd).handed

theorem process_inside {w w' : thread.worker} (h : w.process = some w') :
    w.pc.inside = true ∨ w.m_mutex = none := by
  cases hpc : w.pc <;> simp only [worker.process, hpc] at h <;> grind [worker_pc.inside]

/-- A worker keeps its package until it runs it. -/
theorem process_keeps {w w' : thread.worker} (h : w.process = some w') (hready : ready w)
    (hrunning : w.m_running = true) (hpc : w.pc ≠ .at_run) :
    ready w' ∧ w'.m_current = w.m_current := by
  unfold ready at hready ⊢
  cases hw : w.pc <;> simp only [worker.process, hw] at h <;> grind [worker_pc.receives]

/-- A worker whose mutex the waiter holds waits for it. -/
theorem receives_of_waiter {w : thread.worker} (hup : w.pc.up = true)
    (hinside : w.pc.inside = true → w.m_mutex = some .worker) (hmutex : w.m_mutex = some .waiter) :
    w.pc.receives = true := by
  cases hpc : w.pc <;> rw [hpc] at hup hinside <;> grind
    [worker_pc.up, worker_pc.inside, worker_pc.receives]

/-- While the queue is started only its own thread and the waiter change a worker, but for
waking it. -/
theorem act_rests {s t : queue} {a : action} (h : s.act a = some t) (hcycle : a ≠ .cycle) {i : Nat}
    (hprocess : a ≠ .process i) (hc : s.control = .started) :
    (t.worker i).m_loaded = (s.worker i).m_loaded ∧
      (t.worker i).m_current = (s.worker i).m_current ∧
      (t.worker i).m_mutex = (s.worker i).m_mutex ∧ ((t.worker i).pc = (s.worker i).pc ∨
        (s.worker i).pc = .blocked ∧ (t.worker i).pc = .woken) := by
  have hsteer : a ≠ .steer := by
    rintro rfl
    simp only [queue.act, queue.steer, hc] at h
    cases h
  by_cases hother : ∃ k, a = .process k
  · obtain ⟨k, rfl⟩ := hother
    obtain ⟨w, -, hpool⟩ := process_pool h
    have hne : i ≠ k := by
      rintro rfl
      exact hprocess rfl
    rw [worker_update k hpool, if_neg hne]
    exact ⟨rfl, rfl, rfl, .inl rfl⟩
  · push Not at hother
    have hstill := still_act h hcycle hother i
    exact ⟨hstill.m_loaded, hstill.m_current, hstill.m_mutex, (act_quiet h hsteer hother i).2⟩

theorem expects_act {s t : queue} {a : action} (hu : s.Up) (hm : s.Mutexes) (h : s.act a = some t)
    (hg : s.undisturbed a) (hc : s.control = .started) {i : Nat} (hi : i < s.m_size) {task : pkg}
    (hexp : s.expects i task) : some task ∈ t.runs ∨ t.expects i task := by
  obtain ⟨hdue, hcurrent⟩ := hexp
  have hrunning : (s.worker i).m_running = true := by
    refine hu.first i ?_
    unfold workers_up
    rwa [hc]
  have hup := hu.running i hrunning
  unfold expects
  by_cases hcycle : a = .cycle
  · subst hcycle
    right
    by_cases hload : s.waiter = .loading i
    · have hmutex := hm.holds i (by rw [hload]; simp [waiter_pc.holds])
      have hreceives := receives_of_waiter hup (hm.inside i) hmutex
      simp only [queue.act, queue.cycle, hload] at h
      cases h
      have hworker := worker_set_worker s i i { s.worker i with m_loaded := true }
      rw [if_pos rfl] at hworker
      refine ⟨.inl ?_, ?_⟩
      · change ready ((s.set_worker i _).worker i)
        rw [hworker]
        exact ⟨rfl, hreceives⟩
      · change ((s.set_worker i _).worker i).m_current = some task
        rw [hworker]
        exact hcurrent
    · obtain ⟨hloaded, hpc⟩ := hdue.resolve_right hload
      rcases cycle_worker h i with ⟨-, h1, h2, h3⟩ | ⟨hw, -⟩ | ⟨hw, -⟩
      · refine ⟨.inl ⟨h1.trans hloaded, ?_⟩, h2.trans hcurrent⟩
        rcases h3 with h3 | ⟨-, h3⟩
        · rwa [h3]
        · rw [h3]
          rfl
      · rw [hm.empty i (.inl hw)] at hloaded
        cases hloaded
      · exact absurd hw hload
  by_cases hprocess : a = .process i
  · subst hprocess
    obtain ⟨w, hw, hpool⟩ := process_pool h
    have hready : ready (s.worker i) := by
      refine hdue.resolve_right fun hload => ?_
      have hmutex := hm.holds i (by rw [hload]; simp [waiter_pc.holds])
      rcases process_inside hw with hin | hfree
      · rw [hm.inside i hin] at hmutex
        cases hmutex
      · rw [hfree] at hmutex
        cases hmutex
    by_cases hpc : (s.worker i).pc = .at_run
    · left
      obtain ⟨w', -, rfl⟩ := process_eq h
      rw [hpc, hcurrent]
      exact List.mem_append_right _ List.mem_cons_self
    · right
      obtain ⟨h1, h2⟩ := process_keeps hw hready hrunning hpc
      rw [worker_update i hpool, if_pos rfl]
      refine ⟨.inl ?_, h2.trans hcurrent⟩
      rw [worker_update i hpool, if_pos rfl]
      exact h1
  · right
    have hsteer : a ≠ .steer := by
      rintro rfl
      simp only [queue.act, queue.steer, hc] at h
      cases h
    have hwaiter : s.waiter = .loading i → t.waiter = .loading i := by
      intro hload
      by_cases hadd : a = .add_package
      · subst hadd
        cases h
        exact hload
      · rcases (Aside.act h hcycle hadd).waiter with hw | ⟨hw, -⟩ | ⟨ha, -⟩
        · rw [hw, hload]
        · rw [hw] at hload
          cases hload
        · exact absurd ha hsteer
    obtain ⟨h1, h2, -, h3⟩ := act_rests h hcycle hprocess hc
    refine ⟨hdue.imp ?_ hwaiter, h2.trans hcurrent⟩
    rintro ⟨hloaded, hpc⟩
    refine ⟨h1.trans hloaded, ?_⟩
    rcases h3 with h3 | ⟨-, h3⟩
    · rwa [h3]
    · rw [h3]
      rfl

theorem Kept.act {s t : queue} {a : action} (hs : s.Kept) (hu : s.Up) (hm : s.Mutexes)
    (h : s.act a = some t) (hg : s.undisturbed a) : t.Kept := by
  have hcontrol : s.control = .started → t.control = .started := by
    intro hc
    have hstart : a ≠ .start := by
      rintro rfl
      simp only [queue.act, hc] at h
      cases h
    have hsteer : a ≠ .steer := by
      rintro rfl
      simp only [queue.act, queue.steer, hc] at h
      cases h
    rw [(act_control h hstart hg.1 hsteer).1, hc]
  have hsize : t.m_size = s.m_size := by
    by_cases hsteer : a = .steer
    · subst hsteer
      exact (Aside.steer h).m_size
    · exact (act_size h hsteer).1
  have hgiving (i : Nat) (hw : s.waiter = .giving i) : s.control = .started := by
    rcases hu.waiter with ⟨hold, -⟩ | ⟨-, hold | ⟨hold, -⟩ | hold⟩ | ⟨hc, -⟩
    · rw [hw] at hold
      cases hold
    · rw [hw] at hold
      cases hold
    · rw [hw] at hold
      cases hold
    · rw [hw] at hold
      cases hold
    · exact hc
  have hold (e : pkg × Nat) (he : e ∈ s.handed) :
      e.2 < t.m_size ∧ (some e.1 ∈ t.runs ∨ t.expects e.2 e.1) := by
    obtain ⟨hlt, hfate⟩ := hs.handed e he
    refine ⟨hsize ▸ hlt, ?_⟩
    rcases hfate with hran | hexp
    · left
      rcases act_runs h with hruns | ⟨k, -, -, hruns⟩
      · rwa [hruns]
      · rw [hruns]
        exact List.mem_append_left _ hran
    · exact expects_act hu hm h hg (hs.started (List.ne_nil_of_mem he)) hlt hexp
  refine ⟨?_, ?_, ?_⟩
  · intro i hi
    rw [hsize]
    by_cases hcycle : a = .cycle
    · subst hcycle
      exact (cycle_holds h hi).elim id (hs.holds i)
    · exact hs.holds i (act_holds h hcycle hi ▸ hi)
  · intro hne
    rcases act_handed_cases h with hsame | ⟨i, -, hw, -⟩
    · exact hcontrol (hs.started (hsame ▸ hne))
    · exact hcontrol (hgiving i hw)
  · intro e he
    rcases act_handed_cases h with hsame | ⟨i, -, hw, hload, hcurrent, hnew⟩
    · exact hold e (hsame ▸ he)
    · rw [hnew] at he
      rcases List.mem_append.mp he with he | he
      · exact hold e he
      · obtain ⟨task, htask, rfl⟩ := List.mem_map.mp he
        refine ⟨?_, .inr ⟨.inr hload, ?_⟩⟩
        · rw [hsize]
          exact hs.holds i (holds_of_at (.inl hw))
        · rw [hcurrent]
          exact Option.mem_toList.mp htask

/-- What holds of a queue while it is not disturbed. -/
structure Going (s : queue) : Prop where
  last : s.waiter_last
  mutexes : s.Mutexes
  fresh : s.Fresh
  once : s.runs_once
  begun : s.Begun
  up : s.Up
  kept : s.Kept
  ordered : s.ordered

theorem going_new (size : Nat) : (new size).Going where
  last _ := .inl rfl
  mutexes := mutexes_new size
  fresh := fresh_new size
  once := ⟨List.not_mem_nil, List.nodup_nil⟩
  begun := begun_new size
  up := up_new size
  kept := kept_new size
  ordered := rfl

/-- The waiter leaves its loop only before it has taken a package. -/
theorem Up.leaves_empty_handed {s : queue} (hs : s.Up) (a : action) : s.leaves_empty_handed a := by
  intro _ hw hrunning
  have hc : s.control ≠ .started := by
    intro hc
    rw [hs.m_running.mpr hc] at hrunning
    cases hrunning
  rcases hs.waiter with ⟨hold, -⟩ | ⟨-, hold | ⟨-, hraw⟩ | hold⟩ | ⟨hold, -⟩
  · rcases hw with hw | hw <;> rw [hw] at hold <;> cases hold
  · rcases hw with hw | hw <;> rw [hw] at hold <;> cases hold
  · exact hraw
  · rcases hw with hw | hw <;> rw [hw] at hold <;> cases hold
  · exact absurd hold hc

theorem Going.act {s t : queue} {a : action} (hs : s.Going) (h : s.act a = some t)
    (hg : s.undisturbed a) : t.Going where
  last := waiter_last_act h hs.last
  mutexes := hs.mutexes.act h
  fresh := hs.fresh.act hs.mutexes hs.last h hg.2
  once := hs.fresh.runs_once hs.once h hg.2
  begun := hs.begun.act h
  up := hs.up.act hs.begun hs.fresh h hg
  kept := hs.kept.act hs.up hs.mutexes h hg
  ordered := act_ordered hs.last h hs.ordered (hs.up.leaves_empty_handed a)

theorem reachable_going {s : queue} (h : transition.Reachable (queues.guarded undisturbed) s) :
    s.Going := by
  refine h.keeps (P := Going) ?_ ?_
  · rintro s ⟨size, rfl⟩
    exact going_new size
  · rintro s a t hs ⟨hg, ha⟩
    exact hs.act ha hg

/-! ## Packages that are being run -/

theorem process_busy {w w' : thread.worker} (h : w.process = some w') (hw' : w'.pc = .busy) :
    w.pc = .at_run ∧ w.m_current ≠ none ∧ w'.m_current = w.m_current := by
  cases hpc : w.pc <;> simp only [worker.process, hpc] at h <;> grind

/-- A worker is busy with the package that it came to run, until it goes on itself. -/
theorem act_busy {s t : queue} {a : action} (hm : s.Mutexes) (h : s.act a = some t) {i : Nat}
    (hi : (t.worker i).pc = .busy) : (t.worker i).m_current = (s.worker i).m_current ∧
      ((s.worker i).pc = .busy ∧ a ≠ .process i ∨
        a = .process i ∧ (s.worker i).pc = .at_run ∧ (s.worker i).m_current ≠ none) := by
  by_cases hprocess : a = .process i
  · subst hprocess
    obtain ⟨w, hw, hpool⟩ := process_pool h
    rw [worker_update i hpool, if_pos rfl] at hi ⊢
    obtain ⟨h1, h2, h3⟩ := process_busy hw hi
    exact ⟨h3, .inr ⟨rfl, h1, h2⟩⟩
  by_cases hcycle : a = .cycle
  · subst hcycle
    rcases cycle_worker h i with ⟨-, -, hcurrent, hpc | ⟨-, hpc⟩⟩ | ⟨hw, ht⟩ | ⟨-, ht⟩
    · exact ⟨hcurrent, .inl ⟨hpc ▸ hi, hprocess⟩⟩
    · rw [hpc] at hi
      cases hi
    · rw [ht] at hi
      have hinside := hm.inside i (by rw [show (s.worker i).pc = .busy from hi]; rfl)
      rw [hm.holds i (holds_of_at (.inl hw))] at hinside
      cases hinside
    · rw [ht] at hi ⊢
      exact ⟨rfl, .inl ⟨hi, hprocess⟩⟩
  by_cases hother : ∃ k, a = .process k
  · obtain ⟨k, rfl⟩ := hother
    obtain ⟨w, -, hpool⟩ := process_pool h
    have hne : i ≠ k := by
      rintro rfl
      exact hprocess rfl
    rw [worker_update k hpool, if_neg hne] at hi ⊢
    exact ⟨rfl, .inl ⟨hi, hprocess⟩⟩
  · push Not at hother
    have hstill := still_act h hcycle hother i
    refine ⟨hstill.m_current, .inl ⟨?_, hprocess⟩⟩
    rcases hstill.pc with hpc | hpc | ⟨-, hpc⟩
    · rwa [hpc] at hi
    · rw [hpc] at hi
      cases hi
    · rw [hpc] at hi
      cases hi

/-- A worker that is busy stays so until it goes on itself. -/
theorem act_stays_busy {s t : queue} {a : action} (hm : s.Mutexes) (h : s.act a = some t) {i : Nat}
    (hi : (s.worker i).pc = .busy) (hprocess : a ≠ .process i) (hc : s.control = .started) :
    (t.worker i).pc = .busy ∧ (t.worker i).m_current = (s.worker i).m_current := by
  by_cases hcycle : a = .cycle
  · subst hcycle
    have hinside := hm.inside i (by rw [hi]; rfl)
    rcases cycle_worker h i with ⟨-, -, hcurrent, hpc | ⟨hpc, -⟩⟩ | ⟨hw, -⟩ | ⟨hw, -⟩
    · exact ⟨hpc.trans hi, hcurrent⟩
    · rw [hi] at hpc
      cases hpc
    · rw [hm.holds i (holds_of_at (.inl hw))] at hinside
      cases hinside
    · rw [hm.holds i (holds_of_at (.inr hw))] at hinside
      cases hinside
  · obtain ⟨-, hcurrent, -, hpc | ⟨hpc, -⟩⟩ := act_rests h hcycle hprocess hc
    · exact ⟨hpc.trans hi, hcurrent⟩
    · rw [hi] at hpc
      cases hpc

/-- A worker that comes to run its package is busy with it. -/
theorem process_begins_run {s t : queue} {i : Nat} (h : s.process i = some t)
    (hpc : (s.worker i).pc = .at_run) (hcurrent : (s.worker i).m_current ≠ none) :
    (t.worker i).pc = .busy ∧ (t.worker i).m_current = (s.worker i).m_current ∧
      t.runs = s.runs ++ [(s.worker i).m_current] := by
  obtain ⟨w, hw, rfl⟩ := process_eq h
  simp only [worker.process, hpc, if_neg hcurrent, Option.some.injEq] at hw
  subst hw
  rw [hpc]
  refine ⟨?_, ?_, rfl⟩
  · rw [worker_update i rfl, if_pos rfl]
  · rw [worker_update i rfl, if_pos rfl]

/-! ## Where the packages are -/

instance (w : thread.worker) : Decidable (ready w) := inferInstanceAs (Decidable (_ ∧ _))

instance (s : queue) (i : Nat) : Decidable (s.due i) := inferInstanceAs (Decidable (_ ∨ _))

/-- The packages that the workers are to run next. -/
def with_workers (s : queue) : List pkg :=
  (List.range s.m_size).filterMap fun i => if s.due i then (s.worker i).m_current else none

theorem mem_with_workers {s : queue} {task : pkg} :
    task ∈ s.with_workers ↔ ∃ i < s.m_size, s.expects i task := by
  simp only [with_workers, List.mem_filterMap, List.mem_range,
    Option.ite_none_right_eq_some, expects]

/-- A package that a worker is to run next was handed to it, and has not been run. -/
theorem Fresh.of_expects {s : queue} (hs : s.Fresh) {i : Nat} {task : pkg} (h : s.expects i task) :
    (task, i) ∈ s.handed ∧ some task ∉ s.runs := by
  obtain ⟨task', hcurrent, hhanded, hrun⟩ := hs.due i h.1
  rw [h.2] at hcurrent
  cases hcurrent
  exact ⟨hhanded, hrun⟩

theorem Going.handed_perm {s : queue} (hs : s.Going) :
    (s.runs ++ s.with_workers.map some).Perm ((s.handed.map Prod.fst).map some) := by
  have hnodup : (s.handed.map Prod.fst).Nodup := hs.fresh.apart.sublist
    (List.sublist_append_left _ _)
  have hinj : Function.Injective (some : pkg → Option pkg) := fun _ _ h => Option.some.inj h
  have hworkers : s.with_workers.Nodup := by
    refine List.Nodup.filterMap (fun i j task hi hj => ?_) List.nodup_range
    simp only [Option.mem_def, Option.ite_none_right_eq_some] at hi hj
    exact hs.fresh.worker_eq (hs.fresh.of_expects hi).1 (hs.fresh.of_expects hj).1
  refine (List.perm_ext_iff_of_nodup ?_ (hnodup.map hinj)).mpr fun x => ?_
  · refine List.nodup_append.mpr ⟨hs.once.2, hworkers.map hinj, ?_⟩
    rintro x hx y hy rfl
    obtain ⟨task, htask, rfl⟩ := List.mem_map.mp hy
    obtain ⟨i, -, hexp⟩ := mem_with_workers.mp htask
    exact (hs.fresh.of_expects hexp).2 hx
  · constructor
    · intro hx
      rcases List.mem_append.mp hx with hx | hx
      · cases x with
        | none => exact absurd hx hs.once.1
        | some task => exact List.mem_map_of_mem (hs.fresh.ran task hx)
      · obtain ⟨task, htask, rfl⟩ := List.mem_map.mp hx
        obtain ⟨i, -, hexp⟩ := mem_with_workers.mp htask
        exact List.mem_map_of_mem (List.mem_map_of_mem (hs.fresh.of_expects hexp).1)
    · intro hx
      obtain ⟨task, htask, rfl⟩ := List.mem_map.mp hx
      obtain ⟨e, he, rfl⟩ := List.mem_map.mp htask
      obtain ⟨hlt, hran | hexp⟩ := hs.kept.handed e he
      · exact List.mem_append_left _ hran
      · exact List.mem_append_right _ (List.mem_map_of_mem (mem_with_workers.mpr ⟨e.2, hlt, hexp⟩))

/-- In the runs in which the queue is not stopped and no worker comes back from its wait to
run a package without one loaded, every package that was added waits in the pump, is in the
waiter's hand, is what a worker runs next, or was run, and is in one of these places once. -/
theorem each_package_is_run_or_on_its_way {s : queue}
    (h : transition.Reachable (queues.guarded undisturbed) s) :
    (s.runs ++ (s.with_workers ++ (s.hand.toList ++ s.m_pump.m_queue)).map some).Perm
      ((List.range s.added).map some) := by
  have hs := reachable_going h
  have hsplit := hs.ordered
  unfold queue.ordered places at hsplit
  rw [← hsplit]
  simp only [List.map_append, ← List.append_assoc]
  exact (hs.handed_perm.append_right _).append_right _

theorem a_package_is_on_its_way :
    ∃ s, transition.Reachable (queues.guarded undisturbed) s ∧
      (s.runs = [some 0] ∧ s.m_pump.m_queue = [1]) ∧
      (s.runs ++ (s.with_workers ++ (s.hand.toList ++ s.m_pump.m_queue)).map some).Perm
        ((List.range s.added).map some) := by
  have hrun : ((run_first ++ [action.add_package]).foldlM
      (fun s a => if undisturbed s a then s.act a else none) (new 1)).any
      (fun s => decide (s.runs = [some 0] ∧ s.m_pump.m_queue = [1])) = true := by
    decide +kernel
  obtain ⟨s, hs, hq⟩ := reachable_guarded 1 (run_first ++ [action.add_package]) hrun
  exact ⟨s, hs, hq, each_package_is_run_or_on_its_way hs⟩

end queue

end strangeio.thread
