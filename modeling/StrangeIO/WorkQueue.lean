-- The queue of work packages: its pump, its pool of workers, and the waiter
-- that hands the packages to them (threads/queue.cpp, pool.cpp, worker.cpp,
-- pump.cpp). Each action is one step of one thread.
import Mathlib.Data.List.Nodup
import Mathlib.Logic.Function.Basic
import StrangeIO.Transition

namespace strangeio.thread

/-! ## The pump -/

/-- A package, named by its place in the order in which they were added. -/
abbrev pkg := Nat

/-- The packages that wait. Its mutex makes one step of each call. -/
structure pump where
  m_queue : List pkg
  m_load : Nat
  counted : m_load = m_queue.length

namespace pump

def new : pump where
  m_queue := []
  m_load := 0
  counted := rfl

def add_package (task : pkg) (p : pump) : pump where
  m_queue := p.m_queue ++ [task]
  m_load := p.m_load + 1
  counted := by rw [p.counted, List.length_append, List.length_singleton]

/-- The first package, if there is one, and the pump without it. -/
def next_package (p : pump) : Option pkg × pump :=
  if 0 < p.m_queue.length then
    (p.m_queue.head?,
      { m_queue := p.m_queue.tail
        m_load := p.m_load - 1
        counted := by rw [p.counted, List.length_tail] })
  else (none, p)

def get_load (p : pump) : Nat := p.m_load

theorem next_package_eq (p : pump) :
    p.m_queue = p.next_package.1.toList ++ p.next_package.2.m_queue := by
  unfold next_package
  split
  · rename_i h
    have hsplit : p.m_queue.head?.toList ++ p.m_queue.tail = p.m_queue := by
      obtain ⟨task, rest, hq⟩ := List.exists_cons_of_length_pos h
      rw [hq]
      rfl
    exact hsplit.symm
  · rfl

end pump

/-! ## A worker -/

/-- Who holds the mutex of a worker: its own thread, or the waiter. -/
inductive holder where
  | worker
  | waiter
deriving DecidableEq, Repr

/-- Where the thread of a worker is: the statement that it comes to next. -/
inductive worker_pc where
  | unstarted
  | created
  | clearing
  | activating
  | starting
  | at_loop
  | at_wait
  | blocked
  | woken
  | at_check
  | at_run
  | busy
  | finishing
  | at_ready
  | exited
  | undefined
deriving DecidableEq, Repr

structure worker where
  m_running : Bool
  m_loaded : Bool
  m_active : Bool
  m_current : Option pkg
  m_mutex : Option holder
  pc : worker_pc
deriving DecidableEq, Repr

namespace worker

def new : worker where
  m_running := false
  m_loaded := false
  m_active := false
  m_current := none
  m_mutex := none
  pc := .unstarted

/-- The next step of the worker's thread, which has none where it is blocked,
waits for its mutex or has ended. -/
def process (w : worker) : Option worker :=
  match w.pc with
  | .unstarted => none
  | .created =>
    if w.m_mutex = none then some { w with m_mutex := some .worker, pc := .clearing } else none
  | .clearing => some { w with m_loaded := false, pc := .activating }
  | .activating => some { w with m_active := true, pc := .starting }
  | .starting => some { w with m_running := true, pc := .at_loop }
  | .at_loop =>
    if w.m_running then some { w with pc := .at_wait }
    else some { w with m_mutex := none, pc := .exited }
  | .at_wait => some { w with m_mutex := none, pc := .blocked }
  | .blocked => none
  | .woken =>
    if w.m_mutex = none then some { w with m_mutex := some .worker, pc := .at_check } else none
  | .at_check =>
    if w.m_running then some { w with pc := .at_run }
    else some { w with m_current := none, m_mutex := none, pc := .exited }
  | .at_run =>
    -- what the run of a null package does, nothing says
    if w.m_current = none then some { w with pc := .undefined } else some { w with pc := .busy }
  | .busy => some { w with pc := .finishing }
  | .finishing => some { w with m_loaded := false, pc := .at_ready }
  | .at_ready => some { w with pc := .at_loop }
  | .exited => none
  | .undefined => none

/-- A wait of the worker returns, whether it was notified or not. -/
def wake (w : worker) : worker := if w.pc = .blocked then { w with pc := .woken } else w

end worker

/-! ## The queue -/

/-- Where the waiter is: the statement of `cycle` that it comes to next, or of
`assign` and of what it calls for the worker of the index. -/
inductive waiter_pc where
  | unstarted
  | created
  | at_loop
  | at_load
  | at_wait
  | blocked
  | woken
  | at_check
  | at_take
  | at_hand
  | trying (i : Nat)
  | testing (i : Nat)
  | giving (i : Nat)
  | loading (i : Nat)
  | unlocking (i : Nat)
  | notifying (i : Nat)
  | at_clear
  | exited
deriving DecidableEq, Repr

/-- Where the thread is that starts and stops the queue. -/
inductive control_pc where
  | stopped
  | deactivating
  | initing
  | starting (i : Nat)
  | spawning (i : Nat)
  | awaiting (i : Nat)
  | at_waiter
  | at_running
  | started
  | stopping (i : Nat)
  | halting (i : Nat)
  | calling (i : Nat)
  | joining (i : Nat)
  | at_stop
  | at_notify
  | at_join
deriving DecidableEq, Repr

/-- While `start` has yet to come to it there is no waiter. -/
def control_pc.waiterless : control_pc → Bool
  | .stopped | .deactivating | .initing | .starting _ | .spawning _ | .awaiting _ | .at_waiter =>
    true
  | _ => false

/-- The vector of the workers is a function with its length. -/
structure pool where
  m_size : Nat
  m_pool : Nat → worker
  length : Nat
  m_running : Bool

/-- `notifying` counts the calls of `add_package` that have yet to notify. The
last three fields only keep books: how many packages were added, which were
handed to which worker, and what the workers ran. -/
structure queue where
  m_pool : pool
  m_pump : pump
  m_running : Bool
  m_active : Bool
  m_size : Nat
  raw_pkg : Option pkg
  waiter : waiter_pc
  control : control_pc
  notifying : Nat
  added : Nat
  handed : List (pkg × Nat)
  runs : List (Option pkg)

namespace queue

def new (size : Nat) : queue where
  m_pool := { m_size := size, m_pool := fun _ => worker.new, length := 0, m_running := false }
  m_pump := pump.new
  m_running := false
  m_active := false
  m_size := size
  raw_pkg := none
  waiter := .unstarted
  control := .stopped
  notifying := 0
  added := 0
  handed := []
  runs := []

def worker (s : queue) (i : Nat) : thread.worker := s.m_pool.m_pool i

/-- A change of one worker. -/
def set_worker (i : Nat) (w : thread.worker) (s : queue) : queue :=
  { s with m_pool := { s.m_pool with m_pool := Function.update s.m_pool.m_pool i w } }

/-- `m_cycle_condition` is notified. -/
def notify (s : queue) : queue :=
  if s.waiter = .blocked then { s with waiter := .woken } else s

/-! ## The steps of the workers -/

/-- A step of a worker's thread, with what it means to the queue. -/
def process (i : Nat) (s : queue) : Option queue :=
  (s.worker i).process.map fun w =>
    let s' := s.set_worker i w
    match (s.worker i).pc with
    | .at_run => { s' with runs := s.runs ++ [(s.worker i).m_current] }
    | .at_ready => s'.notify
    | _ => s'

/-! ## The steps of the waiter -/

/-- The next step of the waiter. Its `raw_pkg` is gone once it has left the loop. -/
def cycle (s : queue) : Option queue :=
  match s.waiter with
  | .unstarted => none
  | .created => some { s with m_active := true, raw_pkg := none, waiter := .at_loop }
  | .at_loop => some { s with waiter := if s.m_running then .at_load else .exited }
  | .at_load =>
    some { s with waiter := if s.m_pump.get_load = 0 then .at_wait else .at_check }
  | .at_wait => some { s with waiter := .blocked }
  | .blocked => none
  | .woken => some { s with waiter := .at_check }
  | .at_check => some { s with waiter := if s.m_running then .at_take else .exited }
  | .at_take =>
    if s.raw_pkg = none then
      let (task, pump) := s.m_pump.next_package
      some { s with m_pump := pump, raw_pkg := task, waiter := .at_hand }
    else some { s with waiter := .at_hand }
  | .at_hand =>
    some { s with waiter := if s.raw_pkg = none then .at_loop else .trying 0 }
  | .trying i =>
    if i < s.m_size then
      if (s.worker i).m_mutex = none then
        some { s.set_worker i { s.worker i with m_mutex := some .waiter }
          with waiter := .testing i }
      else some { s with waiter := .trying (i + 1) }
    else some { s with waiter := .at_loop }
  | .testing i =>
    if (s.worker i).m_loaded then
      some { s.set_worker i { s.worker i with m_mutex := none } with waiter := .trying (i + 1) }
    else some { s with waiter := .giving i }
  | .giving i =>
    some { s.set_worker i { s.worker i with m_current := s.raw_pkg } with
      handed := s.handed ++ s.raw_pkg.toList.map fun task => (task, i)
      waiter := .loading i }
  | .loading i =>
    some { s.set_worker i { s.worker i with m_loaded := true } with waiter := .unlocking i }
  | .unlocking i =>
    some { s.set_worker i { s.worker i with m_mutex := none } with waiter := .notifying i }
  | .notifying i => some { s.set_worker i (s.worker i).wake with waiter := .at_clear }
  | .at_clear => some { s with raw_pkg := none, waiter := .at_loop }
  | .exited => none

/-! ## The steps of start and stop -/

/-- A step of `start` or `stop`, which wait for the threads that they start and stop. -/
def steer (s : queue) : Option queue :=
  match s.control with
  | .stopped => none
  | .deactivating => some { s with m_active := false, control := .initing }
  | .initing =>
    some { s with
      m_pool := { s.m_pool with length := s.m_pool.length + s.m_pool.m_size }
      control := .starting 0 }
  | .starting i =>
    if i < s.m_pool.length then
      if (s.worker i).m_active then some { s with control := .awaiting i }
      else
        some { s.set_worker i { s.worker i with m_running := false } with control := .spawning i }
    else some { s with m_pool := { s.m_pool with m_running := true }, control := .at_waiter }
  | .spawning i =>
    some { s.set_worker i { s.worker i with pc := .created } with control := .awaiting i }
  | .awaiting i =>
    if (s.worker i).m_running then some { s with control := .starting (i + 1) } else none
  | .at_waiter => some { s with waiter := .created, control := .at_running }
  | .at_running => some { s with m_running := true, control := .started }
  | .started => none
  | .stopping i =>
    if i < s.m_pool.length then
      if (s.worker i).m_active then some { s with control := .halting i }
      else some { s with control := .stopping (i + 1) }
    else some { s with m_pool := { s.m_pool with m_running := false }, control := .at_stop }
  | .halting i =>
    some { s.set_worker i { s.worker i with m_running := false } with control := .calling i }
  | .calling i => some { s.set_worker i (s.worker i).wake with control := .joining i }
  | .joining i =>
    if (s.worker i).pc = .exited then
      some { s.set_worker i { s.worker i with m_active := false }
        with control := .stopping (i + 1) }
    else none
  | .at_stop => some { s with m_running := false, control := .at_notify }
  | .at_notify => some { s.notify with control := .at_join }
  | .at_join =>
    if s.waiter = .exited then some { s with m_active := false, control := .stopped } else none

/-! ## The actions -/

inductive action where
  | start
  | stop
  | steer
  | add_package
  | notify
  | cycle
  | wake
  | process (i : Nat)
  | wake_worker (i : Nat)
deriving DecidableEq, Repr

/-- One step: a call of `start` or `stop` and its steps, the two steps of an
`add_package`, a step of the waiter or of a worker, or a wait of either that
returns without a notification. -/
def act (s : queue) : action → Option queue
  | .start => if s.control = .stopped then some { s with control := .deactivating } else none
  | .stop =>
    if s.control = .started then
      some { s with control := if s.m_pool.m_running then .stopping 0 else .at_stop }
    else none
  | .steer => s.steer
  | .add_package =>
    some { s with
      m_pump := s.m_pump.add_package s.added
      added := s.added + 1
      notifying := s.notifying + 1 }
  | .notify =>
    if 0 < s.notifying then some { s.notify with notifying := s.notifying - 1 } else none
  | .cycle => s.cycle
  | .wake => if s.waiter = .blocked then some { s with waiter := .woken } else none
  | .process i => s.process i
  | .wake_worker i =>
    if (s.worker i).pc = .blocked then some (s.set_worker i (s.worker i).wake) else none

/-! ## What the waiter finds -/

@[simp] theorem worker_set_worker (s : queue) (i j : Nat) (w : thread.worker) :
    (s.set_worker i w).worker j = if j = i then w else s.worker j := by
  unfold set_worker worker
  exact Function.update_apply _ _ _ _

/-- What a step of the other threads leaves to the waiter, which it may wake or start. -/
structure Aside (a : action) (s t : queue) : Prop where
  m_size : t.m_size = s.m_size
  m_pump : t.m_pump = s.m_pump
  raw_pkg : t.raw_pkg = s.raw_pkg
  handed : t.handed = s.handed
  added : t.added = s.added
  waiter : t.waiter = s.waiter ∨ s.waiter = .blocked ∧ t.waiter = .woken ∨
    a = .steer ∧ s.control = .at_waiter ∧ t.waiter = .created

theorem Aside.notify (a : action) (s : queue) : Aside a s s.notify := by
  unfold queue.notify
  split
  · rename_i h
    exact ⟨rfl, rfl, rfl, rfl, rfl, .inr (.inl ⟨h, rfl⟩)⟩
  · exact ⟨rfl, rfl, rfl, rfl, rfl, .inl rfl⟩

theorem process_eq {s t : queue} {i : Nat} (h : s.process i = some t) :
    ∃ w, (s.worker i).process = some w ∧
      t = match (s.worker i).pc with
        | .at_run => { s.set_worker i w with runs := s.runs ++ [(s.worker i).m_current] }
        | .at_ready => (s.set_worker i w).notify
        | _ => s.set_worker i w := by
  obtain ⟨w, hw, ht⟩ := Option.map_eq_some_iff.mp h
  exact ⟨w, hw, ht.symm⟩

theorem Aside.process (a : action) {s t : queue} {i : Nat} (h : s.process i = some t) :
    Aside a s t := by
  obtain ⟨w, -, rfl⟩ := process_eq h
  split
  · exact ⟨rfl, rfl, rfl, rfl, rfl, .inl rfl⟩
  · have hn := Aside.notify a (s.set_worker i w)
    exact ⟨hn.m_size, hn.m_pump, hn.raw_pkg, hn.handed, hn.added, hn.waiter⟩
  · exact ⟨rfl, rfl, rfl, rfl, rfl, .inl rfl⟩

theorem Aside.steer {s t : queue} (h : s.steer = some t) : Aside .steer s t := by
  have hkept : t.m_size = s.m_size ∧ t.m_pump = s.m_pump ∧ t.raw_pkg = s.raw_pkg ∧
      t.handed = s.handed ∧ t.added = s.added ∧ (t.waiter = s.waiter ∨
        s.waiter = .blocked ∧ t.waiter = .woken ∨ s.control = .at_waiter ∧
          t.waiter = .created) := by
    unfold queue.steer queue.notify set_worker at h
    grind
  obtain ⟨h1, h2, h3, h4, h5, h6⟩ := hkept
  exact ⟨h1, h2, h3, h4, h5, by simpa using h6⟩

theorem Aside.act {s t : queue} {a : action} (h : s.act a = some t) (hcycle : a ≠ .cycle)
    (hadd : a ≠ .add_package) : Aside a s t := by
  cases a with
  | cycle => exact absurd rfl hcycle
  | add_package => exact absurd rfl hadd
  | steer => exact Aside.steer h
  | process i => exact Aside.process _ h
  | start =>
    simp only [queue.act] at h
    split at h
    · cases h
      exact ⟨rfl, rfl, rfl, rfl, rfl, .inl rfl⟩
    · cases h
  | stop =>
    simp only [queue.act] at h
    split at h
    · cases h
      exact ⟨rfl, rfl, rfl, rfl, rfl, .inl rfl⟩
    · cases h
  | notify =>
    simp only [queue.act] at h
    split at h
    · cases h
      have hn := Aside.notify .notify s
      exact ⟨hn.m_size, hn.m_pump, hn.raw_pkg, hn.handed, hn.added, hn.waiter⟩
    · cases h
  | wake =>
    simp only [queue.act] at h
    split at h
    · rename_i hpc
      cases h
      exact ⟨rfl, rfl, rfl, rfl, rfl, .inr (.inl ⟨hpc, rfl⟩)⟩
    · cases h
  | wake_worker i =>
    simp only [queue.act] at h
    split at h
    · cases h
      exact ⟨rfl, rfl, rfl, rfl, rfl, .inl rfl⟩
    · cases h

/-- Only a call of `start` or `stop` moves on in them, and starts and stops the waiter. -/
theorem act_control {s t : queue} {a : action} (h : s.act a = some t) (hstart : a ≠ .start)
    (hstop : a ≠ .stop) (hsteer : a ≠ .steer) :
    t.control = s.control ∧ t.m_running = s.m_running := by
  cases a with
  | start => exact absurd rfl hstart
  | stop => exact absurd rfl hstop
  | steer => exact absurd rfl hsteer
  | cycle =>
    simp only [act, cycle, set_worker] at h
    grind
  | process i =>
    obtain ⟨w, -, rfl⟩ := process_eq h
    unfold queue.notify set_worker
    grind
  | _ =>
    simp only [act, queue.notify, set_worker] at h
    grind

theorem cycle_gone {s t : queue} (h : s.cycle = some t) :
    s.waiter ≠ .unstarted ∧ s.waiter ≠ .exited := by
  unfold cycle at h
  grind

def waiter_last (s : queue) : Prop :=
  s.control.waiterless = true → s.waiter = .unstarted ∨ s.waiter = .exited

theorem waiter_last_steer {s t : queue} (h : s.steer = some t) (hs : s.waiter_last) :
    t.waiter_last := by
  unfold steer notify set_worker at h
  unfold waiter_last control_pc.waiterless at hs ⊢
  grind

theorem waiter_last_act {s t : queue} {a : action} (h : s.act a = some t) (hs : s.waiter_last) :
    t.waiter_last := by
  by_cases hsteer : a = .start ∨ a = .stop ∨ a = .steer
  · rcases hsteer with rfl | rfl | rfl
    · simp only [act] at h
      split at h
      · rename_i hc
        cases h
        intro _
        exact hs (by rw [hc]; rfl)
      · cases h
    · simp only [act] at h
      split at h
      · cases h
        intro hw
        simp only at hw
        split at hw <;> cases hw
      · cases h
    · exact waiter_last_steer h hs
  · push Not at hsteer
    obtain ⟨hstart, hstop, hsteer⟩ := hsteer
    have hcontrol := (act_control h hstart hstop hsteer).1
    intro hw
    rw [hcontrol] at hw
    have hgone := hs hw
    by_cases hcycle : a = .cycle
    · subst hcycle
      obtain ⟨h1, h2⟩ := cycle_gone h
      exact absurd hgone (by simp [h1, h2])
    · by_cases hadd : a = .add_package
      · subst hadd
        cases h
        exact hgone
      · rcases (Aside.act h hcycle hadd).waiter with hsame | ⟨hb, -⟩ | ⟨ha, -⟩
        · rwa [hsame]
        · rw [hb] at hgone
          simp at hgone
        · exact absurd ha hsteer

end queue

/-- The runs of a queue of any size. -/
def queues : transition.System queue queue.action :=
  transition.machine (fun s => ∃ size, s = queue.new size) queue.act

/-- A queue of one worker is started, and the worker waits. -/
def queue.start_one : List queue.action :=
  List.flatten [
    [.start, .steer, .steer, .steer, .steer],
    List.replicate 4 (.process 0),
    [.steer, .steer, .steer, .steer, .process 0, .process 0]]

theorem queue.reachable {Q : queue → Prop} [DecidablePred Q] (size : Nat) (as : List queue.action)
    (h : (as.foldlM queue.act (queue.new size)).any (fun s => Q s) = true) :
    ∃ s, transition.Reachable queues s ∧ Q s :=
  transition.Reachable.machine (queue.new size) ⟨size, rfl⟩ as h

theorem queue.reachable_guarded {G : queue → queue.action → Prop} {Q : queue → Prop}
    [∀ s a, Decidable (G s a)] [DecidablePred Q] (size : Nat) (as : List queue.action)
    (h : (as.foldlM (fun s a => if G s a then s.act a else none) (queue.new size)).any
      (fun s => Q s) = true) :
    ∃ s, transition.Reachable (queues.guarded G) s ∧ Q s :=
  transition.Reachable.machine_guarded (queue.new size) ⟨size, rfl⟩ as h

end strangeio.thread
