-- The list of the event loop (events/loop.cpp) in memory: its nodes, its three
-- pointers and the party that is to go on with it, and how `add_event` keeps these.
import StrangeIO.EventLoop
import StrangeIO.Linked
import StrangeIO.Shared

namespace strangeio.event

/-! ## Where the calls and the tasks are -/

/-- The call holds `m_tail_mutex`. -/
def add_pc.locks : add_pc → Bool
  | .at_test _ | .first_ptr _ | .first_tail _ | .first_head _ => true
  | .set_next _ | .set_tail _ | .set_ptr _ | .at_unlock _ => true
  | _ => false

/-- A task is due: the call has put the first event on the list, and has yet to add the task. -/
def add_pc.due : add_pc → Bool
  | .first_tail _ | .first_head _ | .at_unlock true | .at_task true => true
  | _ => false

/-- The node that the call has yet to link in. -/
def add_pc.item : add_pc → Option addr
  | .at_lock a | .at_test a | .first_ptr a | .set_next a => some a
  | _ => none

/-- The task holds `m_tail_mutex`. -/
def cycle_pc.locks : cycle_pc → Bool
  | .at_recheck _ _ | .reset_ptr _ _ | .reset_tail _ _ | .reset_head _ _ | .at_unlock _ _ => true
  | _ => false

/-- The task is queued or running. -/
def cycle_pc.active : cycle_pc → Bool
  | .unsubmitted | .finished => false
  | _ => true

/-- The task calls the listeners of an event, or is in one of them. -/
def cycle_pc.delivers : cycle_pc → Bool
  | .calling _ _ _ | .inside _ _ _ => true
  | _ => false

/-- Where a task may be once it has begun to reset the list. -/
def cycle_pc.closing : cycle_pc → Bool
  | .reset_tail _ _ | .reset_head _ _ | .at_unlock _ _ | .at_next _ _ => true
  | .at_delete _ none | .at_loop none | .finished => true
  | _ => false

/-- The task is queued, or runs and has not begun to reset the list. -/
def task.pending (u : task) : Bool := u.pc.active && !u.reset

/-- The node that the task has still to delete and that the list has no more. -/
def task.left (u : task) : Option addr :=
  match u.pc with
  | .at_delete node _ | .reset_tail node _ | .reset_head node _ => some node
  | .at_unlock node _ | .at_next node _ => if u.reset then some node else none
  | _ => none

namespace loop

/-- What a party's own place in the code says. -/
def look {β : Type} (f : add_pc → β) (g : task → β) (s : loop) : party → β
  | .add c => f (s.add c)
  | .task t => g (s.tasks t)

def locks (s : loop) : party → Bool := s.look add_pc.locks fun u => u.pc.locks

/-- A task for the list is due, queued, or running before its reset. -/
def outstanding (s : loop) : party → Bool := s.look add_pc.due task.pending

/-- The node that is the party's alone. -/
def owns (s : loop) : party → Option addr := s.look add_pc.item task.left

theorem look_add {β : Type} (f : add_pc → β) (g : task → β) {s t : loop} {c : caller} {pc : add_pc}
    (hadd : t.add = Function.update s.add c pc) (htasks : t.tasks = s.tasks) :
    t.look f g = Function.update (s.look f g) (.add c) (f pc) := by
  funext x
  cases x with
  | add d =>
    by_cases hd : d = c
    · subst hd
      simp [look, hadd]
    · simp [look, hadd, hd]
  | task u => simp [look, htasks]

theorem look_task {β : Type} (f : add_pc → β) (g : task → β) {s t : loop} {u : Nat} {v : task}
    (hadd : t.add = s.add) (htasks : t.tasks = Function.update s.tasks u v) :
    t.look f g = Function.update (s.look f g) (.task u) (g v) := by
  funext x
  cases x with
  | add d => simp [look, hadd]
  | task w =>
    by_cases hw : w = u
    · subst hw
      simp [look, htasks]
    · simp [look, htasks, hw]

/-! ## The invariant -/

/-- The node of each event that is on the list, with what its `ptr` is. -/
def cells (nodes : List (addr × msg)) : List (addr × Option msg) :=
  nodes.map fun node => (node.1, some node.2)

/-- The calls for the first `k` listeners of an event. -/
def calls_of (m : msg) (k : Nat) : List (msg × Nat) := (List.range k).map fun i => (m, i)

/-- What the loop is for: each event to each of its listeners, in order. -/
def deliveries (s : loop) (events : List msg) : List (msg × Nat) :=
  events.flatMap fun m => calls_of m (s.listeners m.type)

/-- A node that is a party's own: the call's has its message and points
nowhere, and so does the last node of a task that has reset the list. -/
def Content (s : loop) (a : addr) : party → Prop
  | .add _ => ∃ m, s.heap a = some { ptr := some m, next := none }
  | .task t => ∃ node, s.heap a = some node ∧ ((s.tasks t).reset = true → node.next = none)

/-- The three pointers agree with the list. -/
structure Steady (s : loop) (nodes : List (addr × msg)) : Prop where
  m_tail : s.m_tail = nodes.getLast?.map Prod.fst
  m_tail_ptr : s.m_tail_ptr = nodes.getLast?.map Prod.fst
  m_head : s.m_head = none ↔ nodes = []

/-- How far a call that holds the mutex has come with the three pointers. -/
def AddTail (s : loop) (nodes : List (addr × msg)) : add_pc → Prop
  | .first_ptr _ => s.Steady nodes ∧ nodes = []
  | .first_tail a => s.m_tail_ptr = some a ∧ ∃ m, nodes = [(a, m)]
  | .first_head a => s.m_tail = some a ∧ s.m_tail_ptr = some a ∧ ∃ m, nodes = [(a, m)]
  | .set_next _ => s.Steady nodes ∧ nodes ≠ []
  | .set_tail a =>
    s.m_head ≠ none ∧ ∃ init b m n, nodes = init ++ [(b, n), (a, m)] ∧ s.m_tail_ptr = some b
  | .set_ptr a =>
    s.m_tail = some a ∧ s.m_head ≠ none ∧
      ∃ init b m n, nodes = init ++ [(b, n), (a, m)] ∧ s.m_tail_ptr = some b
  | _ => s.Steady nodes

/-- The same of a task that holds it. -/
def TaskTail (s : loop) (nodes : List (addr × msg)) : cycle_pc → Prop
  | .reset_ptr a _ => s.Steady nodes ∧ ∃ m, nodes = [(a, m)]
  | .reset_tail _ _ => s.m_tail_ptr = none ∧ nodes = []
  | .reset_head _ _ => s.m_tail = none ∧ s.m_tail_ptr = none ∧ nodes = []
  | _ => s.Steady nodes

def Tail (s : loop) (nodes : List (addr × msg)) : Prop :=
  match s.m_tail_mutex with
  | none => s.Steady nodes
  | some (.add c) => s.AddTail nodes (s.add c)
  | some (.task t) => s.TaskTail nodes (s.tasks t).pc

def AddFirst (s : loop) (a : addr) : add_pc → Prop
  | .first_tail b | .first_head b => b = a
  | .at_unlock _ | .at_task _ => s.m_head = some a
  | _ => False

def TaskFirst (s : loop) (a : addr) : cycle_pc → Prop
  | .queued | .at_head => s.m_head = some a
  | .at_loop node | .at_delete _ node => node = some a
  | _ => False

/-- The party goes on to the node `a` of an event that no task has taken. -/
def First (s : loop) (a : addr) : party → Prop
  | .add c => s.AddFirst a (s.add c)
  | .task t => s.TaskFirst a (s.tasks t).pc

theorem first_add (s : loop) (a : addr) (c : caller) :
    s.First a (.add c) = s.AddFirst a (s.add c) := rfl

theorem first_task (s : loop) (a : addr) (t : Nat) :
    s.First a (.task t) = s.TaskFirst a (s.tasks t).pc := rfl

/-- The node that the task is at, its event, and how many listeners have been called for it. -/
def reads (s : loop) : cycle_pc → Option (addr × msg × Nat)
  | .calling node sptr i => some (node, sptr, i)
  | .inside node sptr i => some (node, sptr, i + 1)
  | .at_tail node sptr | .at_lock node sptr | .at_recheck node sptr | .reset_ptr node sptr =>
    some (node, sptr, s.listeners sptr.type)
  | .at_unlock node sptr | .at_next node sptr => some (node, sptr, s.listeners sptr.type)
  | _ => none

/-- The task has seen that its node is not the last one. -/
def Passes (s : loop) (a : addr) : cycle_pc → Prop
  | .at_unlock _ _ | .at_next _ _ => s.m_tail_ptr ≠ some a
  | _ => True

/-- Either the list is empty and every event has been delivered, or one party
is to go on with it: to its first node, or with the event of the first node. -/
inductive Turn (s : loop) (done : List msg) (nodes : List (addr × msg)) : Prop
  | idle (hjob : shared.Sole none s.outstanding) (hnodes : nodes = [])
      (hcalls : s.calls = s.deliveries done)
  | waiting (x : party) (a : addr) (m : msg) (rest : List (addr × msg))
      (hjob : shared.Sole (some x) s.outstanding) (hnodes : nodes = (a, m) :: rest)
      (hfirst : s.First a x) (hchain : linked.Chain event_list.mk s.heap
        ((a, some m) :: cells rest))
      (hcalls : s.calls = s.deliveries done)
  | reading (t : Nat) (a : addr) (m : msg) (rest : List (addr × msg)) (k : Nat)
      (hjob : shared.Sole (some (.task t)) s.outstanding) (hnodes : nodes = (a, m) :: rest)
      (hreads : s.reads (s.tasks t).pc = some (a, m, k)) (hk : k ≤ s.listeners m.type)
      (hpasses : s.Passes a (s.tasks t).pc)
      (hchain : linked.Chain event_list.mk s.heap ((a, none) :: cells rest))
      (hcalls : s.calls = s.deliveries done ++ calls_of m k)

/-- `done` are the events that the list has no more, `nodes` the nodes that it has. -/
structure Holds (s : loop) (done : List msg) (nodes : List (addr × msg)) : Prop where
  mutex : shared.Sole s.m_tail_mutex s.locks
  apart : shared.Apart s.owns (nodes.map Prod.fst)
  content : ∀ x a, s.owns x = some a → s.Content a x
  closing : ∀ t, (s.tasks t).reset = true → (s.tasks t).pc.closing = true
  unsubmitted : ∀ t, s.submitted ≤ t → s.tasks t = { pc := .unsubmitted, reset := false }
  linked : s.linked = done ++ nodes.map Prod.snd
  tail : s.Tail nodes
  turn : s.Turn done nodes

theorem holds_new (m : listener_map) : (new m).Holds [] [] where
  mutex x := by cases x <;> simp [new, locks, look, add_pc.locks, cycle_pc.locks]
  apart :=
    { owner := fun x _ _ h => (by cases x <;> cases h)
      outside := fun x _ h => (by cases x <;> cases h)
      nodup := List.nodup_nil }
  content x a h := by cases x <;> cases h
  closing t h := by cases h
  unsubmitted _ _ := rfl
  linked := rfl
  tail := ⟨rfl, rfl, fun _ => rfl, fun _ => rfl⟩
  turn := by
    refine .idle ?_ rfl rfl
    intro x
    cases x <;> simp [new, outstanding, look, add_pc.due, task.pending, cycle_pc.active]

/-! ## What a step leaves alone -/

section
variable {s t : loop} {done : List msg} {nodes : List (addr × msg)}

theorem Tail.free (h : s.Tail nodes) (hm : s.m_tail_mutex = none) : s.Steady nodes := by
  rwa [Tail, hm] at h

theorem Tail.held_add (h : s.Tail nodes) {c : caller} (hm : s.m_tail_mutex = some (.add c)) :
    s.AddTail nodes (s.add c) := by
  rwa [Tail, hm] at h

theorem Tail.held_task (h : s.Tail nodes) {u : Nat} (hm : s.m_tail_mutex = some (.task u)) :
    s.TaskTail nodes (s.tasks u).pc := by
  rwa [Tail, hm] at h

theorem Tail.of_free (h : s.Steady nodes) (hm : s.m_tail_mutex = none) : s.Tail nodes := by
  rwa [Tail, hm]

theorem Tail.of_add {c : caller} (h : s.AddTail nodes (s.add c))
    (hm : s.m_tail_mutex = some (.add c)) :
    s.Tail nodes := by
  rwa [Tail, hm]

theorem Tail.of_task {u : Nat} (h : s.TaskTail nodes (s.tasks u).pc)
    (hm : s.m_tail_mutex = some (.task u)) : s.Tail nodes := by
  rwa [Tail, hm]

theorem Tail.same (h : s.Tail nodes) (hmutex : t.m_tail_mutex = s.m_tail_mutex)
    (htail : t.m_tail = s.m_tail) (hptr : t.m_tail_ptr = s.m_tail_ptr) (hhead : t.m_head = s.m_head)
    (hadd : ∀ c, s.m_tail_mutex = some (.add c) → t.add c = s.add c)
    (htasks : ∀ u, s.m_tail_mutex = some (.task u) → (t.tasks u).pc = (s.tasks u).pc) :
    t.Tail nodes := by
  have hsteady : s.Steady nodes → t.Steady nodes := fun hs =>
    ⟨htail.trans hs.m_tail, hptr.trans hs.m_tail_ptr, hhead ▸ hs.m_head⟩
  cases hm : s.m_tail_mutex with
  | none => exact Tail.of_free (hsteady (h.free hm)) (hmutex.trans hm)
  | some x =>
    cases x with
    | add c =>
      have ha := h.held_add hm
      apply Tail.of_add _ (hmutex.trans hm)
      rw [hadd c hm]
      unfold AddTail at ha ⊢
      rw [htail, hptr, hhead]
      grind
    | task u =>
      have ha := h.held_task hm
      apply Tail.of_task _ (hmutex.trans hm)
      rw [htasks u hm]
      unfold TaskTail at ha ⊢
      rw [htail, hptr]
      grind

theorem deliveries_same (hl : t.m_listeners = s.m_listeners) (events : List msg) :
    t.deliveries events = s.deliveries events := by
  unfold deliveries loop.listeners
  rw [hl]

theorem reads_same (hl : t.m_listeners = s.m_listeners) (pc : cycle_pc) :
    t.reads pc = s.reads pc := by
  unfold reads loop.listeners
  rw [hl]

theorem Passes.same {a : addr} {pc : cycle_pc} (h : s.Passes a pc)
    (hptr : s.m_tail_ptr ≠ some a → t.m_tail_ptr ≠ some a) : t.Passes a pc := by
  unfold Passes at h ⊢
  split
  · exact hptr h
  · exact hptr h
  · trivial

theorem chain_same {a : addr} {m : msg} {p : Option msg} {rest : List (addr × msg)}
    (h : linked.Chain event_list.mk s.heap ((a, p) :: cells rest)) (hnodes : nodes = (a, m) :: rest)
    (hheap : ∀ b ∈ nodes.map Prod.fst, t.heap b = s.heap b) :
    linked.Chain event_list.mk t.heap ((a, p) :: cells rest) := by
  have hfst : ((a, p) :: cells rest).map Prod.fst = nodes.map Prod.fst := by
    rw [hnodes]
    simp [cells, Function.comp_def]
  apply h.same
  intro b hb
  exact hheap b (hfst ▸ hb)

/-- A step of a party that is not to go on with the list, or not with its nodes. -/
theorem Turn.same (h : s.Turn done nodes) (hout : t.outstanding = s.outstanding)
    (hfirst : ∀ x a, s.outstanding x = true → s.First a x → t.First a x)
    (htasks : ∀ u, s.outstanding (.task u) = true → (t.tasks u).pc = (s.tasks u).pc)
    (hptr : ∀ a m rest, nodes = (a, m) :: rest → s.m_tail_ptr ≠ some a → t.m_tail_ptr ≠ some a)
    (hheap : ∀ a ∈ nodes.map Prod.fst, t.heap a = s.heap a)
    (hl : t.m_listeners = s.m_listeners) (hcalls : t.calls = s.calls) : t.Turn done nodes := by
  have hd := deliveries_same hl done
  cases h with
  | idle hjob hnodes hc =>
    refine .idle ?_ hnodes ?_
    · rwa [hout]
    · rw [hcalls, hd, hc]
  | waiting x a m rest hjob hnodes hf hchain hc =>
    refine .waiting x a m rest ?_ hnodes (hfirst x a hjob.has_self hf)
      (chain_same hchain hnodes hheap) ?_
    · rwa [hout]
    · rw [hcalls, hd, hc]
  | reading u a m rest k hjob hnodes hreads hk hpasses hchain hc =>
    have hu := htasks u hjob.has_self
    refine .reading u a m rest k ?_ hnodes ?_ ?_ ?_ (chain_same hchain hnodes hheap) ?_
    · rwa [hout]
    · rw [reads_same hl, hu, hreads]
    · unfold loop.listeners
      rwa [hl]
    · rw [hu]
      exact hpasses.same (hptr a m rest hnodes)
    · rw [hcalls, hd, hc]

/-! ## The steps of add_event -/

variable {c : caller} {pc : add_pc}

theorem owns_add (hadd : t.add = Function.update s.add c pc) (htasks : t.tasks = s.tasks)
    (hitem : pc.item = (s.add c).item ∨ pc.item = none) {x : party} {a : addr}
    (hx : t.owns x = some a) : s.owns x = some a := by
  unfold owns at hx ⊢
  rw [look_add _ _ hadd htasks] at hx
  by_cases hxc : x = .add c
  · subst hxc
    rw [Function.update_self] at hx
    rcases hitem with hitem | hitem
    · rwa [hitem] at hx
    · rw [hitem] at hx
      cases hx
  · rwa [Function.update_of_ne hxc] at hx

theorem outstanding_add (hadd : t.add = Function.update s.add c pc) (htasks : t.tasks = s.tasks)
    (hdue : pc.due = (s.add c).due) : t.outstanding = s.outstanding := by
  unfold outstanding
  rw [look_add _ _ hadd htasks, hdue]
  exact Function.update_eq_self _ _

/-- What the node of a party holds, where a step leaves the node alone. -/
theorem Content.same {x : party} {a : addr} (h : s.Content a x)
    (hreset : ∀ u, x = .task u → (t.tasks u).reset = (s.tasks u).reset)
    (hheap : t.heap a = s.heap a) : t.Content a x := by
  cases x with
  | add d =>
    obtain ⟨m, hm⟩ := h
    exact ⟨m, hheap.trans hm⟩
  | task u =>
    obtain ⟨node, hnode, hnext⟩ := h
    refine ⟨node, hheap.trans hnode, ?_⟩
    rwa [hreset u rfl]

theorem First.other {x : party} {a : addr} (h : s.First a x) (hx : x ≠ .add c)
    (hadd : t.add = Function.update s.add c pc) (htasks : t.tasks = s.tasks)
    (hhead : t.m_head = s.m_head) : t.First a x := by
  cases x with
  | add d =>
    have hd : t.add d = s.add d := by
      rw [hadd, Function.update_of_ne]
      rintro rfl
      exact hx rfl
    rw [first_add] at h ⊢
    unfold AddFirst at h ⊢
    rwa [hd, hhead]
  | task u =>
    rw [first_task] at h ⊢
    unfold TaskFirst at h ⊢
    rwa [htasks, hhead]

/-- The call goes on to `pc`, and changes no more than the three pointers and the mutex. -/
structure Goes (c : caller) (pc : add_pc) (s t : loop) : Prop where
  add : t.add = Function.update s.add c pc
  tasks : t.tasks = s.tasks
  heap : t.heap = s.heap
  submitted : t.submitted = s.submitted
  linked : t.linked = s.linked
  m_listeners : t.m_listeners = s.m_listeners
  calls : t.calls = s.calls

theorem Goes.other (g : Goes c pc s t) {d : caller} (hd : d ≠ c) : t.add d = s.add d := by
  rw [g.add, Function.update_of_ne hd]

theorem Goes.self (g : Goes c pc s t) : t.add c = pc := by rw [g.add, Function.update_self]

theorem Goes.turn (g : Goes c pc s t) (h : s.Turn done nodes) (hdue : pc.due = (s.add c).due)
    (hfirst : ∀ x a, s.outstanding x = true → s.First a x → t.First a x)
    (hptr : ∀ a m rest, nodes = (a, m) :: rest → s.m_tail_ptr ≠ some a → t.m_tail_ptr ≠ some a) :
    t.Turn done nodes := by
  exact h.same (outstanding_add g.add g.tasks hdue) hfirst (fun u _ => by rw [g.tasks]) hptr
    (fun a _ => by rw [g.heap]) g.m_listeners g.calls

/-- What is left to show of a call that keeps its node. -/
theorem Holds.goes (h : s.Holds done nodes) (g : Goes c pc s t) (hitem : pc.item = (s.add c).item)
    (hmutex : shared.Sole t.m_tail_mutex (Function.update s.locks (.add c) pc.locks))
    (htail : t.Tail nodes) (hturn : t.Turn done nodes) : t.Holds done nodes where
  mutex := by
    unfold locks
    rwa [look_add _ _ g.add g.tasks]
  apart := by
    unfold owns
    rw [look_add _ _ g.add g.tasks]
    exact h.apart.keep hitem
  content x a hx :=
    (h.content x a (owns_add g.add g.tasks (.inl hitem) hx)).same
      (fun _ _ => by rw [g.tasks]) (by rw [g.heap])
  closing := by
    rw [g.tasks]
    exact h.closing
  unsubmitted := by
    rw [g.tasks, g.submitted]
    exact h.unsubmitted
  linked := g.linked.trans h.linked
  tail := htail
  turn := hturn

theorem Holds.not_holder (h : s.Holds done nodes) {x : party} (hx : s.locks x = false) :
    s.m_tail_mutex ≠ some x := by
  intro hm
  have := (h.mutex x).mp hm
  rw [hx] at this
  cases this

theorem Goes.first (g : Goes c pc s t) (hdue : (s.add c).due = false) (hhead : t.m_head = s.m_head)
    (x : party) (a : addr) (hx : s.outstanding x = true) (hf : s.First a x) : t.First a x := by
  refine hf.other ?_ g.add g.tasks hhead
  rintro rfl
  exact Bool.noConfusion (hdue.symm.trans hx)

/-- A step before the mutex is taken, or after it has been given back. -/
theorem Holds.outside (h : s.Holds done nodes) (g : Goes c pc s t)
    (hlocks : (s.add c).locks = false) (hlocks' : pc.locks = false) (hdue : (s.add c).due = false)
    (hdue' : pc.due = false) (hitem : pc.item = (s.add c).item)
    (hmutex : t.m_tail_mutex = s.m_tail_mutex) (htail : t.m_tail = s.m_tail)
    (hptr : t.m_tail_ptr = s.m_tail_ptr) (hhead : t.m_head = s.m_head) : t.Holds done nodes := by
  refine h.goes g hitem ?_ ?_ ?_
  · rw [hmutex]
    exact h.mutex.keep (hlocks'.trans hlocks.symm)
  · refine h.tail.same hmutex htail hptr hhead ?_ fun u _ => by rw [g.tasks]
    intro d hd
    apply g.other
    rintro rfl
    exact h.not_holder (x := .add d) hlocks hd
  · apply g.turn h.turn (hdue'.trans hdue.symm) (g.first hdue hhead)
    intro a m rest _ hp
    rwa [hptr]

theorem Holds.at_lock {item : addr} (h : s.Holds done nodes) (hpc : s.add c = .at_lock item)
    (hm : s.m_tail_mutex = none) :
    { s.set_add c (.at_test item) with m_tail_mutex := some (.add c) }.Holds done nodes := by
  have g : Goes c (.at_test item) s
      { s.set_add c (.at_test item) with m_tail_mutex := some (.add c) } :=
    ⟨rfl, rfl, rfl, rfl, rfl, rfl, rfl⟩
  have hs := h.tail.free hm
  have hmutex := h.mutex
  rw [hm] at hmutex
  refine h.goes g (by rw [hpc]; rfl) hmutex.take ?_ ?_
  · apply Tail.of_add (c := c) _ rfl
    rw [g.self]
    exact ⟨hs.m_tail, hs.m_tail_ptr, hs.m_head⟩
  · exact g.turn h.turn (by rw [hpc]; rfl) (g.first (by rw [hpc]; rfl) rfl) fun _ _ _ _ hp => hp

/-- What is left to show of a step with the mutex. -/
theorem Holds.locked (h : s.Holds done nodes) (g : Goes c pc s t) (hlocks : (s.add c).locks = true)
    (hlocks' : pc.locks = true) (hdue : pc.due = (s.add c).due) (hitem : pc.item = (s.add c).item)
    (hmutex : t.m_tail_mutex = s.m_tail_mutex)
    (htail : s.AddTail nodes (s.add c) → t.AddTail nodes pc)
    (hfirst : ∀ x a, s.outstanding x = true → s.First a x → t.First a x)
    (hptr : ∀ a m rest, nodes = (a, m) :: rest → s.m_tail_ptr ≠ some a → t.m_tail_ptr ≠ some a) :
    t.Holds done nodes := by
  have hm : s.m_tail_mutex = some (.add c) := h.mutex.holder_eq hlocks
  refine h.goes g hitem ?_ ?_ (g.turn h.turn hdue hfirst hptr)
  · rw [hmutex]
    exact h.mutex.keep (hlocks'.trans hlocks.symm)
  · apply Tail.of_add _ (hmutex.trans hm)
    rw [g.self]
    exact htail (h.tail.held_add hm)

theorem Turn.sole (h : s.Turn done nodes) : ∃ job, shared.Sole job s.outstanding := by
  cases h with
  | idle hjob => exact ⟨_, hjob⟩
  | waiting x a m rest hjob => exact ⟨_, hjob⟩
  | reading u a m rest k hjob => exact ⟨_, hjob⟩

theorem Holds.at_test {item : addr} (h : s.Holds done nodes) (hpc : s.add c = .at_test item) :
    (s.set_add c (if s.m_tail_ptr = none then .first_ptr item else .set_next item)).Holds done
      nodes := by
  have g (pc : add_pc) : Goes c pc s (s.set_add c pc) := ⟨rfl, rfl, rfl, rfl, rfl, rfl, rfl⟩
  have hdue : (s.add c).due = false := by rw [hpc]; rfl
  have hlocks : (s.add c).locks = true := by rw [hpc]; rfl
  split
  · rename_i hptr
    refine h.locked (g _) hlocks rfl hdue.symm (by rw [hpc]; rfl) rfl ?_ ((g _).first hdue rfl)
      fun _ _ _ _ hp => hp
    rw [hpc]
    intro hs
    have hnil : nodes = [] := by
      rw [hs.m_tail_ptr, Option.map_eq_none_iff, List.getLast?_eq_none_iff] at hptr
      exact hptr
    exact ⟨⟨hs.m_tail, hs.m_tail_ptr, hs.m_head⟩, hnil⟩
  · rename_i hptr
    refine h.locked (g _) hlocks rfl hdue.symm (by rw [hpc]; rfl) rfl ?_ ((g _).first hdue rfl)
      fun _ _ _ _ hp => hp
    rw [hpc]
    intro hs
    have hne : nodes ≠ [] := by
      rintro rfl
      exact hptr hs.m_tail_ptr
    exact ⟨⟨hs.m_tail, hs.m_tail_ptr, hs.m_head⟩, hne⟩

theorem Holds.first_tail {item : addr} (h : s.Holds done nodes) (hpc : s.add c = .first_tail item) :
    { s.set_add c (.first_head item) with m_tail := some item }.Holds done nodes := by
  have g : Goes c (.first_head item) s
    { s.set_add c (.first_head item) with m_tail := some item } :=
    ⟨rfl, rfl, rfl, rfl, rfl, rfl, rfl⟩
  refine h.locked g (by rw [hpc]; rfl) rfl (by rw [hpc]; rfl) (by rw [hpc]; rfl) rfl ?_ ?_
    fun _ _ _ _ hp => hp
  · rw [hpc]
    exact fun htail => ⟨rfl, htail⟩
  · intro x a hx hf
    by_cases hxc : x = .add c
    · subst hxc
      rw [first_add, hpc] at hf
      rw [first_add, g.self]
      exact hf
    · exact hf.other hxc g.add g.tasks rfl

theorem Holds.first_head {item : addr} (h : s.Holds done nodes) (hpc : s.add c = .first_head item) :
    { s.set_add c (.at_unlock true) with m_head := some item }.Holds done nodes := by
  have g : Goes c (.at_unlock true) s { s.set_add c (.at_unlock true) with m_head := some item } :=
    ⟨rfl, rfl, rfl, rfl, rfl, rfl, rfl⟩
  refine h.locked g (by rw [hpc]; rfl) rfl (by rw [hpc]; rfl) (by rw [hpc]; rfl) rfl ?_ ?_
    fun _ _ _ _ hp => hp
  · rw [hpc]
    rintro ⟨htail, hptr, m, rfl⟩
    exact ⟨htail, hptr, fun hh => (by cases hh), fun hnil => (by cases hnil)⟩
  · intro x a hx hf
    -- no other party is to go on with the list
    obtain ⟨job, hjob⟩ := h.turn.sole
    have hc : s.outstanding (.add c) = true := by
      simp only [outstanding, look, hpc]
      rfl
    obtain rfl := hjob.holder_eq hc
    obtain rfl := hjob.eq hx
    rw [first_add, hpc] at hf
    rw [first_add, g.self]
    exact congrArg some hf

theorem Holds.set_tail {item : addr} (h : s.Holds done nodes) (hpc : s.add c = .set_tail item) :
    { s.set_add c (.set_ptr item) with m_tail := some item }.Holds done nodes := by
  have g : Goes c (.set_ptr item) s { s.set_add c (.set_ptr item) with m_tail := some item } :=
    ⟨rfl, rfl, rfl, rfl, rfl, rfl, rfl⟩
  have hdue : (s.add c).due = false := by rw [hpc]; rfl
  refine h.locked g (by rw [hpc]; rfl) rfl hdue.symm (by rw [hpc]; rfl) rfl ?_ (g.first hdue rfl)
    fun _ _ _ _ hp => hp
  rw [hpc]
  exact fun htail => ⟨rfl, htail⟩

theorem Holds.set_ptr {item : addr} (h : s.Holds done nodes) (hpc : s.add c = .set_ptr item) :
    { s.set_add c (.at_unlock false) with m_tail_ptr := some item }.Holds done nodes := by
  have g : Goes c (.at_unlock false) s
    { s.set_add c (.at_unlock false) with m_tail_ptr := some item } :=
    ⟨rfl, rfl, rfl, rfl, rfl, rfl, rfl⟩
  have hdue : (s.add c).due = false := by rw [hpc]; rfl
  have hlocks : (s.add c).locks = true := by rw [hpc]; rfl
  have hm : s.m_tail_mutex = some (.add c) := h.mutex.holder_eq hlocks
  have htail := h.tail.held_add hm
  rw [hpc] at htail
  obtain ⟨htail, hhead, init, b, m, n, rfl, -⟩ := htail
  refine h.locked g hlocks rfl hdue.symm (by rw [hpc]; rfl) rfl ?_ (g.first hdue rfl) ?_
  · refine fun _ => ⟨?_, ?_, fun hh => absurd hh hhead, fun hnil => (by simp at hnil)⟩
    · change s.m_tail = _
      simpa using htail
    · simp
  · intro a m' rest hcons _ hp
    -- the last node is not the first one
    have hdup := h.apart.nodup
    cases hp
    cases init with
    | nil =>
      cases hcons
      simp at hdup
    | cons d init =>
      cases hcons
      simp at hdup

theorem Holds.at_unlock {retask : Bool} (h : s.Holds done nodes)
    (hpc : s.add c = .at_unlock retask) :
    { s.set_add c (.at_task retask) with m_tail_mutex := none }.Holds done nodes := by
  have g : Goes c (.at_task retask) s { s.set_add c (.at_task retask) with m_tail_mutex := none } :=
    ⟨rfl, rfl, rfl, rfl, rfl, rfl, rfl⟩
  have hlocks : s.locks (.add c) = true := by
    simp only [locks, look, hpc]
    rfl
  have hs := h.tail.held_add (h.mutex.holder_eq hlocks)
  rw [hpc] at hs
  refine h.goes g (by rw [hpc]; rfl) (h.mutex.give hlocks) ?_ ?_
  · exact Tail.of_free ⟨hs.m_tail, hs.m_tail_ptr, hs.m_head⟩ rfl
  · refine g.turn h.turn (by rw [hpc]; cases retask <;> rfl) ?_ fun _ _ _ _ hp => hp
    intro x a hx hf
    by_cases hxc : x = .add c
    · subst hxc
      rw [first_add, hpc] at hf
      rw [first_add, g.self]
      exact hf
    · exact hf.other hxc g.add g.tasks rfl

theorem cells_fst (a : addr) (p : Option msg) (m : msg) (rest : List (addr × msg)) :
    ((a, p) :: cells rest).map Prod.fst = ((a, m) :: rest).map Prod.fst := by
  simp [cells, Function.comp_def]

theorem Holds.listed_live (h : s.Holds done nodes) {a : addr} (ha : a ∈ nodes.map Prod.fst) :
    ∃ node, s.heap a = some node := by
  cases h.turn with
  | idle hjob hnodes =>
    rw [hnodes] at ha
    cases ha
  | waiting x b m rest hjob hnodes hfirst hchain =>
    apply hchain.mem
    rwa [cells_fst b (some m) m rest, ← hnodes]
  | reading u b m rest k hjob hnodes hreads hk hpasses hchain =>
    apply hchain.mem
    rwa [cells_fst b none m rest, ← hnodes]

theorem Holds.owned_live (h : s.Holds done nodes) {x : party} {a : addr} (hx : s.owns x = some a) :
    ∃ node, s.heap a = some node := by
  have hcontent := h.content x a hx
  cases x with
  | add d =>
    obtain ⟨m, hm⟩ := hcontent
    exact ⟨_, hm⟩
  | task u =>
    obtain ⟨node, hnode, -⟩ := hcontent
    exact ⟨node, hnode⟩

/-- What is in memory is a party's or on the list, so the new node is apart from these. -/
theorem Holds.new_item {item : addr} {message : msg} (h : s.Holds done nodes)
    (hpc : s.add c = .at_new message) (hfree : s.heap item = none) :
    ((s.set_node item (some { ptr := some message, next := none })).set_add c (.at_lock item)).Holds
      done nodes := by
  let t := (s.set_node item (some { ptr := some message, next := none })).set_add c (.at_lock item)
  have hadd : t.add = Function.update s.add c (.at_lock item) := rfl
  have hlocks : (s.add c).locks = false := by rw [hpc]; rfl
  have hdue : (s.add c).due = false := by rw [hpc]; rfl
  have hlisted : item ∉ nodes.map Prod.fst := by
    intro hmem
    obtain ⟨node, hnode⟩ := h.listed_live hmem
    rw [hfree] at hnode
    cases hnode
  have howned (x : party) : s.owns x ≠ some item := by
    intro hx
    obtain ⟨node, hnode⟩ := h.owned_live hx
    rw [hfree] at hnode
    cases hnode
  have hheap {a : addr} (ha : a ≠ item) : t.heap a = s.heap a := Function.update_of_ne ha _ _
  refine ⟨?_, ?_, ?_, h.closing, h.unsubmitted, h.linked, ?_, ?_⟩
  · unfold locks
    rw [look_add _ _ hadd rfl]
    exact h.mutex.keep hlocks.symm
  · unfold owns
    rw [look_add _ _ hadd rfl]
    exact h.apart.take howned hlisted
  · intro x a hx
    by_cases hxc : x = .add c
    · subst hxc
      have hitem : a = item := by
        unfold owns at hx
        rw [look_add _ _ hadd rfl, Function.update_self] at hx
        exact (Option.some.inj hx).symm
      subst hitem
      exact ⟨message, Function.update_self _ _ _⟩
    · have hown : s.owns x = some a := by
        unfold owns at hx ⊢
        rwa [look_add _ _ hadd rfl, Function.update_of_ne hxc] at hx
      apply (h.content x a hown).same (t := t) fun _ _ => rfl
      apply hheap
      rintro rfl
      exact howned x hown
  · refine h.tail.same rfl rfl rfl rfl ?_ fun _ _ => rfl
    intro d hd
    apply Function.update_of_ne
    rintro rfl
    exact h.not_holder (x := .add d) hlocks hd
  · refine h.turn.same ?_ ?_ (fun _ _ => rfl) (fun _ _ _ _ hp => hp) ?_ rfl rfl
    · exact outstanding_add hadd rfl hdue.symm
    · intro x a hx hf
      refine hf.other ?_ hadd rfl rfl
      rintro rfl
      exact Bool.noConfusion (hdue.symm.trans hx)
    · intro a ha
      apply hheap
      rintro rfl
      exact hlisted ha

/-- The first event of an empty list. -/
theorem Holds.first_ptr {item : addr} (h : s.Holds done nodes) (hpc : s.add c = .first_ptr item) :
    ∃ m, { s.set_add c (.first_tail item) with
      m_tail_ptr := some item
      linked := s.linked ++ (s.carried item).toList }.Holds done [(item, m)] := by
  have hlocks : s.locks (.add c) = true := by
    simp only [locks, look, hpc]
    rfl
  have hm := h.mutex.holder_eq hlocks
  have htail := h.tail.held_add hm
  rw [hpc] at htail
  obtain ⟨-, rfl⟩ := htail
  have hown : s.owns (.add c) = some item := by
    simp only [owns, look, hpc]
    rfl
  obtain ⟨m, hitem⟩ := h.content _ _ hown
  refine ⟨m, ?_⟩
  let t := { s.set_add c (.first_tail item) with
    m_tail_ptr := some item
    linked := s.linked ++ (s.carried item).toList }
  have hadd : t.add = Function.update s.add c (.first_tail item) := rfl
  refine ⟨?_, ?_, ?_, h.closing, h.unsubmitted, ?_, ?_, ?_⟩
  · unfold locks
    rw [look_add _ _ hadd rfl]
    exact h.mutex.keep hlocks.symm
  · unfold owns
    rw [look_add _ _ hadd rfl]
    exact h.apart.link hown
  · intro x a hx
    exact (h.content x a (owns_add hadd rfl (.inr rfl) hx)).same (fun _ _ => rfl) rfl
  · change s.linked ++ (s.carried item).toList = _
    rw [h.linked, carried, hitem]
    simp
  · apply Tail.of_add (s := t) (c := c) _ hm
    rw [hadd, Function.update_self]
    exact ⟨rfl, m, rfl⟩
  · cases h.turn with
    | waiting x a m rest hjob hnodes => cases hnodes
    | reading u a m rest k hjob hnodes => cases hnodes
    | idle hjob hnodes hcalls =>
      refine .waiting (.add c) item m [] ?_ rfl ?_ ⟨hitem, trivial⟩ hcalls
      · unfold outstanding
        rw [look_add _ _ hadd rfl]
        exact hjob.take
      · rw [first_add, hadd, Function.update_self]
        rfl

/-- A node is put after the last one of the list, and the first event may be taken or not. -/
theorem chain_snoc {heap : addr → Option event_list} {a b item : addr} {p : Option msg} {m n : msg}
    {rest : List (addr × msg)} (h : linked.Chain event_list.mk heap ((a, p) :: cells rest))
    (hdup : (((a, m) :: rest).map Prod.fst).Nodup)
    (hlast : (((a, m) :: rest).getLast?).map Prod.fst = some b)
    (hlisted : item ∉ ((a, m) :: rest).map Prod.fst)
    (hitem : heap item = some { ptr := some n, next := none }) :
    ∃ node, heap b = some node ∧ linked.Chain event_list.mk
      (Function.update heap b (some { node with next := some item }))
        ((a, p) :: cells (rest ++ [(item, n)])) := by
  rcases List.eq_nil_or_concat rest with rfl | ⟨init, ⟨d, q⟩, rfl⟩
  · simp only [List.getLast?_singleton, Option.map_some, Option.some.injEq] at hlast
    subst hlast
    have hia : item ≠ a := fun hi => hlisted (by simp [hi])
    have hone : linked.Chain event_list.mk heap ([] ++ [(a, p)]) := h
    exact ⟨_, h.head, hone.snoc (by simp) hia hitem⟩
  · rw [List.concat_eq_append] at *
    rw [← List.cons_append, List.getLast?_concat] at hlast
    cases hlast
    have hsplit : (a, p) :: cells (init ++ [(d, q)]) = ((a, p) :: cells init) ++ [(d, some q)] := by
      simp [cells]
    rw [hsplit] at h
    have hid : item ≠ d := fun hi => hlisted (by simp [hi])
    have hd : d ∉ ((a, p) :: cells init).map Prod.fst := by
      rw [cells_fst a p m init]
      simp at hdup ⊢
      grind
    have hnew := h.snoc hd hid hitem
    refine ⟨_, h.last, ?_⟩
    simpa [cells] using hnew

/-- What the party that is to go on with the list finds behind the last node. -/
theorem Turn.snoc (h : s.Turn done nodes) {last item : addr} {n : msg}
    (hdup : (nodes.map Prod.fst).Nodup) (hlast : nodes.getLast?.map Prod.fst = some last)
    (hlisted : item ∉ nodes.map Prod.fst)
    (hitem : s.heap item = some { ptr := some n, next := none }) :
    ∃ node, s.heap last = some node ∧ ∀ t : loop, t.outstanding = s.outstanding →
      (∀ x a, s.outstanding x = true → s.First a x → t.First a x) → t.tasks = s.tasks →
      t.m_tail_ptr = s.m_tail_ptr → t.m_listeners = s.m_listeners → t.calls = s.calls →
      t.heap = Function.update s.heap last (some { node with next := some item }) →
      t.Turn done (nodes ++ [(item, n)]) := by
  cases h with
  | idle hjob hnodes =>
    rw [hnodes] at hlast
    cases hlast
  | waiting x a m rest hjob hnodes hf hchain hcalls =>
    subst hnodes
    obtain ⟨node, hnode, hnew⟩ := chain_snoc hchain hdup hlast hlisted hitem
    refine ⟨node, hnode, ?_⟩
    intro t hout hfirst htasks hptr hl hc hheap
    refine .waiting x a m (rest ++ [(item, n)]) ?_ rfl (hfirst x a hjob.has_self hf) ?_ ?_
    · rwa [hout]
    · rwa [hheap]
    · rw [hc, deliveries_same hl, hcalls]
  | reading u a m rest k hjob hnodes hreads hk hpasses hchain hcalls =>
    subst hnodes
    obtain ⟨node, hnode, hnew⟩ := chain_snoc hchain hdup hlast hlisted hitem
    refine ⟨node, hnode, ?_⟩
    intro t hout hfirst htasks hptr hl hc hheap
    refine .reading u a m (rest ++ [(item, n)]) k ?_ rfl ?_ ?_ ?_ ?_ ?_
    · rwa [hout]
    · rwa [reads_same hl, htasks]
    · unfold loop.listeners
      rwa [hl]
    · rw [htasks]
      exact hpasses.same fun hp => by rwa [hptr]
    · rwa [hheap]
    · rw [hc, deliveries_same hl, hcalls]

/-- An event after the last one. -/
theorem Holds.set_next {item : addr} (h : s.Holds done nodes) (hpc : s.add c = .set_next item) :
    ∃ last node m, s.m_tail = some last ∧ s.heap last = some node ∧ last ∈ nodes.map Prod.fst ∧
      { (s.set_node last (some { node with next := some item })).set_add c (.set_tail item) with
        linked := s.linked ++ (s.carried item).toList }.Holds done (nodes ++ [(item, m)]) := by
  have hlocks : s.locks (.add c) = true := by
    simp only [locks, look, hpc]
    rfl
  have hm := h.mutex.holder_eq hlocks
  have htail := h.tail.held_add hm
  rw [hpc] at htail
  obtain ⟨hsteady, hne⟩ := htail
  have hown : s.owns (.add c) = some item := by
    simp only [owns, look, hpc]
    rfl
  have hdue : (s.add c).due = false := by rw [hpc]; rfl
  obtain ⟨n, hitem⟩ := h.content _ _ hown
  obtain ⟨init, ⟨last, q⟩, rfl⟩ := (List.eq_nil_or_concat nodes).resolve_left hne
  rw [List.concat_eq_append] at *
  have hend : (init ++ [(last, q)]).getLast?.map Prod.fst = some last := by
    rw [List.getLast?_concat]
    rfl
  have hmem : last ∈ (init ++ [(last, q)]).map Prod.fst := by simp
  obtain ⟨node, hnode, hturn⟩ :=
    h.turn.snoc h.apart.nodup hend (h.apart.outside _ _ hown) hitem
  refine ⟨last, node, n, hsteady.m_tail.trans hend, hnode, hmem, ?_⟩
  let t := { (s.set_node last (some { node with next := some item })).set_add c
    (.set_tail item) with
    linked := s.linked ++ (s.carried item).toList }
  have hadd : t.add = Function.update s.add c (.set_tail item) := rfl
  refine ⟨?_, ?_, ?_, h.closing, h.unsubmitted, ?_, ?_, ?_⟩
  · unfold locks
    rw [look_add _ _ hadd rfl]
    exact h.mutex.keep hlocks.symm
  · unfold owns
    rw [look_add _ _ hadd rfl, List.map_append]
    exact h.apart.link hown
  · intro x a hx
    have hown' := owns_add hadd rfl (.inr rfl) hx
    apply (h.content x a hown').same (t := t) fun _ _ => rfl
    apply Function.update_of_ne
    rintro rfl
    exact h.apart.outside x a hown' hmem
  · change s.linked ++ (s.carried item).toList = _
    rw [h.linked, carried, hitem]
    simp
  · apply Tail.of_add (s := t) (c := c) _ hm
    rw [hadd, Function.update_self]
    exact ⟨fun hh => hne (hsteady.m_head.mp hh), init, last, n, q, by simp,
      hsteady.m_tail_ptr.trans hend⟩
  · refine hturn t (outstanding_add hadd rfl hdue.symm) ?_ rfl rfl rfl rfl rfl
    intro x a hx hf
    refine hf.other ?_ hadd rfl rfl
    rintro rfl
    exact Bool.noConfusion (hdue.symm.trans hx)

theorem add_task_pc : (s.add_task.set_add c .idle).tasks s.submitted =
    { pc := .queued, reset := false } :=
  Function.update_self _ _ _

theorem add_task_other {u : Nat} (hu : u ≠ s.submitted) :
    (s.add_task.set_add c .idle).tasks u = s.tasks u := Function.update_of_ne hu _ _

theorem look_add_task {β : Type} (f : add_pc → β) (g : task → β) :
    (s.add_task.set_add c .idle).look f g = Function.update (Function.update (s.look f g)
      (.task s.submitted) (g { pc := .queued, reset := false })) (.add c) (f .idle) := by
  rw [look_add f g (s := s.add_task) (t := s.add_task.set_add c .idle) rfl rfl]
  rw [look_task f g (s := s) (t := s.add_task) rfl rfl]

/-- What the two that change their place look like before and after is the
same, so all look the same. -/
theorem look_add_task_same {β : Type} {f : add_pc → β} {g : task → β} (hf : f .idle = f (s.add c))
    (hg : g { pc := .queued, reset := false } = g (s.tasks s.submitted)) :
    (s.add_task.set_add c .idle).look f g = s.look f g := by
  have htask : Function.update (s.look f g) (.task s.submitted) (g (s.tasks s.submitted)) =
      s.look f g := Function.update_eq_self (party.task s.submitted) _
  rw [look_add_task, hf, hg, htask]
  exact Function.update_eq_self (party.add c) _

/-- The turn passes from the caller to the task it queued. -/
theorem Turn.add_task (h : s.Turn done nodes) (hpc : s.add c = .at_task true) :
    (s.add_task.set_add c .idle).Turn done nodes := by
  have hdue : s.outstanding (.add c) = true := by
    simp only [outstanding, look, hpc]
    rfl
  cases h with
  | idle hjob =>
    rw [hjob.nobody] at hdue
    cases hdue
  | reading u a m rest k hjob => cases hjob.eq hdue
  | waiting x a m rest hjob hnodes hfirst hchain hcalls =>
    obtain rfl := hjob.eq hdue
    refine .waiting (.task s.submitted) a m rest ?_ hnodes ?_ hchain hcalls
    · unfold outstanding
      rw [look_add_task]
      exact hjob.pass (by simp)
    · rw [first_add, hpc] at hfirst
      change (s.add_task.set_add c .idle).TaskFirst a _
      rw [add_task_pc]
      exact hfirst

/-- The task that was due is queued. -/
theorem Holds.at_task (h : s.Holds done nodes) (hpc : s.add c = .at_task true) :
    (s.add_task.set_add c .idle).Holds done nodes := by
  have hnew := h.unsubmitted s.submitted (Nat.le_refl _)
  have hlocks : (s.add_task.set_add c .idle).locks = s.locks :=
    look_add_task_same (by rw [hpc]; rfl) (by rw [hnew]; rfl)
  have howns : (s.add_task.set_add c .idle).owns = s.owns :=
    look_add_task_same (by rw [hpc]; rfl) (by rw [hnew]; rfl)
  refine ⟨?_, ?_, ?_, ?_, ?_, h.linked, ?_, h.turn.add_task hpc⟩
  · rw [hlocks]
    exact h.mutex
  · rw [howns]
    exact h.apart
  · intro x a hx
    rw [howns] at hx
    refine (h.content x a hx).same ?_ rfl
    rintro u rfl
    rw [add_task_other]
    -- the new task owns nothing
    rintro rfl
    simp only [owns, look, hnew] at hx
    cases hx
  · intro u hu
    by_cases hnu : u = s.submitted
    · subst hnu
      rw [add_task_pc] at hu
      cases hu
    · rw [add_task_other hnu] at hu ⊢
      exact h.closing u hu
  · intro u hu
    change s.submitted + 1 ≤ u at hu
    exact (add_task_other (by omega)).trans (h.unsubmitted u (by omega))
  · refine h.tail.same rfl rfl rfl rfl ?_ ?_
    · intro d hd
      apply Function.update_of_ne
      rintro rfl
      exact h.not_holder (x := .add d) (by simp only [locks, look, hpc]; rfl) hd
    · intro u hu
      refine congrArg task.pc (add_task_other ?_)
      rintro rfl
      exact h.not_holder (x := .task s.submitted) (by simp only [locks, look, hnew]; rfl) hu

/-- A call that goes on elsewhere is not undefined. -/
theorem undefined_before {v : loop} {pc : add_pc} (hv : v.add = Function.update s.add c pc)
    (hpc : pc ≠ .undefined) (d : caller) (hd : v.add d = .undefined) : s.add d = .undefined := by
  rw [hv] at hd
  by_cases hdc : d = c
  · subst hdc
    rw [Function.update_self] at hd
    exact absurd hd hpc
  · rwa [Function.update_of_ne hdc] at hd

theorem Holds.add_event (h : s.Holds done nodes) (ht : s.add_event c = some t) :
    (∃ nodes', t.Holds done nodes') ∧ ∀ d, t.add d = .undefined → s.add d = .undefined := by
  have hgoes (pc : add_pc) : Goes c pc s (s.set_add c pc) := ⟨rfl, rfl, rfl, rfl, rfl, rfl, rfl⟩
  cases hpc : s.add c with
  | idle | at_new message | undefined =>
    simp only [loop.add_event, hpc] at ht
    cases ht
  | entered message =>
    have hmoves (pc : add_pc) (hlocks : pc.locks = false) (hdue : pc.due = false)
        (hitem : pc.item = none) : (s.set_add c pc).Holds done nodes :=
      h.outside (hgoes pc) (by rw [hpc]; rfl) hlocks (by rw [hpc]; rfl) hdue
        (by rw [hpc]; exact hitem)
        rfl rfl rfl rfl
    cases message with
    | none =>
      simp only [loop.add_event, hpc] at ht
      cases ht
      exact ⟨⟨nodes, hmoves _ rfl rfl rfl⟩, undefined_before rfl (by simp)⟩
    | some message =>
      simp only [loop.add_event, hpc] at ht
      cases ht
      exact ⟨⟨nodes, hmoves _ rfl rfl rfl⟩, undefined_before rfl (by simp)⟩
  | at_listeners message =>
    have hmoves {v : loop} {pc : add_pc} (g : Goes c pc s v) (hlocks : pc.locks = false)
        (hdue : pc.due = false) (hitem : pc.item = none) (hmutex : v.m_tail_mutex = s.m_tail_mutex)
        (htail : v.m_tail = s.m_tail) (hptr : v.m_tail_ptr = s.m_tail_ptr)
        (hhead : v.m_head = s.m_head) : v.Holds done nodes :=
      h.outside g (by rw [hpc]; rfl) hlocks (by rw [hpc]; rfl) hdue (by rw [hpc]; exact hitem)
        hmutex htail hptr hhead
    simp only [loop.add_event, hpc] at ht
    split at ht
    · cases ht
      exact ⟨⟨nodes, hmoves (hgoes _) rfl rfl rfl rfl rfl rfl rfl⟩, undefined_before rfl (by simp)⟩
    · cases ht
      exact ⟨⟨nodes, hmoves ⟨rfl, rfl, rfl, rfl, rfl, rfl, rfl⟩ rfl rfl rfl rfl rfl rfl rfl⟩,
        undefined_before rfl (by simp)⟩
  | at_lock item =>
    simp only [loop.add_event, hpc] at ht
    split at ht
    · rename_i hm
      cases ht
      exact ⟨⟨nodes, h.at_lock hpc hm⟩, undefined_before rfl (by simp)⟩
    · cases ht
  | at_test item =>
    simp only [loop.add_event, hpc] at ht
    cases ht
    refine ⟨⟨nodes, h.at_test hpc⟩, undefined_before rfl ?_⟩
    split <;> simp
  | first_ptr item =>
    simp only [loop.add_event, hpc] at ht
    cases ht
    obtain ⟨m, hm⟩ := h.first_ptr hpc
    exact ⟨⟨_, hm⟩, undefined_before rfl (by simp)⟩
  | first_tail item =>
    simp only [loop.add_event, hpc] at ht
    cases ht
    exact ⟨⟨nodes, h.first_tail hpc⟩, undefined_before rfl (by simp)⟩
  | first_head item =>
    simp only [loop.add_event, hpc] at ht
    cases ht
    exact ⟨⟨nodes, h.first_head hpc⟩, undefined_before rfl (by simp)⟩
  | set_next item =>
    obtain ⟨last, node, m, hlast, hnode, -, hm⟩ := h.set_next hpc
    simp only [loop.add_event, hpc, hlast, hnode] at ht
    cases ht
    exact ⟨⟨_, hm⟩, undefined_before rfl (by simp)⟩
  | set_tail item =>
    simp only [loop.add_event, hpc] at ht
    cases ht
    exact ⟨⟨nodes, h.set_tail hpc⟩, undefined_before rfl (by simp)⟩
  | set_ptr item =>
    simp only [loop.add_event, hpc] at ht
    cases ht
    exact ⟨⟨nodes, h.set_ptr hpc⟩, undefined_before rfl (by simp)⟩
  | at_unlock retask =>
    simp only [loop.add_event, hpc] at ht
    cases ht
    exact ⟨⟨nodes, h.at_unlock hpc⟩, undefined_before rfl (by simp)⟩
  | at_task retask =>
    simp only [loop.add_event, hpc] at ht
    cases ht
    cases retask with
    | true => exact ⟨⟨nodes, h.at_task hpc⟩, undefined_before rfl (by simp)⟩
    | false =>
      refine ⟨⟨nodes, h.outside (hgoes .idle) ?_ rfl ?_ rfl ?_ rfl rfl rfl rfl⟩,
        undefined_before rfl (by simp)⟩
      · rw [hpc]
        rfl
      · rw [hpc]
        rfl
      · rw [hpc]
        rfl

end

end loop

end strangeio.event
