-- The event loop: the calls of add_event and the tasks that cycle the events
-- (event/loop.hpp, events/loop.cpp). Each action is one step of one of them.
import Mathlib.Logic.Function.Basic
import StrangeIO.Transition

namespace strangeio.event

abbrev event_type := Int16

/-- A place in memory. A null pointer is `none`. -/
abbrev addr := Nat

/-- Its `id` tells a message from all others. -/
structure msg where
  id : Nat
  type : event_type
deriving DecidableEq, Repr

structure event_list where
  ptr : Option msg
  next : Option addr
deriving DecidableEq, Repr

/-! ## The listeners -/

/-- A callback, named by a number. -/
abbrev event_callback := Nat

abbrev listener_map := List (event_type × List event_callback)

namespace listener_map

def add_listener (type : event_type) (callback : event_callback) (m : listener_map) :
    listener_map :=
  match m.lookup type with
  | none => m ++ [(type, [callback])]
  | some _ => m.map fun p => if p.1 = type then (p.1, p.2 ++ [callback]) else p

def listeners (m : listener_map) (type : event_type) : Nat :=
  match m.lookup type with
  | none => 0
  | some callbacks => callbacks.length

theorem lookup_map (m : listener_map) (type : event_type) (callback : event_callback)
    (other : event_type) :
    (m.map fun p => if p.1 = type then (p.1, p.2 ++ [callback]) else p).lookup other =
      (m.lookup other).map fun callbacks =>
        if other = type then callbacks ++ [callback] else callbacks := by
  induction m with
  | nil => rfl
  | cons p m ih =>
    obtain ⟨key, callbacks⟩ := p
    by_cases hkey : other = key
    · subst hkey
      by_cases htype : other = type
      · simp [htype]
      · simp [htype]
    · have hne : (other == key) = false := by simpa using hkey
      by_cases htype : key = type
      · simp [List.lookup_cons, htype, ih, htype ▸ hne]
      · simp [List.lookup_cons, htype, ih, hne]

/-- A listener is one more of its type, and of no other. -/
theorem listeners_add_listener (m : listener_map) (type : event_type) (callback : event_callback)
    (other : event_type) :
    (m.add_listener type callback).listeners other =
      m.listeners other + if other = type then 1 else 0 := by
  unfold add_listener listeners
  cases hm : m.lookup type with
  | none =>
    rw [List.lookup_append]
    by_cases htype : other = type
    · subst htype
      simp [hm]
    · have hne : (other == type) = false := by simpa using htype
      simp [htype, List.lookup_cons, hne]
  | some callbacks =>
    simp only [lookup_map]
    cases ho : m.lookup other with
    | none =>
      have htype : other ≠ type := by
        rintro rfl
        rw [hm] at ho
        cases ho
      simp [htype]
    | some others =>
      by_cases htype : other = type
      · simp [htype]
      · simp [htype]

end listener_map

/-! ## The state -/

/-- Who calls `add_event`: a producer, or the listener that a task is in. -/
inductive caller where
  | producer (p : Nat)
  | listener (t : Nat)
deriving DecidableEq, Repr

/-- A call of `add_event`, or a task that runs `cycle_events`. -/
inductive party where
  | add (c : caller)
  | task (t : Nat)
deriving DecidableEq, Repr

/-- The statement of `add_event` that a call comes to next. -/
inductive add_pc where
  | idle
  | entered (message : Option msg)
  | at_listeners (message : msg)
  | at_new (message : msg)
  | at_lock (item : addr)
  | at_test (item : addr)
  | first_ptr (item : addr)
  | first_tail (item : addr)
  | first_head (item : addr)
  | set_next (item : addr)
  | set_tail (item : addr)
  | set_ptr (item : addr)
  | at_unlock (retask : Bool)
  | at_task (retask : Bool)
  | undefined
deriving DecidableEq, Repr

/-- The statement of `cycle_events` that a task comes to next. -/
inductive cycle_pc where
  | unsubmitted
  | queued
  | at_head
  | at_loop (node : Option addr)
  | calling (node : addr) (sptr : msg) (i : Nat)
  | inside (node : addr) (sptr : msg) (i : Nat)
  | at_tail (node : addr) (sptr : msg)
  | at_lock (node : addr) (sptr : msg)
  | at_recheck (node : addr) (sptr : msg)
  | reset_ptr (node : addr) (sptr : msg)
  | reset_tail (node : addr) (sptr : msg)
  | reset_head (node : addr) (sptr : msg)
  | at_unlock (node : addr) (sptr : msg)
  | at_next (node : addr) (sptr : msg)
  | at_delete (node : addr) (next : Option addr)
  | finished
  | undefined
deriving DecidableEq, Repr

/-- `reset` only keeps books: the task has begun to reset the list. -/
structure task where
  pc : cycle_pc
  reset : Bool
deriving DecidableEq, Repr

/-- `heap` is the memory of the nodes. The last four fields only keep books: how
many messages were made, the events that were accepted, those that were linked
in, in their order, and the calls of the listeners, each with its place among
those of its type. -/
structure loop where
  m_listeners : listener_map
  m_head : Option addr
  m_tail : Option addr
  m_tail_ptr : Option addr
  m_tail_mutex : Option party
  heap : addr → Option event_list
  add : caller → add_pc
  tasks : Nat → task
  submitted : Nat
  made : Nat
  accepted : List msg
  linked : List msg
  calls : List (msg × Nat)

namespace loop

def new (m_listeners : listener_map) : loop where
  m_listeners := m_listeners
  m_head := none
  m_tail := none
  m_tail_ptr := none
  m_tail_mutex := none
  heap := fun _ => none
  add := fun _ => .idle
  tasks := fun _ => { pc := .unsubmitted, reset := false }
  submitted := 0
  made := 0
  accepted := []
  linked := []
  calls := []

def listeners (s : loop) (type : event_type) : Nat := s.m_listeners.listeners type

def set_add (c : caller) (pc : add_pc) (s : loop) : loop :=
  { s with add := Function.update s.add c pc }

def set_task (t : Nat) (pc : cycle_pc) (s : loop) : loop :=
  { s with tasks := Function.update s.tasks t { s.tasks t with pc } }

def set_node (a : addr) (node : Option event_list) (s : loop) : loop :=
  { s with heap := Function.update s.heap a node }

/-- The event of a node. -/
def carried (s : loop) (a : addr) : Option msg := (s.heap a).bind event_list.ptr

/-! ## The steps of add_event -/

/-- The queue takes the task. -/
def add_task (s : loop) : loop :=
  { s with
    tasks := Function.update s.tasks s.submitted { pc := .queued, reset := false }
    submitted := s.submitted + 1 }

/-- The next step of a call of `add_event`, but for the `new` of its node. The
event is linked in where a pointer of the list first leads to its node. -/
def add_event (c : caller) (s : loop) : Option loop :=
  match s.add c with
  | .idle => none
  | .entered none => some (s.set_add c .idle)
  | .entered (some message) => some (s.set_add c (.at_listeners message))
  | .at_listeners message =>
    if s.listeners message.type = 0 then some (s.set_add c .idle)
    else some { s.set_add c (.at_new message) with accepted := s.accepted ++ [message] }
  | .at_new _ => none
  | .at_lock item =>
    if s.m_tail_mutex = none then
      some { s.set_add c (.at_test item) with m_tail_mutex := some (.add c) }
    else none
  | .at_test item =>
    some (s.set_add c (if s.m_tail_ptr = none then .first_ptr item else .set_next item))
  | .first_ptr item =>
    some { s.set_add c (.first_tail item) with
      m_tail_ptr := some item
      linked := s.linked ++ (s.carried item).toList }
  | .first_tail item => some { s.set_add c (.first_head item) with m_tail := some item }
  | .first_head item => some { s.set_add c (.at_unlock true) with m_head := some item }
  | .set_next item =>
    match s.m_tail with
    | none => some (s.set_add c .undefined)
    | some last =>
      match s.heap last with
      | none => some (s.set_add c .undefined)
      | some node =>
        some { (s.set_node last (some { node with next := some item })).set_add c
          (.set_tail item) with
          linked := s.linked ++ (s.carried item).toList }
  | .set_tail item => some { s.set_add c (.set_ptr item) with m_tail := some item }
  | .set_ptr item => some { s.set_add c (.at_unlock false) with m_tail_ptr := some item }
  | .at_unlock retask => some { s.set_add c (.at_task retask) with m_tail_mutex := none }
  | .at_task retask => some ((if retask then s.add_task else s).set_add c .idle)
  | .undefined => none

/-- `new event_list()` gives a place that is free, and the node takes the message. -/
def new_item (c : caller) (item : addr) (s : loop) : Option loop :=
  match s.add c with
  | .at_new message =>
    if s.heap item = none then
      some ((s.set_node item (some { ptr := some message, next := none })).set_add c
        (.at_lock item))
    else none
  | _ => none

/-! ## The steps of cycle_events -/

/-- The next step of a task. A listener returns when it is in no call of `add_event`. -/
def cycle_events (t : Nat) (s : loop) : Option loop :=
  match (s.tasks t).pc with
  | .unsubmitted => none
  | .queued => some (s.set_task t .at_head)
  | .at_head => some (s.set_task t (.at_loop s.m_head))
  | .at_loop none => some (s.set_task t .finished)
  | .at_loop (some node) =>
    match s.heap node with
    | some { ptr := some sptr, next } =>
      some ((s.set_node node (some { ptr := none, next })).set_task t (.calling node sptr 0))
    | _ => some (s.set_task t .undefined)
  | .calling node sptr i =>
    if i < s.listeners sptr.type then
      some { s.set_task t (.inside node sptr i) with calls := s.calls ++ [(sptr, i)] }
    else some (s.set_task t (.at_tail node sptr))
  | .inside node sptr i =>
    if s.add (.listener t) = .idle then some (s.set_task t (.calling node sptr (i + 1))) else none
  | .at_tail node sptr =>
    -- the mutex is not held here
    some (s.set_task t
      (if s.m_tail_ptr = some node then .at_lock node sptr else .at_next node sptr))
  | .at_lock node sptr =>
    if s.m_tail_mutex = none then
      some { s.set_task t (.at_recheck node sptr) with m_tail_mutex := some (.task t) }
    else none
  | .at_recheck node sptr =>
    some (s.set_task t
      (if s.m_tail_ptr = some node then .reset_ptr node sptr else .at_unlock node sptr))
  | .reset_ptr node sptr =>
    some { s with
      m_tail_ptr := none
      tasks := Function.update s.tasks t { pc := .reset_tail node sptr, reset := true } }
  | .reset_tail node sptr => some { s.set_task t (.reset_head node sptr) with m_tail := none }
  | .reset_head node sptr => some { s.set_task t (.at_unlock node sptr) with m_head := none }
  | .at_unlock node sptr => some { s.set_task t (.at_next node sptr) with m_tail_mutex := none }
  | .at_next node _ =>
    match s.heap node with
    | none => some (s.set_task t .undefined)
    | some item => some (s.set_task t (.at_delete node item.next))
  | .at_delete node next => some ((s.set_node node none).set_task t (.at_loop next))
  | .finished => none
  | .undefined => none

/-! ## The actions -/

inductive action where
  | call (c : caller) (type : Option event_type)
  | new_item (c : caller) (item : addr)
  | add_event (c : caller)
  | cycle_events (t : Nat)
deriving DecidableEq, Repr

/-- The call of a listener comes from inside of it. -/
def may_call (s : loop) : caller → Bool
  | .producer _ => true
  | .listener t =>
    match (s.tasks t).pc with
    | .inside _ _ _ => true
    | _ => false

/-- One step: a call of `add_event` with a new message or a null one, or the
next step of a call or of a task. A task is queued until a worker takes it. -/
def act (s : loop) : action → Option loop
  | .call c type =>
    if s.add c = .idle ∧ s.may_call c = true then
      some { s.set_add c (.entered (type.map fun type => { id := s.made, type })) with
        made := s.made + 1 }
    else none
  | .new_item c item => s.new_item c item
  | .add_event c => s.add_event c
  | .cycle_events t => s.cycle_events t

/-- The runs of a loop whose listeners are all there from the start. -/
def loops : transition.System loop action :=
  transition.machine (fun s => ∃ m, s = new m) act

end loop

end strangeio.event
