-- The event loop on the work queue (events/loop.cpp, threads/task_utility.cpp,
-- threads/queue.cpp): the loop's tasks are packages of the queue, which its workers run.
import StrangeIO.EventDelivery
import StrangeIO.QueueProgress

namespace strangeio.event

open thread (pkg)

/-- A loop and a queue. `m_queue` says whether the loop has been given the queue. `jobs` only
keeps books: which task of the loop each package runs, if it is one of the loop's. -/
structure service where
  eloop : loop
  tqueue : thread.queue
  m_queue : Bool
  jobs : List (Option Nat)

namespace service

def new (m_listeners : listener_map) (size : Nat) (m_queue : Bool) : service where
  eloop := loop.new m_listeners
  tqueue := thread.queue.new size
  m_queue := m_queue
  jobs := []

/-- The task that a package runs. -/
def job (s : service) (p : pkg) : Option Nat := s.jobs[p]?.join

/-- The task that a worker's package runs. -/
def job_of (s : service) (i : Nat) : Option Nat := (s.tqueue.worker i).m_current.bind s.job

/-- The worker is in the task. -/
def in_task (s : service) (i t : Nat) : Prop :=
  (s.tqueue.worker i).pc = .busy ∧ s.job_of i = some t

/-! ## The steps -/

def add_package (job : Option Nat) (s : service) : Option service :=
  (s.tqueue.act .add_package).map fun tqueue => { s with tqueue, jobs := s.jobs ++ [job] }

/-- A step of a call of `add_event`. Where it comes to add the task, `add_task` drops it
if there is no queue. -/
def add_event (c : caller) (s : service) : Option service := do
  let eloop ← s.eloop.add_event c
  if s.eloop.add c = .at_task true ∧ s.m_queue = true then
    add_package (some s.eloop.submitted) { s with eloop }
  else some { s with eloop }

/-- `cycle_events` is called. -/
def run_task (t : Nat) (s : loop) : loop :=
  { s with tasks := Function.update s.tasks t { pc := .at_head, reset := false } }

/-- A step of a worker's thread, which calls the function of its package and stays in it
until it returns. -/
def process (i : Nat) (s : service) : Option service := do
  let tqueue ← s.tqueue.process i
  match (s.tqueue.worker i).pc, s.job_of i with
  | .at_run, some t => some { s with tqueue, eloop := run_task t s.eloop }
  | .busy, some t => if (s.eloop.tasks t).pc = .finished then some { s with tqueue } else none
  | _, _ => some { s with tqueue }

/-- A step of `cycle_events` in the worker's thread. -/
def cycle_events (i : Nat) (s : service) : Option service :=
  if (s.tqueue.worker i).pc = .busy then do
    let t ← s.job_of i
    let eloop ← s.eloop.cycle_events t
    some { s with eloop }
  else none

inductive action where
  | set_queue_utility
  | caller (a : loop.action)
  | thread (a : thread.queue.action)
  | cycle_events (i : Nat)
deriving DecidableEq, Repr

/-- A step of a caller of the loop, of a thread of the queue, which others may use too, or
of a task in a worker. -/
def act (s : service) : action → Option service
  | .set_queue_utility => some { s with m_queue := true }
  | .caller (.add_event c) => s.add_event c
  | .caller (.cycle_events _) => none
  | .caller a => (s.eloop.act a).map fun eloop => { s with eloop }
  | .thread .add_package => s.add_package none
  | .thread (.process i) => s.process i
  | .thread a => (s.tqueue.act a).map fun tqueue => { s with tqueue }
  | .cycle_events i => s.cycle_events i

/-- The runs of a loop that is given its queue at first, or later if at all. -/
def services (m_queue : Bool) : transition.System service action :=
  transition.machine (fun s => ∃ m size, s = new m size m_queue) act

/-- The guard of a queue, for the steps of its threads. -/
def threads (G : thread.queue → thread.queue.action → Prop) (s : service) : action → Prop
  | .thread a => G s.tqueue a
  | _ => True

instance (G : thread.queue → thread.queue.action → Prop) [∀ s a, Decidable (G s a)] (s : service)
    (a : action) : Decidable (s.threads G a) :=
  match a with
  | .thread a => inferInstanceAs (Decidable (G s.tqueue a))
  | .set_queue_utility | .caller _ | .cycle_events _ => inferInstanceAs (Decidable True)

theorem reachable_guarded {G : service → action → Prop} [∀ s a, Decidable (G s a)]
    {Q : service → Prop}
    [DecidablePred Q] (m : listener_map) (size : Nat) (m_queue : Bool) (as : List action)
    (h : (as.foldlM (fun s a => if G s a then s.act a else none) (new m size m_queue)).any
      (fun s => Q s) = true) :
    ∃ s, transition.Reachable ((services m_queue).guarded G) s ∧ Q s :=
  transition.Reachable.machine_guarded (new m size m_queue) ⟨m, size, rfl⟩ as h

end service

end strangeio.event
