-- The loop of the rack thread, and the calls that land on it from any thread
-- (component/rack.cpp). Each action is one step of one thread; a sync and a
-- cycle are the points where their parts start.
import StrangeIO.SyncPass
import StrangeIO.Transition

namespace strangeio.component

/-! ## Syncs and requests -/

/-- The parts of a sync: the kinds that it performs, and the cycle at its end. -/
inductive phase where
  | kind (t : sync_type)
  | cycle
deriving DecidableEq, Repr

/-- The parts of `sync(flags)` in their order. A timed sync returns early. -/
def phases (flags : sync_flag) : List phase :=
  (sync_runs flags).map .kind ++ if flags.has sync_flags.sync_duration then [] else [.cycle]

/-- What a request waits for: a sync of its type, or any sync cycle. -/
inductive need where
  | type (t : sync_type)
  | cycle
deriving DecidableEq, Repr

/-- The start of the part answers the request. A downstream and a timed sync are cycles. -/
def phase.serves : phase → need → Bool
  | .kind t, .type t' => t = t'
  | .kind .downstream, .cycle => true
  | .kind .sync_duration, .cycle => true
  | .cycle, .cycle => true
  | _, _ => false

/-- The types of sync that the flags ask for. -/
def sync_types (flags : sync_flag) : List sync_type :=
  [.upstream, .glob_sync, .downstream, .sync_duration].filter fun t => flags.has t.flag

theorem mem_sync_types {flags : sync_flag} {t : sync_type} :
    t ∈ sync_types flags ↔ flags.has t.flag = true := by
  unfold sync_types
  rw [List.mem_filter]
  cases t <;> simp

/-! ## The state -/

/-- Where the rack thread is: the statement that it comes to next. -/
inductive rack_pc where
  | unstarted
  | created
  | activated
  | at_loop
  | at_wait
  | blocked
  | woken
  | at_recheck
  | at_drain
  | cycling
  | at_resync
  | at_flags
  | at_upstream
  | upstream_sync (todo : List phase)
  | cut_upstream
  | at_sync
  | second_sync (todo : List phase)
  | clear_flags
  | plain_cycle
  | clear_resync
  | count
  | ended
  | finished
  | undefined
deriving DecidableEq, Repr

/-- `notifying` counts the calls that have yet to notify, and `raising` holds
the calls of `trigger_sync` that have yet to set `m_resync`, each with the
types that have not started since it raised its flags. The last five fields
only keep books: whether a handler has bailed out, the triggers that landed
since the thread last looked at the queue, the types raised and the requests
made since a sync answered them, and whether one of these was cleared. -/
structure rack_loop where
  m_running : Bool
  m_active : Bool
  m_resync : Bool
  m_resync_flags : sync_flag
  m_cycle_queue : Int
  owns_lock : Bool
  pc : rack_pc
  notifying : Nat
  raising : List (sync_flag × List sync_type)
  bailed : Bool
  landed : Nat
  owed : List sync_type
  due : List need
  lost : Bool
deriving DecidableEq

namespace rack_loop

def new : rack_loop where
  m_running := false
  m_active := false
  m_resync := false
  m_resync_flags := 0
  m_cycle_queue := 0
  owns_lock := false
  pc := .unstarted
  notifying := 0
  raising := []
  bailed := false
  landed := 0
  owed := []
  due := []
  lost := false

/-! ## The steps of the rack thread -/

/-- A part of a sync starts: the requests that it answers are answered. -/
def start_phase (p : phase) (s : rack_loop) : rack_loop :=
  { s with
    owed := s.owed.filter fun t => !p.serves (.type t)
    due := s.due.filter fun n => !p.serves n
    raising := s.raising.map fun call => (call.1, call.2.filter fun t => !p.serves (.type t)) }

/-- A write of the loop to `m_resync_flags`: a flag that goes down unanswered is lost. -/
def store_flags (flags : sync_flag) (s : rack_loop) : rack_loop :=
  { s with
    m_resync_flags := flags
    lost := s.lost || s.owed.any fun t => s.m_resync_flags.has t.flag && !flags.has t.flag }

def store_resync (s : rack_loop) : rack_loop :=
  { s with m_resync := false, due := [], lost := s.lost || s.m_resync && !s.due.isEmpty }

/-- The next step of the rack thread, which has none where it is blocked or has ended. -/
def run (s : rack_loop) : Option rack_loop :=
  match s.pc with
  | .unstarted => none
  | .created => some { s with m_active := true, pc := .activated }
  | .activated => some { s with owns_lock := true, pc := .at_loop }
  | .at_loop => some { s with pc := if s.m_running then .at_wait else .ended }
  | .at_wait =>
    -- what a wait without the lock does, nothing says
    if s.owns_lock then some { s with owns_lock := false, pc := .blocked }
    else some { s with pc := .undefined }
  | .blocked => none
  | .woken => some { s with owns_lock := true, pc := .at_recheck }
  | .at_recheck =>
    if s.m_running then some { s with pc := .at_drain }
    else some { s with owns_lock := false, pc := .ended }
  | .at_drain =>
    some { s with landed := 0, pc := if 0 < s.m_cycle_queue then .cycling else .at_loop }
  | .cycling => some { s with pc := .at_resync }
  | .at_resync => some { s with pc := if s.m_resync then .at_flags else .count }
  | .at_flags => some { s with pc := if s.m_resync_flags ≠ 0 then .at_upstream else .plain_cycle }
  | .at_upstream =>
    if s.m_resync_flags.has sync_flags.upstream then
      some { s with pc := .upstream_sync (phases sync_flags.upstream) }
    else some { s with pc := .at_sync }
  | .upstream_sync (p :: todo) => some { s.start_phase p with pc := .upstream_sync todo }
  | .upstream_sync [] => some { s with pc := .cut_upstream }
  | .cut_upstream =>
    some { s.store_flags (s.m_resync_flags ^^^ sync_flags.upstream) with pc := .at_sync }
  | .at_sync => some { s with pc := .second_sync (phases s.m_resync_flags) }
  | .second_sync (p :: todo) => some { s.start_phase p with pc := .second_sync todo }
  | .second_sync [] => some { s with pc := .clear_flags }
  | .clear_flags => some { s.store_flags 0 with pc := .clear_resync }
  | .plain_cycle => some { s.start_phase .cycle with pc := .clear_resync }
  | .clear_resync => some { s.store_resync with pc := .count }
  | .count => some { s with m_cycle_queue := memory.int32 (s.m_cycle_queue - 1), pc := .at_drain }
  | .ended => some { s with m_active := false, pc := .finished }
  | .finished => none
  | .undefined => none

/-- A cycle or a sync is under way, and may throw. -/
def may_throw (s : rack_loop) : Bool :=
  match s.pc with
  | .cycling | .upstream_sync _ | .second_sync _ | .plain_cycle => true
  | _ => false

/-! ## The actions -/

inductive action where
  | start
  | rack
  | throws
  | wake
  | trigger_cycle
  | notify
  | trigger_sync (flags : sync_flag)
  | raise (call : Nat)
  | stop
deriving DecidableEq, Repr

def notify_one (s : rack_loop) : rack_loop :=
  if s.pc = .blocked then { s with pc := .woken } else s

/-- What a call of `trigger_sync` still waits for when it sets `m_resync`. -/
def call_needs (call : sync_flag × List sync_type) : List need :=
  if call.1 = 0 then [.cycle] else call.2.map .type

/-- One step: the start of the loop, a step or an exception of the rack
thread, a wake-up without a notification, or a step of another call. -/
def act (s : rack_loop) : action → Option rack_loop
  | .start =>
    if s.pc = .unstarted then some { s with m_running := true, m_active := false, pc := .created }
    else none
  | .rack => s.run
  | .throws =>
    -- both handlers unlock and leave the inner loop
    if s.may_throw then some { s with owns_lock := false, pc := .at_loop, bailed := true } else none
  | .wake => if s.pc = .blocked then some { s with pc := .woken } else none
  | .trigger_cycle =>
    some { s with
      m_cycle_queue := memory.int32 (s.m_cycle_queue + 1)
      landed := s.landed + 1
      notifying := s.notifying + 1 }
  | .notify =>
    if 0 < s.notifying then some { s.notify_one with notifying := s.notifying - 1 } else none
  | .trigger_sync flags =>
    some { s with
      m_resync_flags := if flags ≠ 0 then s.m_resync_flags ||| flags else s.m_resync_flags
      owed := s.owed ++ sync_types flags
      raising := s.raising ++ [(flags, sync_types flags)] }
  | .raise i =>
    match s.raising[i]? with
    | none => none
    | some call =>
      some { s with
        m_resync := true
        due := s.due ++ call_needs call
        raising := s.raising.eraseIdx i }
  | .stop =>
    if s.pc = .unstarted then none
    else some { s with m_running := false, notifying := s.notifying + 1 }

/-- What an exception does, and when there is one. -/
theorem act_throws {s t : rack_loop} (h : s.act .throws = some t) :
    s.may_throw = true ∧ t = { s with owns_lock := false, pc := .at_loop, bailed := true } := by
  simp only [act] at h
  split at h
  · rename_i hthrow
    cases h
    exact ⟨hthrow, rfl⟩
  · cases h

end rack_loop

/-- The runs of the loop among any calls. -/
def loops : transition.System rack_loop rack_loop.action :=
  transition.machine (· = rack_loop.new) rack_loop.act

end strangeio.component
