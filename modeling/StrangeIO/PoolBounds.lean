-- The size of the queue while the program sets it, starts and stops the queue and
-- adds packages in any order (threads/queue.cpp, pool.cpp). The workers are
-- only made by `init`, and the size is stored in the queue and in its pool.
import StrangeIO.WorkQueue

namespace strangeio.thread

/-! ## The calls in any order -/

/-- The queue, and whether its `m_waiter` is joinable: whether it has a thread
that was not joined. -/
structure resizable where
  queue : queue
  joinable : Bool

namespace resizable

def new (size : Nat) : resizable where
  queue := queue.new size
  joinable := false

/-- No call of the program is under way. -/
def between_calls (s : resizable) : Prop :=
  s.queue.control = .stopped ∨ s.queue.control = .started

instance (s : resizable) : Decidable s.between_calls := inferInstanceAs (Decidable (_ ∨ _))

/-- No loop runs up to a size below 0. -/
def set_size (size : Int) (s : resizable) : resizable :=
  { s with queue := { s.queue with
      m_pool := { s.queue.m_pool with m_size := size.toNat }
      m_size := size.toNat } }

/-- The steps of a call of `start`, which a queue that runs has no guard against. -/
def start (s : resizable) : resizable :=
  { s with queue := { s.queue with control := .deactivating } }

def stop (s : resizable) : resizable :=
  { s with queue := { s.queue with
      control := if s.queue.m_pool.m_running then .stopping 0 else .at_stop } }

/-- A step of `start` or `stop`. The program ends where a second thread would
be assigned to `m_waiter`, and `join` throws where there is none. -/
def steer (s : resizable) : Option resizable :=
  match s.queue.control with
  | .at_waiter =>
    if s.joinable then none
    else s.queue.steer.map fun q => { queue := q, joinable := true }
  | .at_join =>
    if s.joinable then s.queue.steer.map fun q => { queue := q, joinable := false }
    else some { s with queue := { s.queue with control := .stopped } }
  | _ => s.queue.steer.map fun q => { s with queue := q }

inductive action where
  | set_size (size : Int)
  | act (a : queue.action)
deriving DecidableEq, Repr

def act (s : resizable) : action → Option resizable
  | .set_size size => if s.between_calls then some (s.set_size size) else none
  | .act .start => if s.between_calls then some s.start else none
  | .act .stop => if s.between_calls then some s.stop else none
  | .act .steer => s.steer
  | .act a => (s.queue.act a).map fun q => { s with queue := q }

end resizable

/-- The runs of a queue under all calls of the program. -/
def resizables : transition.System resizable resizable.action :=
  transition.machine (fun s => ∃ size, s = resizable.new size) resizable.act

namespace resizable

/-- The steps that are as those of the queue. -/
theorem act_eq (s : resizable) {a : queue.action} (hstart : a ≠ .start) (hstop : a ≠ .stop)
    (hsteer : a ≠ .steer) :
    s.act (.act a) = (s.queue.act a).map fun q => { s with queue := q } := by
  cases a with
  | start => exact absurd rfl hstart
  | stop => exact absurd rfl hstop
  | steer => exact absurd rfl hsteer
  | _ => rfl

/-! ## The runs without a call out of order -/

/-- The queue whose calls come in order has its waiter just while it says so. -/
def of (s : thread.queue) : resizable where
  queue := s
  joinable := !s.control.waiterless

/-- Where a step of `start` or `stop` makes or ends the waiter. -/
theorem steer_waiterless {s t : thread.queue} (h : s.steer = some t) :
    (s.control = .at_waiter → t.control.waiterless = false) ∧
      (s.control = .at_join → t.control.waiterless = true) ∧
      (s.control ≠ .at_waiter → s.control ≠ .at_join →
        t.control.waiterless = s.control.waiterless) := by
  unfold queue.steer queue.notify queue.set_worker at h
  unfold control_pc.waiterless
  refine ⟨?_, ?_, ?_⟩ <;> grind

theorem of_steer {s t : thread.queue} (h : s.steer = some t) : (of s).steer = some (of t) := by
  obtain ⟨hwaiter, hjoin, hother⟩ := steer_waiterless h
  unfold steer of
  simp only [h, Option.map_some]
  split
  · rename_i hc
    rw [hwaiter hc, hc]
    rfl
  · rename_i hc
    rw [hjoin hc, hc]
    rfl
  · rename_i h1 h2
    rw [hother h1 h2]

/-- Each step of a queue whose calls come in order is a step here. -/
theorem of_act {s t : thread.queue} {a : queue.action} (h : s.act a = some t) :
    (of s).act (.act a) = some (of t) := by
  by_cases hsteer : a = .start ∨ a = .stop ∨ a = .steer
  · rcases hsteer with rfl | rfl | rfl
    · simp only [queue.act] at h
      split at h
      · rename_i hc
        cases h
        simp [act, between_calls, of, start, hc, control_pc.waiterless]
      · cases h
    · simp only [queue.act] at h
      split at h
      · rename_i hc
        cases h
        simp only [act, between_calls, of, stop, hc, or_true, if_true]
        split <;> rfl
      · cases h
    · exact of_steer h
  · push Not at hsteer
    obtain ⟨hstart, hstop, hsteer⟩ := hsteer
    have hcontrol := (queue.act_control h hstart hstop hsteer).1
    rw [act_eq _ hstart hstop hsteer]
    simp only [of, h, hcontrol, Option.map_some]

theorem reachable_of {s : thread.queue} (h : transition.Reachable queues s) :
    transition.Reachable resizables (of s) := by
  refine h.keeps (P := fun s => transition.Reachable resizables (of s)) ?_ ?_
  · rintro s ⟨size, rfl⟩
    exact ⟨_, [], ⟨size, rfl⟩, .nil _⟩
  · intro s a t hs ha
    exact hs.step (.act a) (of_act ha)

/-! ## The workers that there are -/

end resizable

/-- The worker that the waiter has chosen in `assign`. -/
def waiter_pc.chosen : waiter_pc → Option Nat
  | .testing i | .giving i | .loading i | .unlocking i | .notifying i => some i
  | _ => none

/-- The last `start` has made its workers. -/
def control_pc.filled : control_pc → Bool
  | .starting _ | .spawning _ | .awaiting _ | .at_waiter | .at_running | .started => true
  | _ => false

/-- The index of the pool whose worker the next step of the waiter uses. -/
def queue.reads (s : queue) : Option Nat :=
  match s.waiter with
  | .trying i => if i < s.m_size then some i else none
  | pc => pc.chosen

namespace resizable

/-- The waiter reads only the workers that `init` has made. -/
def addresses_workers (s : resizable) : Prop :=
  ∀ i, s.queue.reads = some i → i < s.queue.m_pool.length

instance (s : resizable) : Decidable s.addresses_workers :=
  match h : s.queue.reads with
  | none => isTrue fun i hi => by rw [h] at hi; cases hi
  | some j =>
    if hj : j < s.queue.m_pool.length then isTrue fun i hi => by rw [h] at hi; cases hi; exact hj
    else isFalse fun hs => hj (hs j h)

/-- While the queue runs, its size is set to no more than its workers. -/
def sets_room (s : resizable) : action → Prop
  | .set_size size => s.queue.control = .stopped ∨ size ≤ s.queue.m_pool.length
  | .act _ => True

instance (s : resizable) (a : action) : Decidable (s.sets_room a) :=
  match a with
  | .set_size _ => inferInstanceAs (Decidable (_ ∨ _))
  | .act _ => inferInstanceAs (Decidable True)

/-- A queue that may assign packages has as many workers as its size. -/
structure Manned (s : resizable) : Prop where
  same : s.queue.m_pool.m_size = s.queue.m_size
  room : s.queue.m_size ≤ s.queue.m_pool.length ∨
    s.joinable = false ∧ s.queue.control.filled = false
  gone : s.joinable = false → s.queue.waiter = .unstarted ∨ s.queue.waiter = .exited
  rest : s.queue.control = .stopped → s.joinable = false
  chosen : ∀ i, s.queue.waiter.chosen = some i → i < s.queue.m_pool.length

theorem manned_new (size : Nat) : (new size).Manned :=
  ⟨rfl, .inr ⟨rfl, rfl⟩, fun _ => .inl rfl, fun _ => rfl, fun _ hi => by cases hi⟩

/-- The waiter tries a worker only while it has a thread, and so while there is room. -/
theorem Manned.addresses_workers {s : resizable} (hs : s.Manned) : s.addresses_workers := by
  intro i hi
  unfold queue.reads at hi
  split at hi
  · rename_i j hw
    split at hi
    · rename_i hlt
      cases hi
      rcases hs.room with hroom | ⟨hj, -⟩
      · omega
      · rcases hs.gone hj with hgone | hgone
        · rw [hw] at hgone
          cases hgone
        · rw [hw] at hgone
          cases hgone
    · cases hi
  · exact hs.chosen i hi

end resizable

namespace queue

/-- The sizes that only `start` and `set_size` change. -/
structure SameSizes (s t : queue) : Prop where
  m_size : t.m_size = s.m_size
  pool_size : t.m_pool.m_size = s.m_pool.m_size
  length : t.m_pool.length = s.m_pool.length

theorem SameSizes.act {s t : queue} {a : action} (h : s.act a = some t) (hsteer : a ≠ .steer) :
    SameSizes s t := by
  cases a with
  | steer => exact absurd rfl hsteer
  | process i =>
    obtain ⟨w, -, rfl⟩ := process_eq h
    unfold queue.notify set_worker
    constructor <;> grind
  | cycle =>
    simp only [queue.act, queue.cycle, set_worker] at h
    constructor <;> grind
  | _ =>
    simp only [queue.act, queue.notify, set_worker] at h
    constructor <;> grind

/-- The waiter chooses a worker that it tries, below the size. -/
theorem cycle_chosen {s t : queue} (h : s.cycle = some t) {i : Nat}
    (hi : t.waiter.chosen = some i) :
    s.waiter.chosen = some i ∨ s.waiter = .trying i ∧ i < s.m_size := by
  cases hw : s.waiter <;> simp only [cycle, hw, set_worker] at h <;>
    grind [waiter_pc.chosen]

/-- What a step of `start` or `stop` does to the sizes and to where it is. -/
structure Steered (s t : queue) : Prop where
  m_size : t.m_size = s.m_size
  pool_size : t.m_pool.m_size = s.m_pool.m_size
  grows : s.m_pool.length ≤ t.m_pool.length
  fills : t.control.filled = true → s.control.filled = true ∨
    t.m_pool.length = s.m_pool.length + s.m_pool.m_size
  waiter : t.waiter.chosen = s.waiter.chosen ∨ t.waiter.chosen = none
  stays : s.control ≠ .at_waiter → s.waiter = .unstarted ∨ s.waiter = .exited →
    t.waiter = s.waiter
  joins : t.control = .stopped → s.control = .at_join

theorem Steered.steer {s t : queue} (h : s.steer = some t) : Steered s t := by
  cases hc : s.control <;> simp only [queue.steer, hc, set_worker, queue.notify] at h <;>
    constructor <;> grind [control_pc.filled, waiter_pc.chosen]

end queue

namespace resizable

theorem Manned.set_size {s : resizable} (hs : s.Manned) {size : Int}
    (hg : s.sets_room (.set_size size)) : (s.set_size size).Manned := by
  refine ⟨rfl, ?_, hs.gone, hs.rest, hs.chosen⟩
  rcases hg with hc | hle
  · refine .inr ⟨hs.rest hc, ?_⟩
    change s.queue.control.filled = false
    rw [hc]
    rfl
  · refine .inl ?_
    change size.toNat ≤ s.queue.m_pool.length
    omega

theorem Manned.start {s : resizable} (hs : s.Manned) : s.start.Manned := by
  refine ⟨hs.same, ?_, hs.gone, fun hc => (by cases hc), hs.chosen⟩
  rcases hs.room with hroom | ⟨hj, -⟩
  · exact .inl hroom
  · exact .inr ⟨hj, rfl⟩

theorem Manned.stop {s : resizable} (hs : s.Manned) : s.stop.Manned := by
  have hcontrol : s.stop.queue.control = .stopping 0 ∨ s.stop.queue.control = .at_stop := by
    unfold resizable.stop
    simp only
    split
    · exact .inl rfl
    · exact .inr rfl
  refine ⟨hs.same, ?_, hs.gone, ?_, hs.chosen⟩
  · rcases hs.room with hroom | ⟨hj, -⟩
    · exact .inl hroom
    · refine .inr ⟨hj, ?_⟩
      rcases hcontrol with hc | hc
      · rw [hc]
        rfl
      · rw [hc]
        rfl
  · intro hc
    rcases hcontrol with hc' | hc'
    · rw [hc] at hc'
      cases hc'
    · rw [hc] at hc'
      cases hc'

/-- A step of `start` or `stop` that leaves the thread of the waiter alone. -/
theorem Manned.steered {s : resizable} {q : thread.queue} (hs : s.Manned)
    (h : queue.Steered s.queue q) (hwaiter : s.queue.control ≠ .at_waiter)
    (hjoin : s.queue.control ≠ .at_join) : Manned { s with queue := q } := by
  have hfilled : q.control.filled = true → q.m_size ≤ q.m_pool.length := by
    intro hc
    have hgrows := h.grows
    rw [h.m_size]
    rcases h.fills hc with hold | hmade
    · rcases hs.room with hroom | ⟨-, hnot⟩
      · omega
      · rw [hold] at hnot
        cases hnot
    · have := hs.same
      omega
  refine ⟨?_, ?_, ?_, ?_, ?_⟩
  · exact h.pool_size.trans (hs.same.trans h.m_size.symm)
  · rcases hs.room with hroom | ⟨hj, -⟩
    · have hgrows := h.grows
      have hsize := h.m_size
      exact .inl (by simp only; omega)
    · by_cases hc : q.control.filled = true
      · exact .inl (hfilled hc)
      · exact .inr ⟨hj, by simpa using hc⟩
  · intro hj
    have hgone := hs.gone hj
    rw [← h.stays hwaiter hgone] at hgone
    exact hgone
  · intro hc
    exact absurd (h.joins hc) hjoin
  · intro i hi
    rcases h.waiter with hw | hw
    · exact Nat.lt_of_lt_of_le (hs.chosen i (hw ▸ hi)) h.grows
    · rw [hw] at hi
      cases hi

theorem Manned.steer {s t : resizable} (hs : s.Manned) (h : s.steer = some t) : t.Manned := by
  unfold resizable.steer at h
  split at h
  · rename_i hc
    split at h
    · cases h
    · rename_i hj
      simp only [queue.steer, hc, Option.map_some] at h
      cases h
      have hj : s.joinable = false := by simpa using hj
      -- the workers of this start are made by now
      have hroom : s.queue.m_size ≤ s.queue.m_pool.length := by
        rcases hs.room with hroom | ⟨-, hnot⟩
        · exact hroom
        · rw [hc] at hnot
          cases hnot
      exact ⟨hs.same, .inl hroom, fun hj => (by cases hj), fun hc => (by cases hc),
        fun i hi => (by cases hi)⟩
  · rename_i hc
    split at h
    · rename_i hj
      simp only [queue.steer, hc] at h
      split at h
      · rename_i hw
        cases h
        have hroom : s.queue.m_size ≤ s.queue.m_pool.length := by
          rcases hs.room with hroom | ⟨hnot, -⟩
          · exact hroom
          · rw [hj] at hnot
            cases hnot
        exact ⟨hs.same, .inl hroom, fun _ => .inr hw, fun _ => rfl, hs.chosen⟩
      · cases h
    · rename_i hj
      cases h
      have hj : s.joinable = false := by simpa using hj
      exact ⟨hs.same, .inr ⟨hj, rfl⟩, hs.gone, fun _ => hj, hs.chosen⟩
  · rename_i h1 h2
    obtain ⟨q, hq, rfl⟩ := Option.map_eq_some_iff.mp h
    exact hs.steered (queue.Steered.steer hq) h1 h2

/-- A step of the waiter, of a worker, of `add_package` or of a wake-up. -/
theorem Manned.other {s : resizable} {a : queue.action} {q : thread.queue} (hs : s.Manned)
    (h : s.queue.act a = some q) (hstart : a ≠ .start) (hstop : a ≠ .stop) (hsteer : a ≠ .steer) :
    Manned { s with queue := q } := by
  obtain ⟨hsize, hpool, hlength⟩ := queue.SameSizes.act h hsteer
  have hcontrol := (queue.act_control h hstart hstop hsteer).1
  have hwaiter : (∀ i, q.waiter.chosen = some i → i < q.m_pool.length) ∧
      (s.queue.waiter = .unstarted ∨ s.queue.waiter = .exited → q.waiter = s.queue.waiter) := by
    by_cases hcycle : a = .cycle
    · subst hcycle
      obtain ⟨h1, h2⟩ := queue.cycle_gone h
      refine ⟨fun i hi => ?_, fun hgone => absurd hgone (by simp [h1, h2])⟩
      rw [hlength]
      rcases queue.cycle_chosen h hi with hold | ⟨hw, hlt⟩
      · exact hs.chosen i hold
      · refine hs.addresses_workers i ?_
        simp only [queue.reads, hw, hlt, if_true]
    · have hw : q.waiter = s.queue.waiter ∨ s.queue.waiter = .blocked ∧ q.waiter = .woken := by
        by_cases hadd : a = .add_package
        · subst hadd
          cases h
          exact .inl rfl
        · rcases (queue.Aside.act h hcycle hadd).waiter with hw | hw | ⟨ha, -⟩
          · exact .inl hw
          · exact .inr hw
          · exact absurd ha hsteer
      rcases hw with hw | ⟨hblocked, hw⟩
      · rw [hw, hlength]
        exact ⟨hs.chosen, fun _ => rfl⟩
      · rw [hw, hblocked]
        exact ⟨fun i hi => (by cases hi), fun hgone => by simp at hgone⟩
  refine ⟨?_, ?_, ?_, ?_, hwaiter.1⟩
  · exact hpool.trans (hs.same.trans hsize.symm)
  · simp only [hsize, hlength, hcontrol]
    exact hs.room
  · intro hj
    have hgone := hs.gone hj
    rw [← hwaiter.2 hgone] at hgone
    exact hgone
  · intro hc
    exact hs.rest (hcontrol ▸ hc)

theorem Manned.act {s t : resizable} {a : action} (hs : s.Manned) (h : s.act a = some t)
    (hg : s.sets_room a) : t.Manned := by
  cases a with
  | set_size size =>
    simp only [resizable.act] at h
    split at h
    · cases h
      exact hs.set_size hg
    · cases h
  | act a =>
    by_cases hstart : a = .start
    · subst hstart
      simp only [resizable.act] at h
      split at h
      · cases h
        exact hs.start
      · cases h
    by_cases hstop : a = .stop
    · subst hstop
      simp only [resizable.act] at h
      split at h
      · cases h
        exact hs.stop
      · cases h
    by_cases hsteer : a = .steer
    · subst hsteer
      exact hs.steer h
    rw [act_eq s hstart hstop hsteer] at h
    obtain ⟨q, hq, rfl⟩ := Option.map_eq_some_iff.mp h
    exact hs.other hq hstart hstop hsteer

/-- In the runs in which the size of a started queue is only set to a number
that it has workers for, the waiter reads no worker that was not made. -/
theorem only_workers_are_addressed {s : resizable}
    (h : transition.Reachable (resizables.guarded sets_room) s) : s.addresses_workers := by
  have hmanned : s.Manned := by
    refine h.keeps (P := Manned) ?_ ?_
    · rintro s ⟨size, rfl⟩
      exact manned_new size
    · rintro s a t hs ⟨hg, ha⟩
      exact hs.act ha hg
  exact hmanned.addresses_workers

theorem reachable_guarded {Q : resizable → Prop} [DecidablePred Q] (size : Nat) (as : List action)
    (h : (as.foldlM (fun s a => if sets_room s a then s.act a else none) (new size)).any
      (fun s => Q s) = true) :
    ∃ s, transition.Reachable (resizables.guarded sets_room) s ∧ Q s :=
  transition.Reachable.machine_guarded (new size) ⟨size, rfl⟩ as h

/-- A queue of one worker is started, set to no workers and back to one, and given a
package. -/
def set_down_and_up : List action :=
  List.flatten [
    queue.start_one.map .act,
    [.set_size 0, .set_size 1, .act .add_package],
    List.replicate 6 (.act .cycle)]

theorem a_queue_set_down_and_up :
    ∃ s, transition.Reachable (resizables.guarded sets_room) s ∧ s.queue.reads = some 0 ∧
      s.addresses_workers := by
  have hrun : (set_down_and_up.foldlM (fun s a => if sets_room s a then s.act a else none)
      (new 1)).any (fun s => decide (s.queue.reads = some 0)) = true := by
    decide +kernel
  obtain ⟨s, hs, hreads⟩ := reachable_guarded 1 set_down_and_up hrun
  exact ⟨s, hs, hreads, only_workers_are_addressed hs⟩

/-- A started queue of one worker is set to two, and its worker still has the first
package when the second comes. -/
def set_up : List action :=
  List.flatten [
    queue.start_one.map .act,
    [.set_size 2, .act .add_package, .act .add_package],
    List.replicate 20 (.act .cycle)]

theorem a_missing_worker_is_addressed :
    ∃ s, transition.Reachable resizables s ∧ ¬ s.addresses_workers := by
  have hrun : (set_up.foldlM act (new 1)).any (fun s => decide (¬ s.addresses_workers)) = true := by
    decide +kernel
  exact transition.Reachable.machine (new 1) ⟨1, rfl⟩ set_up hrun

end resizable

end strangeio.thread
