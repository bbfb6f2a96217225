-- The scheduled threads (threads/scheduled.cpp) and how a rack starts one
-- (component/rack.cpp). A thread works on the object whose `start` made it, wherever its
-- handle is moved to.
import Mathlib.Logic.Function.Basic
import StrangeIO.Transition

namespace strangeio.thread

/-! ## The objects and their threads -/

/-- Where the thread of a scheduled is: the statement that it comes to next. -/
inductive scheduled_pc where
  | created
  | activating
  | func
  | deactivating
  | exited
deriving DecidableEq, Repr

/-- In these places of its thread an object is active. -/
def scheduled_pc.active : scheduled_pc → Bool
  | .func | .deactivating => true
  | .created | .activating | .exited => false

/-- The handle is the thread that can be joined. -/
structure scheduled where
  m_active : Bool
  m_handle : Option Nat
deriving DecidableEq, Repr

/-- A thread, and the object that it was started by. -/
structure scheduled_thread where
  self : Nat
  pc : scheduled_pc
deriving DecidableEq, Repr

/-- What ends a run: the program is terminated, an exception is thrown where there is no
thread to join, or a thread uses an object that is gone. -/
inductive fault where
  | terminated
  | system_error
  | dangling
deriving DecidableEq, Repr

/-- A destructor has read that its object is active and comes to the join, or it comes to
the end of the members. -/
inductive destructor_pc where
  | joining
  | ending
deriving DecidableEq, Repr

/-- The objects by their addresses, all threads that were started, and the object whose
destructor goes on. -/
structure schedule where
  objects : Nat → Option scheduled
  threads : List scheduled_thread
  destroying : Option (Nat × destructor_pc)

/-- What the one thread does that uses the objects. -/
inductive scheduled_call where
  | make (x : Nat)
  | start (x : Nat)
  | assign (x y : Nat)
  | join (x : Nat)
  | destroy (x : Nat)
deriving DecidableEq, Repr

inductive scheduled_action where
  | call (c : scheduled_call)
  | destructor
  | go (i : Nat)
deriving DecidableEq, Repr

def scheduled_action.as_call : scheduled_action → Option scheduled_call
  | .call c => some c
  | .destructor | .go _ => none

namespace schedule

def exited (w : schedule) (i : Nat) : Bool := w.threads[i]?.any fun th => th.pc = .exited

def put (w : schedule) (x : Nat) (s : Option scheduled) : schedule :=
  { w with objects := Function.update w.objects x s }

/-- An object is made where there is none. -/
def make (w : schedule) (x : Nat) : Option (Except fault schedule) :=
  match w.objects x with
  | some _ => none
  | none => some (.ok (w.put x (some ⟨false, none⟩)))

/-- A new thread over one that can be joined terminates the program. -/
def start (w : schedule) (x : Nat) : Option (Except fault schedule) := do
  let s ← w.objects x
  if s.m_active then some (.ok w)
  else if s.m_handle.isSome then some (.error .terminated)
  else
    let w' := w.put x (some { s with m_handle := some w.threads.length })
    some (.ok { w' with threads := w.threads ++ [⟨x, .created⟩] })

/-- The move assignment, which swaps the handles. -/
def assign (w : schedule) (x y : Nat) : Option (Except fault schedule) := do
  let s ← w.objects x
  let that ← w.objects y
  some (.ok ((w.put x (some ⟨that.m_active, that.m_handle⟩)).put y
    (some { that with m_handle := s.m_handle })))

/-- A join waits for the thread. -/
def join (w : schedule) (x : Nat) : Option (Except fault schedule) := do
  let s ← w.objects x
  match s.m_handle with
  | none => some (.error .system_error)
  | some i => if w.exited i then some (.ok (w.put x (some { s with m_handle := none }))) else none

/-- The destructor of an object reads whether it is active. -/
def destroy (w : schedule) (x : Nat) : Option (Except fault schedule) := do
  let s ← w.objects x
  some (.ok { w with destroying := some (x, if s.m_active then .joining else .ending) })

/-- The next step of the destructor. An exception that leaves it terminates the program, and
so does a handle that ends while it can be joined. -/
def destructor_step (w : schedule) : Option (Except fault schedule) := do
  let (x, pc) ← w.destroying
  let s ← w.objects x
  match pc, s.m_handle with
  | .joining, none => some (.error .terminated)
  | .joining, some i =>
    if w.exited i then
      let w' := w.put x (some { s with m_handle := none })
      some (.ok { w' with destroying := some (x, .ending) })
    else none
  | .ending, some _ => some (.error .terminated)
  | .ending, none => some (.ok { w.put x none with destroying := none })

/-- A statement of the thread that uses its object. -/
def touch (w : schedule) (i : Nat) (th : scheduled_thread) (pc : scheduled_pc)
    (f : scheduled → scheduled) : Except fault schedule :=
  match w.objects th.self with
  | none => .error .dangling
  | some s => .ok { w.put th.self (some (f s)) with threads := w.threads.set i { th with pc } }

/-- The next step of a thread. -/
def thread_step (w : schedule) (i : Nat) : Option (Except fault schedule) := do
  let th ← w.threads[i]?
  match th.pc with
  | .created => some (w.touch i th .activating id)
  | .activating => some (w.touch i th .func fun s => { s with m_active := true })
  | .func => some (.ok { w with threads := w.threads.set i { th with pc := .deactivating } })
  | .deactivating => some (w.touch i th .exited fun s => { s with m_active := false })
  | .exited => none

def call (w : schedule) : scheduled_call → Option (Except fault schedule)
  | .make x => w.make x
  | .start x => w.start x
  | .assign x y => w.assign x y
  | .join x => w.join x
  | .destroy x => w.destroy x

/-- A run ends with the first fault. -/
def act : Except fault schedule → scheduled_action → Option (Except fault schedule)
  | .error _, _ => none
  | .ok w, .call c => if w.destroying = none then w.call c else none
  | .ok w, .destructor => w.destructor_step
  | .ok w, .go i => w.thread_step i

def new : schedule := ⟨fun _ => none, [], none⟩

def scheduling : transition.System (Except fault schedule) scheduled_action :=
  transition.machine (fun e => e = .ok new) act

/-! ## What a step does -/

/-- A thread that goes on without a fault writes to its object, which is there, or leaves
its function. -/
theorem thread_step_cases {w w' : schedule} {i : Nat} (h : w.thread_step i = some (.ok w')) :
    ∃ th pc, w.threads[i]? = some th ∧ th.pc ≠ .exited ∧
      w'.threads = w.threads.set i { th with pc } ∧ w'.destroying = w.destroying ∧
      ((th.pc = .func ∧ pc = .deactivating ∧ w'.objects = w.objects) ∨
        ∃ s active, w.objects th.self = some s ∧
          w'.objects = Function.update w.objects th.self (some { s with m_active := active }) ∧
          (th.pc = .created ∧ pc = .activating ∧ active = s.m_active ∨
            th.pc = .activating ∧ pc = .func ∧ active = true ∨
            th.pc = .deactivating ∧ pc = .exited ∧ active = false)) := by
  obtain ⟨th, hth, h⟩ := Option.bind_eq_some_iff.mp h
  have htouch {pc : scheduled_pc} {f : scheduled → scheduled} (h : w.touch i th pc f = .ok w') :
      ∃ s, w.objects th.self = some s ∧
        w'.objects = Function.update w.objects th.self (some (f s)) ∧
        w'.threads = w.threads.set i { th with pc } ∧ w'.destroying = w.destroying := by
    unfold touch at h
    split at h
    · cases h
    · rename_i s hs
      cases h
      exact ⟨s, hs, rfl, rfl, rfl⟩
  split at h
  · rename_i hpc
    obtain ⟨s, hs, hobjects, hthreads, hidle⟩ := htouch (Option.some.inj h)
    exact ⟨th, _, hth, by simp [hpc], hthreads, hidle,
      .inr ⟨s, _, hs, hobjects, .inl ⟨hpc, rfl, rfl⟩⟩⟩
  · rename_i hpc
    obtain ⟨s, hs, hobjects, hthreads, hidle⟩ := htouch (Option.some.inj h)
    exact ⟨th, _, hth, by simp [hpc], hthreads, hidle,
      .inr ⟨s, _, hs, hobjects, .inr (.inl ⟨hpc, rfl, rfl⟩)⟩⟩
  · rename_i hpc
    cases h
    exact ⟨th, _, hth, by simp [hpc], rfl, rfl, .inl ⟨hpc, rfl, rfl⟩⟩
  · rename_i hpc
    obtain ⟨s, hs, hobjects, hthreads, hidle⟩ := htouch (Option.some.inj h)
    exact ⟨th, _, hth, by simp [hpc], hthreads, hidle,
      .inr ⟨s, _, hs, hobjects, .inr (.inr ⟨hpc, rfl, rfl⟩)⟩⟩
  · cases h

/-! ## Objects that stay where they are -/

/-- An object is started and destroyed where it has no thread to join, joined where it has
one, and not moved. -/
def in_place : Except fault schedule → scheduled_action → Prop
  | .ok w, .call (.start x) => ∀ s, w.objects x = some s → s.m_handle = none
  | .ok w, .call (.destroy x) => ∀ s, w.objects x = some s → s.m_handle = none
  | .ok w, .call (.join x) => ∀ s, w.objects x = some s → s.m_handle ≠ none
  | _, .call (.assign _ _) => False
  | _, _ => True

/-- A thread that has not ended can be joined by its object, which is there, an object is
active just while its thread is, and a destructor has nothing to wait for. -/
structure InPlace (w : schedule) : Prop where
  ending : ∀ x pc, w.destroying = some (x, pc) →
    pc = .ending ∧ ∃ s, w.objects x = some s ∧ s.m_handle = none
  threads : ∀ i th, w.threads[i]? = some th → th.pc ≠ .exited →
    ∃ s, w.objects th.self = some s ∧ s.m_handle = some i
  objects : ∀ x s, w.objects x = some s →
    (s.m_handle = none ∧ s.m_active = false) ∨
      ∃ i th, s.m_handle = some i ∧ w.threads[i]? = some th ∧ th.self = x ∧
        s.m_active = th.pc.active

/-- An object without a handle has no thread that goes on. -/
theorem InPlace.no_thread {w : schedule} (hw : InPlace w) {x : Nat}
    (hx : ∀ s, w.objects x = some s → s.m_handle = none) {i : Nat} {th : scheduled_thread}
    (hth : w.threads[i]? = some th) (hpc : th.pc ≠ .exited) : th.self ≠ x := by
  rintro rfl
  obtain ⟨s, hs, hhandle⟩ := hw.threads i th hth hpc
  rw [hx s hs] at hhandle
  cases hhandle

/-- An object may be made new or given up where it has no thread that goes on. -/
theorem InPlace.put {w w' : schedule} (hw : InPlace w) {x : Nat} {new : Option scheduled}
    (hobjects : w'.objects = Function.update w.objects x new) (hthreads : w'.threads = w.threads)
    (hidle : w'.destroying = none)
    (hx : ∀ (i : Nat) (th : scheduled_thread),
      w.threads[i]? = some th → th.pc ≠ .exited → th.self ≠ x)
    (hnew : ∀ s, new = some s → s.m_handle = none ∧ s.m_active = false) : InPlace w' := by
  refine ⟨fun y pc h => ?_, ?_, ?_⟩
  · rw [hidle] at h
    cases h
  · intro i th hth hpc
    rw [hthreads] at hth
    obtain ⟨s, hs, hhandle⟩ := hw.threads i th hth hpc
    exact ⟨s, by rw [hobjects, Function.update_of_ne (hx i th hth hpc), hs], hhandle⟩
  · intro y s hs
    rw [hobjects] at hs
    rw [hthreads]
    by_cases hy : y = x
    · subst hy
      rw [Function.update_self] at hs
      exact .inl (hnew s hs)
    · rw [Function.update_of_ne hy] at hs
      exact hw.objects y s hs

/-- The threads, and one more. -/
theorem threads_snoc {w : schedule} {x i : Nat} {th : scheduled_thread}
    (h : (w.threads ++ [⟨x, .created⟩])[i]? = some th) :
    w.threads[i]? = some th ∨ i = w.threads.length ∧ th = ⟨x, .created⟩ := by
  rcases Nat.lt_or_ge i w.threads.length with hlt | hge
  · rw [List.getElem?_append_left hlt] at h
    exact .inl h
  · rw [List.getElem?_append_right hge] at h
    obtain ⟨hi, hth⟩ := List.getElem?_eq_some_iff.mp h
    rw [List.length_singleton] at hi
    right
    exact ⟨by omega, by simpa using hth.symm⟩

/-- The state after a start in place. -/
def begun (w : schedule) (x : Nat) : schedule where
  objects := Function.update w.objects x (some ⟨false, some w.threads.length⟩)
  threads := w.threads ++ [⟨x, .created⟩]
  destroying := w.destroying

theorem InPlace.start {w : schedule} (hw : InPlace w) (hidle : w.destroying = none) {x : Nat}
    {s : scheduled} (hs : w.objects x = some s) (hhandle : s.m_handle = none) :
    w.start x = some (.ok (w.begun x)) ∧ InPlace (w.begun x) := by
  have hactive : s.m_active = false := by
    rcases hw.objects x s hs with ⟨-, hactive⟩ | ⟨i, th, hi, -⟩
    · exact hactive
    · rw [hhandle] at hi
      cases hi
  have hfree : ∀ s, w.objects x = some s → s.m_handle = none := by
    intro s' hs'
    rw [hs] at hs'
    cases hs'
    exact hhandle
  refine ⟨by simp [schedule.start, hs, hactive, hhandle, begun, schedule.put], ?_, ?_, ?_⟩
  · intro y pc h
    change w.destroying = some (y, pc) at h
    rw [hidle] at h
    cases h
  · intro i th hth hpc
    rcases threads_snoc hth with hth | ⟨rfl, rfl⟩
    · obtain ⟨s', hs', hi⟩ := hw.threads i th hth hpc
      refine ⟨s', ?_, hi⟩
      change Function.update w.objects x _ th.self = some s'
      rw [Function.update_of_ne (hw.no_thread hfree hth hpc)]
      exact hs'
    · exact ⟨⟨false, some w.threads.length⟩, Function.update_self .., rfl⟩
  · intro y t ht
    change Function.update w.objects x _ y = some t at ht
    by_cases hy : y = x
    · subst hy
      rw [Function.update_self] at ht
      cases ht
      exact .inr ⟨w.threads.length, ⟨y, .created⟩, rfl, by simp [begun], rfl, rfl⟩
    · rw [Function.update_of_ne hy] at ht
      refine (hw.objects y t ht).imp_right ?_
      rintro ⟨i, th, hi, hth, hself, hsame⟩
      refine ⟨i, th, hi, ?_, hself, hsame⟩
      change (w.threads ++ [_])[i]? = some th
      rw [List.getElem?_append_left (List.getElem?_eq_some_iff.mp hth).1]
      exact hth

/-- The object of a thread that goes on. -/
theorem InPlace.object {w : schedule} (hw : InPlace w) {i : Nat} {th : scheduled_thread}
    (hth : w.threads[i]? = some th) (hpc : th.pc ≠ .exited) :
    w.objects th.self = some ⟨th.pc.active, some i⟩ := by
  obtain ⟨s, hs, hhandle⟩ := hw.threads i th hth hpc
  rcases hw.objects _ s hs with ⟨hnone, -⟩ | ⟨j, th', hj, hth', -, hactive⟩
  · rw [hnone] at hhandle
    cases hhandle
  · rw [hhandle] at hj
    cases hj
    rw [hth] at hth'
    cases hth'
    rw [hs, ← hactive, ← hhandle]

/-- A thread goes on to where its object is as active as it says. -/
theorem InPlace.moved {w : schedule} (hw : InPlace w) {i : Nat} {th : scheduled_thread}
    (hth : w.threads[i]? = some th) (hpc : th.pc ≠ .exited) (pc : scheduled_pc) :
    InPlace { w.put th.self (some ⟨pc.active, some i⟩) with
      threads := w.threads.set i { th with pc } } := by
  have hlt := (List.getElem?_eq_some_iff.mp hth).1
  have hobject := hw.object hth hpc
  refine ⟨?_, ?_, ?_⟩
  · intro y pc' h
    obtain ⟨hending, s, hs, hhandle⟩ := hw.ending y pc' h
    have hy : y ≠ th.self := by
      rintro rfl
      rw [hobject] at hs
      cases hs
      cases hhandle
    exact ⟨hending, s, (Function.update_of_ne hy _ _).trans hs, hhandle⟩
  · intro j th' hth' hpc'
    change (w.threads.set i _)[j]? = some th' at hth'
    by_cases hj : j = i
    · subst hj
      rw [List.getElem?_set_self hlt] at hth'
      cases hth'
      exact ⟨_, Function.update_self .., rfl⟩
    · rw [List.getElem?_set_ne (Ne.symm hj)] at hth'
      obtain ⟨s, hs, hhandle⟩ := hw.threads j th' hth' hpc'
      have hself : th'.self ≠ th.self := by
        intro heq
        rw [heq, hobject] at hs
        cases hs
        cases hhandle
        exact hj rfl
      refine ⟨s, ?_, hhandle⟩
      change Function.update w.objects th.self _ th'.self = some s
      rw [Function.update_of_ne hself]
      exact hs
  · intro y s hs
    change Function.update w.objects th.self _ y = some s at hs
    by_cases hy : y = th.self
    · subst hy
      rw [Function.update_self] at hs
      cases hs
      exact .inr ⟨i, { th with pc }, rfl, List.getElem?_set_self hlt, rfl, rfl⟩
    · rw [Function.update_of_ne hy] at hs
      refine (hw.objects y s hs).imp_right ?_
      rintro ⟨j, th', hj, hth', hself, hactive⟩
      refine ⟨j, th', hj, ?_, hself, hactive⟩
      change (w.threads.set i _)[j]? = some th'
      rw [List.getElem?_set_ne ?_]
      · exact hth'
      · rintro rfl
        rw [hth] at hth'
        cases hth'
        exact hy hself.symm

theorem InPlace.thread_step {w : schedule} (hw : InPlace w) {i : Nat} {e : Except fault schedule}
    (h : w.thread_step i = some e) : ∃ w', e = .ok w' ∧ InPlace w' := by
  obtain ⟨th, hth, h⟩ := Option.bind_eq_some_iff.mp h
  by_cases hpc : th.pc = .exited
  · rw [hpc] at h
    cases h
  have hobject := hw.object hth hpc
  have hmoved := hw.moved hth hpc
  have htouch (pc : scheduled_pc) (f : scheduled → scheduled)
      (hf : f ⟨th.pc.active, some i⟩ = ⟨pc.active, some i⟩) :
      w.touch i th pc f = .ok { w.put th.self (some ⟨pc.active, some i⟩) with
        threads := w.threads.set i { th with pc } } := by
    simp only [touch, hobject, hf]
  split at h
  · rename_i hcreated
    rw [htouch .activating id (by rw [hcreated]; rfl)] at h
    cases h
    exact ⟨_, rfl, hmoved .activating⟩
  · rw [htouch .func _ rfl] at h
    cases h
    exact ⟨_, rfl, hmoved .func⟩
  · rename_i hfunc
    cases h
    refine ⟨_, rfl, ?_⟩
    have hsame : w.put th.self (some ⟨scheduled_pc.deactivating.active, some i⟩) = w := by
      unfold schedule.put
      rw [hfunc] at hobject
      rw [← show w.objects th.self = some ⟨scheduled_pc.deactivating.active, some i⟩ from hobject,
        Function.update_eq_self]
    have hnext := hmoved .deactivating
    rw [hsame] at hnext
    exact hnext
  · rw [htouch .exited _ rfl] at h
    cases h
    exact ⟨_, rfl, hmoved .exited⟩
  · cases h

theorem InPlace.join {w : schedule} (hw : InPlace w) (hidle : w.destroying = none) {x : Nat}
    {e : Except fault schedule} (h : w.join x = some e)
    (hg : ∀ s, w.objects x = some s → s.m_handle ≠ none) : ∃ w', e = .ok w' ∧ InPlace w' := by
  obtain ⟨s, hs, h⟩ := Option.bind_eq_some_iff.mp h
  rcases hw.objects x s hs with ⟨hnone, -⟩ | ⟨i, th, hi, hth, hself, hactive⟩
  · exact absurd hnone (hg s hs)
  rw [hi] at h
  simp only at h
  split at h
  · rename_i hexited
    cases h
    have hpc : th.pc = .exited := by simpa [exited, hth] using hexited
    refine ⟨_, rfl, hw.put rfl rfl hidle ?_ ?_⟩
    · rintro j th' hth' hpc' rfl
      have hother := hw.object hth' hpc'
      rw [hs] at hother
      cases hother
      cases hi
      rw [hth] at hth'
      cases hth'
      exact hpc' hpc
    · rintro s' hs'
      cases hs'
      exact ⟨rfl, by rw [hactive, hpc]; rfl⟩
  · cases h

theorem InPlace.destroy {w : schedule} (hw : InPlace w) {x : Nat} {e : Except fault schedule}
    (h : w.destroy x = some e) (hg : ∀ s, w.objects x = some s → s.m_handle = none) :
    ∃ w', e = .ok w' ∧ InPlace w' := by
  obtain ⟨s, hs, h⟩ := Option.bind_eq_some_iff.mp h
  have hhandle := hg s hs
  have hactive : s.m_active = false := by
    rcases hw.objects x s hs with ⟨-, hactive⟩ | ⟨i, th, hi, -⟩
    · exact hactive
    · rw [hhandle] at hi
      cases hi
  rw [hactive] at h
  cases h
  refine ⟨_, rfl, ⟨?_, hw.threads, hw.objects⟩⟩
  rintro y pc h
  cases h
  exact ⟨rfl, s, hs, hhandle⟩

theorem InPlace.destructor_step {w : schedule} (hw : InPlace w) {e : Except fault schedule}
    (h : w.destructor_step = some e) : ∃ w', e = .ok w' ∧ InPlace w' := by
  obtain ⟨⟨x, pc⟩, hdestroying, h⟩ := Option.bind_eq_some_iff.mp h
  obtain ⟨rfl, s, hs, hhandle⟩ := hw.ending x pc hdestroying
  obtain ⟨s', hs', h⟩ := Option.bind_eq_some_iff.mp h
  rw [hs] at hs'
  cases hs'
  rw [hhandle] at h
  cases h
  have hfree : ∀ s, w.objects x = some s → s.m_handle = none := by
    intro s' hs'
    rw [hs] at hs'
    cases hs'
    exact hhandle
  exact ⟨_, rfl, hw.put rfl rfl rfl (fun i th hth hpc => hw.no_thread hfree hth hpc)
    (fun s hs => by cases hs)⟩

theorem InPlace.act {w : schedule} (hw : InPlace w) {a : scheduled_action}
    {e : Except fault schedule} (h : act (.ok w) a = some e) (hg : in_place (.ok w) a) :
    ∃ w', e = .ok w' ∧ InPlace w' := by
  cases a with
  | go i => exact hw.thread_step h
  | destructor => exact hw.destructor_step h
  | call c =>
    obtain ⟨hidle, h⟩ : w.destroying = none ∧ w.call c = some e := by
      simpa [schedule.act] using h
    cases c with
    | make x =>
      change w.make x = some e at h
      unfold make at h
      split at h
      · cases h
      · rename_i hnone
        cases h
        refine ⟨_, rfl, hw.put rfl rfl hidle (fun i th hth hpc => hw.no_thread ?_ hth hpc) ?_⟩
        · intro s hs
          rw [hnone] at hs
          cases hs
        · rintro s hs
          cases hs
          exact ⟨rfl, rfl⟩
    | start x =>
      change w.start x = some e at h
      obtain ⟨s, hs, -⟩ := Option.bind_eq_some_iff.mp h
      obtain ⟨hstart, hbegun⟩ := hw.start hidle hs (hg s hs)
      rw [hstart] at h
      cases h
      exact ⟨_, rfl, hbegun⟩
    | assign x y => exact hg.elim
    | join x => exact hw.join hidle h hg
    | destroy x => exact hw.destroy h hg

/-- In every run in which objects are joined before they are started again or destroyed,
only where they have a thread, and none is moved, nothing goes wrong, and each thread that has
not ended works on an object that is there and can join it. -/
theorem an_object_in_place_has_no_fault {e : Except fault schedule}
    (h : transition.Reachable (scheduling.guarded in_place) e) : ∃ w, e = .ok w ∧ InPlace w := by
  refine h.keeps (P := fun e => ∃ w, e = .ok w ∧ InPlace w) ?_ ?_
  · rintro e rfl
    refine ⟨new, rfl, ⟨fun x pc h => ?_, fun i th hth => ?_, fun x s hs => ?_⟩⟩
    · cases h
    · cases hth
    · cases hs
  · rintro e a e' ⟨w, rfl, hw⟩ ⟨hg, ha⟩
    exact hw.act ha hg

theorem a_started_object_has_no_fault :
    ∃ e, transition.Reachable (scheduling.guarded in_place) e ∧
      (∃ w, e = .ok w ∧ w.threads = [⟨0, .func⟩]) ∧ ∃ w, e = .ok w ∧ InPlace w := by
  have hnew : transition.Reachable (scheduling.guarded in_place) (.ok new) := ⟨_, [], rfl, .nil _⟩
  have hmade := hnew.step (.call (.make 0)) ⟨trivial, rfl⟩
  have hstarted := hmade.step (.call (.start 0)) ⟨fun s hs => by cases hs; rfl, rfl⟩
  have hactivating := hstarted.step (.go 0) ⟨trivial, rfl⟩
  have hfunc := hactivating.step (.go 0) ⟨trivial, rfl⟩
  exact ⟨_, hfunc, ⟨_, rfl, rfl⟩, an_object_in_place_has_no_fault hfunc⟩

/-! ## An object that is moved away -/

/-- The calls of a run. -/
def called (as : List scheduled_action) : List scheduled_call := as.filterMap (·.as_call)

/-- How a rack starts its thread: an object at `y` is made and started, and moved to the one
at `x`. -/
def start_and_move (x y : Nat) : List scheduled_call := [.make y, .start y, .assign x y]

def NoHandle (w : schedule) (x : Nat) : Prop := ∃ s, w.objects x = some s ∧ s.m_handle = none

/-- No thread but this one goes on with the object. -/
def Others (w : schedule) (i y : Nat) : Prop :=
  ∀ j th, w.threads[j]? = some th → j ≠ i → th.self = y → th.pc = .exited

/-- The thread of the object, which is as active as it says. -/
def Works (w : schedule) (i y : Nat) (handle : Option Nat) : Prop :=
  ∃ pc : scheduled_pc, w.threads[i]? = some ⟨y, pc⟩ ∧ w.objects y = some ⟨pc.active, handle⟩

/-- What is so after some of the calls. -/
def Stage (w : schedule) (i x y : Nat) : Nat → Prop
  | 0 => w.threads.length = i ∧ NoHandle w x
  | 1 => w.threads.length = i ∧ NoHandle w x ∧ w.objects y = some ⟨false, none⟩
  | 2 => NoHandle w x ∧ Works w i y (some i)
  | _ => Works w i y none

/-- What is so from the destructor of the object on, which has read whether it is active. -/
def Leaving (w : schedule) (i y : Nat) (active : Bool) : Prop :=
  (w.destroying = some (y, if active then .joining else .ending) ∧ Works w i y none) ∨
    (active = false ∧ w.destroying = none ∧ w.objects y = none ∧
      ∃ pc : scheduled_pc, w.threads[i]? = some ⟨y, pc⟩)

theorem thread_step_handle {w w' : schedule} {j x : Nat} (h : w.thread_step j = some (.ok w'))
    (hx : NoHandle w x) : NoHandle w' x := by
  obtain ⟨th, pc, -, -, -, -, hcases⟩ := thread_step_cases h
  obtain ⟨-, -, hobjects⟩ | ⟨s, active, hs, hobjects, -⟩ := hcases
  · obtain ⟨t, ht, hhandle⟩ := hx
    exact ⟨t, by rw [hobjects, ht], hhandle⟩
  · obtain ⟨t, ht, hhandle⟩ := hx
    unfold NoHandle
    rw [hobjects]
    by_cases hself : x = th.self
    · subst hself
      rw [hs] at ht
      cases ht
      exact ⟨_, Function.update_self .., hhandle⟩
    · exact ⟨t, by rw [Function.update_of_ne hself, ht], hhandle⟩

theorem thread_step_others {w w' : schedule} {j i y : Nat} (h : w.thread_step j = some (.ok w'))
    (ho : Others w i y) : Others w' i y := by
  obtain ⟨th, pc, hth, hpc, hthreads, -⟩ := thread_step_cases h
  intro k th' hth' hk hself
  rw [hthreads] at hth'
  by_cases hkj : k = j
  · subst hkj
    rw [List.getElem?_set_self (List.getElem?_eq_some_iff.mp hth).1] at hth'
    cases hth'
    exact absurd (ho k th hth hk hself) hpc
  · rw [List.getElem?_set_ne (Ne.symm hkj)] at hth'
    exact ho k th' hth' hk hself

/-- A step of another thread. -/
theorem thread_step_aside {w w' : schedule} {j i y : Nat} (h : w.thread_step j = some (.ok w'))
    (ho : Others w i y) (hj : j ≠ i) :
    w'.objects y = w.objects y ∧ w'.threads[i]? = w.threads[i]? := by
  obtain ⟨th, pc, hth, hpc, hthreads, -, hcases⟩ := thread_step_cases h
  have hself : y ≠ th.self := fun heq => hpc (ho j th hth hj heq.symm)
  refine ⟨?_, by rw [hthreads, List.getElem?_set_ne hj]⟩
  obtain ⟨-, -, hobjects⟩ | ⟨s, active, -, hobjects, -⟩ := hcases
  · rw [hobjects]
  · rw [hobjects, Function.update_of_ne hself]

/-- A step of any thread. -/
theorem Works.thread_step {w w' : schedule} {j i y : Nat} {handle : Option Nat}
    (hw : Works w i y handle) (h : w.thread_step j = some (.ok w')) (ho : Others w i y) :
    Works w' i y handle := by
  obtain ⟨pc, hth, hobject⟩ := hw
  by_cases hj : j = i
  · subst hj
    obtain ⟨th, pc', hth', -, hthreads, -, hcases⟩ := thread_step_cases h
    rw [hth] at hth'
    cases hth'
    refine ⟨pc', ?_, ?_⟩
    · rw [hthreads, List.getElem?_set_self (List.getElem?_eq_some_iff.mp hth).1]
    · obtain ⟨hpc, rfl, hobjects⟩ | ⟨s, active, hs, hobjects, hsteps⟩ := hcases
      · rw [hobjects, hobject]
        simp only at hpc
        rw [hpc]
        rfl
      · rw [hobject] at hs
        cases hs
        rw [hobjects, Function.update_self]
        simp only at hsteps ⊢
        obtain ⟨rfl, rfl, rfl⟩ | ⟨rfl, rfl, rfl⟩ | ⟨rfl, rfl, rfl⟩ := hsteps
        · rfl
        · rfl
        · rfl
  · obtain ⟨hsame, hthread⟩ := thread_step_aside h ho hj
    exact ⟨pc, by rw [hthread, hth], by rw [hsame, hobject]⟩

theorem Stage.thread_step {w w' : schedule} {i j x y n : Nat} (hs : Stage w i x y n)
    (ho : Others w i y) (h : w.thread_step j = some (.ok w')) : Stage w' i x y n := by
  have hlength : w'.threads.length = w.threads.length ∧ j < w.threads.length := by
    obtain ⟨th, pc, hth, -, hthreads, -⟩ := thread_step_cases h
    exact ⟨by rw [hthreads, List.length_set], (List.getElem?_eq_some_iff.mp hth).1⟩
  match n, hs with
  | 0, ⟨hlen, hx⟩ => exact ⟨hlength.1.trans hlen, thread_step_handle h hx⟩
  | 1, ⟨hlen, hx, hy⟩ =>
    have hj : j ≠ i := by omega
    exact ⟨hlength.1.trans hlen, thread_step_handle h hx, by rw [(thread_step_aside h ho hj).1, hy]⟩
  | 2, ⟨hx, hw⟩ => exact ⟨thread_step_handle h hx, hw.thread_step h ho⟩
  | _ + 3, hw => exact Works.thread_step hw h ho

theorem Stage.make {w w' : schedule} {i x y : Nat} (hs : Stage w i x y 0) (ho : Others w i y)
    (hne : x ≠ y) (h : w.make y = some (.ok w')) :
    Stage w' i x y 1 ∧ Others w' i y ∧ w'.destroying = w.destroying := by
  obtain ⟨hlen, s, hx, hhandle⟩ := hs
  unfold schedule.make at h
  split at h
  · cases h
  · cases h
    refine ⟨⟨hlen, ⟨s, ?_, hhandle⟩, Function.update_self ..⟩, ho, rfl⟩
    exact (Function.update_of_ne hne _ _).trans hx

theorem Stage.start {w w' : schedule} {i x y : Nat} (hs : Stage w i x y 1) (ho : Others w i y)
    (hne : x ≠ y) (h : w.start y = some (.ok w')) :
    Stage w' i x y 2 ∧ Others w' i y ∧ w'.destroying = w.destroying := by
  obtain ⟨hlen, ⟨s, hx, hhandle⟩, hy⟩ := hs
  have hstart : w.start y = some (.ok (w.begun y)) := by
    simp [schedule.start, hy, begun, schedule.put]
  rw [hstart] at h
  cases h
  refine ⟨⟨⟨s, (Function.update_of_ne hne _ _).trans hx, hhandle⟩, .created, ?_, ?_⟩, ?_, rfl⟩
  · simp [begun, ← hlen]
  · rw [← hlen]
    exact Function.update_self ..
  · intro j th hth hj hself
    rcases threads_snoc hth with hth | ⟨rfl, -⟩
    · exact ho j th hth hj hself
    · exact absurd hlen hj

theorem Stage.assign {w w' : schedule} {i x y : Nat} (hs : Stage w i x y 2) (ho : Others w i y)
    (h : w.assign x y = some (.ok w')) :
    Stage w' i x y 3 ∧ Others w' i y ∧ w'.destroying = w.destroying := by
  obtain ⟨⟨s, hx, hhandle⟩, pc, hth, hy⟩ := hs
  have hassign : w.assign x y = some (.ok ((w.put x (some ⟨pc.active, some i⟩)).put y
      (some ⟨pc.active, none⟩))) := by
    simp [schedule.assign, hx, hy, hhandle]
  rw [hassign] at h
  cases h
  exact ⟨⟨pc, hth, Function.update_self ..⟩, ho, rfl⟩

/-- Where the next call leads. -/
theorem Stage.call {w w' : schedule} {i x y n : Nat} {c : scheduled_call} (hs : Stage w i x y n)
    (ho : Others w i y) (hne : x ≠ y) (h : w.call c = some (.ok w'))
    (hc : (start_and_move x y)[n]? = some c) :
    Stage w' i x y (n + 1) ∧ Others w' i y ∧ w'.destroying = w.destroying := by
  match n, hs with
  | 0, hs =>
    cases hc
    exact hs.make ho hne h
  | 1, hs =>
    cases hc
    exact hs.start ho hne h
  | 2, hs =>
    cases hc
    exact hs.assign ho h
  | _ + 3, _ => cases hc

theorem stages {w : schedule} {x y : Nat} {as : List scheduled_action} {e : Except fault schedule}
    (hne : x ≠ y) (hidle : w.destroying = none) (hx : NoHandle w x)
    (hy : ∀ th ∈ w.threads, th.self = y → th.pc = .exited)
    (h : transition.Run scheduling (.ok w) as e) (hcalls : called as <+: start_and_move x y) :
    ∀ w', e = .ok w' → Stage w' w.threads.length x y (called as).length ∧
      Others w' w.threads.length y ∧ w'.destroying = none := by
  generalize hstart : (Except.ok w : Except fault schedule) = e0 at h
  induction h with
  | nil =>
    rintro w' rfl
    cases hstart
    exact ⟨⟨rfl, hx⟩, fun j th hth _ => hy th (List.mem_of_getElem? hth), hidle⟩
  | @snoc as mid a u hr ha ih =>
    rintro w' rfl
    subst hstart
    cases mid with
    | error e => cases ha
    | ok v =>
      cases a with
      | go j =>
        have hsame : called (as ++ [.go j]) = called as := by
          simp [called, scheduled_action.as_call]
        rw [hsame] at hcalls ⊢
        obtain ⟨hs, ho, hnone⟩ := ih hcalls v rfl
        obtain ⟨-, -, -, -, -, hdestroying, -⟩ := thread_step_cases ha
        exact ⟨hs.thread_step ho ha, thread_step_others ha ho, hdestroying.trans hnone⟩
      | destructor =>
        have hsame : called (as ++ [.destructor]) = called as := by
          simp [called, scheduled_action.as_call]
        rw [hsame] at hcalls
        obtain ⟨-, -, hnone⟩ := ih hcalls v rfl
        change v.destructor_step = some (.ok w') at ha
        unfold destructor_step at ha
        rw [hnone] at ha
        cases ha
      | call c =>
        have hmore : called (as ++ [.call c]) = called as ++ [c] := by
          simp [called, scheduled_action.as_call]
        rw [hmore] at hcalls ⊢
        obtain ⟨hs, ho, hnone⟩ := ih ((List.prefix_append _ _).trans hcalls) v rfl
        obtain ⟨rest, hrest⟩ := hcalls
        have hcall : v.call c = some (.ok w') := by
          simpa [scheduling, transition.machine, act, hnone] using ha
        have hc : (start_and_move x y)[(called as).length]? = some c := by
          rw [← hrest]
          simp
        obtain ⟨hs', ho', hsame⟩ := hs.call ho hne hcall hc
        rw [List.length_append]
        exact ⟨hs', ho', hsame.trans hnone⟩

/-- A thread stays the one that it is. -/
theorem thread_step_self {w w' : schedule} {j i y : Nat} (h : w.thread_step j = some (.ok w'))
    (hi : ∃ pc : scheduled_pc, w.threads[i]? = some ⟨y, pc⟩) :
    ∃ pc : scheduled_pc, w'.threads[i]? = some ⟨y, pc⟩ := by
  obtain ⟨pc, hi⟩ := hi
  obtain ⟨th, pc', hth, -, hthreads, -⟩ := thread_step_cases h
  rw [hthreads]
  by_cases hj : j = i
  · subst hj
    rw [hth] at hi
    cases hi
    exact ⟨pc', List.getElem?_set_self (List.getElem?_eq_some_iff.mp hth).1⟩
  · exact ⟨pc, by rw [List.getElem?_set_ne hj, hi]⟩

theorem Leaving.thread_step {w w' : schedule} {i j y : Nat} {active : Bool}
    (hw : Leaving w i y active) (ho : Others w i y) (h : w.thread_step j = some (.ok w')) :
    Leaving w' i y active := by
  obtain ⟨th, pc, -, -, -, hsame, hcases⟩ := thread_step_cases h
  rcases hw with ⟨hdestroying, hw⟩ | ⟨hactive, hidle, hgone, hthread⟩
  · exact .inl ⟨hsame.trans hdestroying, hw.thread_step h ho⟩
  · refine .inr ⟨hactive, hsame.trans hidle, ?_, thread_step_self h hthread⟩
    obtain ⟨-, -, hobjects⟩ | ⟨s, b, hs, hobjects, -⟩ := hcases
    · rw [hobjects, hgone]
    · have hself : y ≠ th.self := by
        rintro rfl
        rw [hgone] at hs
        cases hs
      rw [hobjects, Function.update_of_ne hself, hgone]

/-- An active object that was moved away has no thread to join. -/
theorem Leaving.destructor_step {w w' : schedule} {i y : Nat} {active : Bool}
    (hw : Leaving w i y active) (h : w.destructor_step = some (.ok w')) :
    Leaving w' i y active ∧ w'.threads = w.threads := by
  rcases hw with ⟨hdestroying, pc, hth, hy⟩ | ⟨-, hidle, -⟩
  · unfold schedule.destructor_step at h
    rw [hdestroying] at h
    simp only [Option.bind_eq_bind, Option.bind_some, hy] at h
    cases active with
    | true => cases h
    | false =>
      cases h
      exact ⟨.inr ⟨rfl, rfl, Function.update_self .., pc, hth⟩, rfl⟩
  · unfold schedule.destructor_step at h
    rw [hidle] at h
    cases h

theorem leaves {v : schedule} {i y : Nat} {active : Bool} {as : List scheduled_action}
    {e : Except fault schedule} (hv : Leaving v i y active) (ho : Others v i y)
    (h : transition.Run scheduling (.ok v) as e) (hcalls : called as = []) :
    ∀ w', e = .ok w' → Leaving w' i y active ∧ Others w' i y := by
  generalize hstart : (Except.ok v : Except fault schedule) = e0 at h
  induction h with
  | nil =>
    rintro w' rfl
    cases hstart
    exact ⟨hv, ho⟩
  | @snoc as mid a u hr ha ih =>
    rintro w' rfl
    subst hstart
    have hparts : called as = [] ∧ called [a] = [] := by
      simpa [called, List.filterMap_append] using hcalls
    cases mid with
    | error e => cases ha
    | ok u =>
      obtain ⟨hu, hothers⟩ := ih hparts.1 u rfl
      cases a with
      | go j => exact ⟨hu.thread_step hothers ha, thread_step_others ha hothers⟩
      | destructor =>
        obtain ⟨hleaving, hthreads⟩ := hu.destructor_step ha
        exact ⟨hleaving, by rwa [Others, hthreads]⟩
      | call c => cases hparts.2

theorem dangling {w : schedule} {i y : Nat} {pc : scheduled_pc}
    (hth : w.threads[i]? = some ⟨y, pc⟩) (hgone : w.objects y = none) (hexited : pc ≠ .exited)
    (hfunc : pc ≠ .func) : scheduling.step (.ok w) (.go i) (.error .dangling) := by
  change w.thread_step i = some (.error .dangling)
  cases pc with
  | created | activating | deactivating => simp [thread_step, hth, touch, hgone]
  | func => exact absurd rfl hfunc
  | exited => exact absurd rfl hexited

/-- A thread that has not ended uses its object once it has left its function. -/
theorem used_when_gone {w : schedule} {i y : Nat} {pc : scheduled_pc}
    (hth : w.threads[i]? = some ⟨y, pc⟩) (hgone : w.objects y = none) (hpc : pc ≠ .exited) :
    transition.Run scheduling (.ok w) (List.replicate (if pc = .func then 2 else 1) (.go i))
      (.error .dangling) := by
  cases pc with
  | created => exact .one (dangling hth hgone (by decide) (by decide))
  | activating => exact .one (dangling hth hgone (by decide) (by decide))
  | func =>
    have hlt := (List.getElem?_eq_some_iff.mp hth).1
    have hfirst : transition.Run scheduling (.ok w) [.go i]
        (.ok { w with threads := w.threads.set i ⟨y, .deactivating⟩ }) :=
      .one (by simp [scheduling, transition.machine, act, thread_step, hth])
    refine hfirst.snoc ?_
    exact dangling (List.getElem?_set_self hlt) hgone (by decide) (by decide)
  | deactivating => exact .one (dangling hth hgone (by decide) (by decide))
  | exited => exact absurd rfl hpc

/-- A run comes to its last call. -/
theorem called_last {as : List scheduled_action} {cs : List scheduled_call} {c : scheduled_call}
    (h : called as = cs ++ [c]) :
    ∃ before after, as = before ++ .call c :: after ∧ called before = cs ∧ called after = [] := by
  obtain ⟨as₁, as₂, rfl, hfirst, hsecond⟩ := List.filterMap_eq_append_iff.mp h
  obtain ⟨bs, a, after, rfl, hbs, ha, hafter⟩ := List.filterMap_eq_cons_iff.mp hsecond
  have hcall : a = .call c := by
    cases a with
    | call c' =>
      cases ha
      rfl
    | destructor => cases ha
    | go i => cases ha
  subst hcall
  refine ⟨as₁ ++ bs, after, by simp, ?_, hafter⟩
  have hnone : called bs = [] := List.filterMap_eq_nil_iff.mpr hbs
  unfold called at hnone ⊢
  rw [List.filterMap_append, hfirst, hnone, List.append_nil]

/-- Where an object is made, started and moved away, the one that is left is destroyed
without a fault only where its destructor comes before its thread is active, or after that. Once
it is gone, a thread that has not ended by then comes to use it. -/
theorem a_moved_object_is_gone {w w' : schedule} {x y : Nat} {as : List scheduled_action}
    (hne : x ≠ y) (hidle : w.destroying = none) (hx : NoHandle w x)
    (hy : ∀ th ∈ w.threads, th.self = y → th.pc = .exited)
    (h : transition.Run scheduling (.ok w) as (.ok w'))
    (hcalls : called as = start_and_move x y ++ [.destroy y]) (hdone : w'.destroying = none) :
    (∃ before after v, ∃ pc : scheduled_pc, as = before ++ .call (.destroy y) :: after ∧
      transition.Run scheduling (.ok w) before (.ok v) ∧
      v.threads[w.threads.length]? = some ⟨y, pc⟩ ∧ pc.active = false) ∧
    ∃ pc : scheduled_pc, w'.threads[w.threads.length]? = some ⟨y, pc⟩ ∧ w'.objects y = none ∧
      (pc ≠ .exited → transition.Run scheduling (.ok w')
        (List.replicate (if pc = .func then 2 else 1) (.go w.threads.length))
        (.error .dangling)) := by
  obtain ⟨before, after, rfl, hbefore, hafter⟩ := called_last hcalls
  obtain ⟨mid, u, hrun, hstep, hlast⟩ := h.split
  cases mid with
  | error e => cases hstep
  | ok v =>
    obtain ⟨hs, ho, hnone⟩ := stages hne hidle hx hy hrun (hbefore ▸ List.prefix_rfl) v rfl
    rw [hbefore] at hs
    obtain ⟨pc, hth, hobject⟩ : Works v w.threads.length y none := hs
    have hdestroy : u = .ok { v with
        destroying := some (y, if pc.active then .joining else .ending) } := by
      simpa [scheduling, transition.machine, act, hnone, call, destroy, hobject] using hstep.symm
    rw [hdestroy] at hlast
    have hleaving : Leaving { v with
        destroying := some (y, if pc.active then .joining else .ending) } w.threads.length y
        pc.active := .inl ⟨rfl, pc, hth, hobject⟩
    obtain ⟨⟨hdestroying, -⟩ | ⟨hactive, -, hgone, pc', hth'⟩, -⟩ :=
      leaves hleaving ho hlast hafter w' rfl
    · rw [hdone] at hdestroying
      cases hdestroying
    · exact ⟨⟨before, after, v, pc, rfl, hrun, hth, hactive⟩, pc', hth', hgone,
        used_when_gone hth' hgone⟩

/-- The member of a rack that is not started. -/
def unstarted_rack : schedule := new.put 0 (some ⟨false, none⟩)

theorem a_new_rack_thread_is_without_its_object :
    ∃ w' as, transition.Run scheduling (.ok unstarted_rack) as (.ok w') ∧
      ∃ pc : scheduled_pc, w'.threads[0]? = some ⟨1, pc⟩ ∧ w'.objects 1 = none ∧
        (pc ≠ .exited → transition.Run scheduling (.ok w')
          (List.replicate (if pc = .func then 2 else 1) (.go 0)) (.error .dangling)) := by
  have hrun : ∃ w', w'.destroying = none ∧ transition.Run scheduling (.ok unstarted_rack)
      ((start_and_move 0 1).map .call ++ [.call (.destroy 1), .destructor]) (.ok w') :=
    ⟨_, rfl, (transition.Run.nil _).machine rfl⟩
  obtain ⟨w', hidle, hrun⟩ := hrun
  exact ⟨w', _, hrun, (a_moved_object_is_gone (by decide) rfl ⟨_, rfl, rfl⟩
    (fun _ h => by cases h) hrun rfl hidle).2⟩

end schedule

end strangeio.thread
