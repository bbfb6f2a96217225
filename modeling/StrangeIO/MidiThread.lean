-- The thread of a midi device (midi/device.cpp): which handlers it calls for the messages
-- that it flushes, whenever the device is stopped, and when a stop returns. The flag is a
-- plain bool; each access of it is a step of one thread here.
import StrangeIO.MidiRoutes
import StrangeIO.Transition

namespace strangeio.midi

variable {ι : Type}

/-! ## The device and its thread -/

/-- Where the thread of a device is: the statement that it comes to next. -/
inductive cycle_pc where
  | unstarted
  | created
  | at_loop
  | at_flush
  | at_check (code : msg)
  | at_call (code : msg)
  | exited
deriving DecidableEq, Repr

/-- A device that is started and stopped by one thread, which may wait in a stop. What its
own thread has flushed and called since it was started is noted down. -/
structure started (ι : Type) where
  m_running : Bool
  pc : cycle_pc
  joining : Bool
  flushed : List msg
  calls : List ((ι × String) × msg)

inductive device_action where
  | start
  | stop
  | join
  | cycle
  | flush (code : msg)
deriving DecidableEq, Repr

namespace device

variable (dev : device ι)

/-- A device is only started where it has no thread. -/
def start (s : started ι) : Option (started ι) :=
  if s.joining = false ∧ s.pc = .unstarted then
    some { s with pc := .created, flushed := [], calls := [] }
  else none

/-- The first part of a stop, of a device that has a thread. -/
def stop (s : started ι) : Option (started ι) :=
  if s.joining = false ∧ s.pc ≠ .unstarted then some { s with m_running := false, joining := true }
  else none

/-- The return of a stop. -/
def join (s : started ι) : Option (started ι) :=
  if s.joining = true ∧ s.pc = .exited then some { s with pc := .unstarted, joining := false }
  else none

/-- The next step of `cycle`, which waits in a flush. -/
def cycle_step (s : started ι) : Option (started ι) :=
  match s.pc with
  | .unstarted => none
  | .created => some { s with m_running := true, pc := .at_loop }
  | .at_loop => some { s with pc := if s.m_running then .at_flush else .exited }
  | .at_flush => none
  | .at_check code => some { s with pc := if s.m_running then .at_call code else .exited }
  | .at_call code =>
    if code.f = 0 then some { s with pc := .exited }
    else
      match dev.m_bindings code.n.toNat with
      | some func => some { s with calls := s.calls ++ [(func, code)], pc := .at_loop }
      | none => some { s with pc := .at_loop }
  | .exited => none

/-- The device has a message. -/
def flush (s : started ι) (code : msg) : Option (started ι) :=
  if s.pc = .at_flush then some { s with flushed := s.flushed ++ [code], pc := .at_check code }
  else none

def act (s : started ι) : device_action → Option (started ι)
  | .start => device.start s
  | .stop => device.stop s
  | .join => device.join s
  | .cycle => dev.cycle_step s
  | .flush code => device.flush s code

/-- A device has no thread at first, and nothing is written to its flag. -/
def Unstarted (s : started ι) : Prop :=
  s.pc = .unstarted ∧ s.joining = false ∧ s.flushed = [] ∧ s.calls = []

/-- The runs of a device. -/
def threaded : transition.System (started ι) device_action := transition.machine Unstarted dev.act

variable {dev}

theorem start_some {s t : started ι} (h : device.start s = some t) :
    (s.joining = false ∧ s.pc = .unstarted) ∧
      t = { s with pc := .created, flushed := [], calls := [] } := by
  obtain ⟨hguard, h⟩ := Option.ite_none_right_eq_some.mp h
  exact ⟨hguard, (Option.some.inj h).symm⟩

theorem stop_some {s t : started ι} (h : device.stop s = some t) :
    (s.joining = false ∧ s.pc ≠ .unstarted) ∧
      t = { s with m_running := false, joining := true } := by
  obtain ⟨hguard, h⟩ := Option.ite_none_right_eq_some.mp h
  exact ⟨hguard, (Option.some.inj h).symm⟩

theorem join_some {s t : started ι} (h : device.join s = some t) :
    (s.joining = true ∧ s.pc = .exited) ∧ t = { s with pc := .unstarted, joining := false } := by
  obtain ⟨hguard, h⟩ := Option.ite_none_right_eq_some.mp h
  exact ⟨hguard, (Option.some.inj h).symm⟩

theorem flush_some {s t : started ι} {code : msg} (h : device.flush s code = some t) :
    s.pc = .at_flush ∧ t = { s with flushed := s.flushed ++ [code], pc := .at_check code } := by
  obtain ⟨hguard, h⟩ := Option.ite_none_right_eq_some.mp h
  exact ⟨hguard, (Option.some.inj h).symm⟩

/-! ## What the thread calls -/

/-- What the thread has called, where it is. -/
def Called (dev : device ι) (s : started ι) : Prop :=
  match s.pc with
  | .created => s.flushed = [] ∧ s.calls = []
  | .at_loop | .at_flush => s.calls = dev.cycle s.flushed ∧ ∀ m ∈ s.flushed, m.f ≠ 0
  | .at_check code | .at_call code => ∃ taken, s.flushed = taken ++ [code] ∧
      s.calls = dev.cycle taken ∧ ∀ m ∈ taken, m.f ≠ 0
  | .unstarted | .exited => s.calls = dev.cycle s.flushed ∨
      s.m_running = false ∧ ∃ taken code, s.flushed = taken ++ [code] ∧ s.calls = dev.cycle taken

/-- The message is called for, unless it ends the thread or is not bound. -/
theorem called_call {s t : started ι} {code : msg} (hpc : s.pc = .at_call code) (hs : Called dev s)
    (h : dev.cycle_step s = some t) : Called dev t := by
  unfold Called at hs
  unfold cycle_step at h
  rw [hpc] at hs h
  obtain ⟨taken, hflushed, hcalls, hall⟩ := hs
  have hsplit : dev.cycle s.flushed = dev.cycle taken ++ dev.cycle [code] := by
    rw [hflushed, cycle_append dev hall]
  simp only at h
  split at h
  · rename_i hf
    cases h
    left
    change s.calls = dev.cycle s.flushed
    rw [hsplit, hcalls]
    simp [device.cycle, hf]
  · rename_i hf
    have hall' : ∀ m ∈ s.flushed, m.f ≠ 0 := by
      intro m hm
      rw [hflushed] at hm
      rcases List.mem_append.mp hm with hm | hm
      · exact hall m hm
      · rw [List.mem_singleton.mp hm]
        exact hf
    split at h
    · rename_i func hfunc
      cases h
      refine ⟨?_, hall'⟩
      change s.calls ++ [(func, code)] = dev.cycle s.flushed
      rw [hsplit, hcalls]
      simp [device.cycle, hf, hfunc]
    · rename_i hfunc
      cases h
      refine ⟨?_, hall'⟩
      change s.calls = dev.cycle s.flushed
      rw [hsplit, hcalls]
      simp [device.cycle, hf, hfunc]

theorem called_step {s t : started ι} (hs : Called dev s) (h : dev.cycle_step s = some t) :
    Called dev t := by
  cases hpc : s.pc with
  | at_call code => exact called_call hpc hs h
  | unstarted | at_flush | exited =>
    unfold cycle_step at h
    rw [hpc] at h
    cases h
  | created =>
    unfold cycle_step at h
    unfold Called at hs
    rw [hpc] at hs h
    cases h
    obtain ⟨hflushed, hcalls⟩ := hs
    refine ⟨?_, ?_⟩
    · change s.calls = dev.cycle s.flushed
      rw [hflushed, hcalls]
      rfl
    · intro m hm
      change m ∈ s.flushed at hm
      rw [hflushed] at hm
      cases hm
  | at_loop =>
    unfold cycle_step at h
    unfold Called at hs
    rw [hpc] at hs h
    cases h
    cases hrun : s.m_running with
    | true => exact hs
    | false => exact .inl hs.1
  | at_check code =>
    unfold cycle_step at h
    unfold Called at hs
    rw [hpc] at hs h
    cases h
    obtain ⟨taken, hflushed, hcalls, hall⟩ := hs
    cases hrun : s.m_running with
    | true => exact ⟨taken, hflushed, hcalls, hall⟩
    | false => exact .inr ⟨rfl, taken, code, hflushed, hcalls⟩

theorem Called.act {s t : started ι} {a : device_action} (hs : Called dev s)
    (h : dev.act s a = some t) : Called dev t := by
  cases a with
  | start =>
    obtain ⟨-, rfl⟩ := start_some h
    exact ⟨rfl, rfl⟩
  | stop =>
    obtain ⟨⟨-, hthread⟩, rfl⟩ := stop_some h
    unfold Called at hs ⊢
    simp only
    cases hpc : s.pc with
    | unstarted => exact absurd hpc hthread
    | exited =>
      rw [hpc] at hs
      exact hs.imp_right fun hlast => ⟨trivial, hlast.2⟩
    | _ =>
      rw [hpc] at hs
      exact hs
  | join =>
    obtain ⟨⟨-, hpc⟩, rfl⟩ := join_some h
    unfold Called at hs
    rw [hpc] at hs
    exact hs
  | cycle => exact called_step hs h
  | flush code =>
    obtain ⟨hpc, rfl⟩ := flush_some h
    unfold Called at hs
    rw [hpc] at hs
    exact ⟨s.flushed, rfl, hs⟩

theorem reachable_called {s : started ι} (h : transition.Reachable dev.threaded s) :
    Called dev s := by
  refine h.keeps ?_ fun _ _ _ hs ha => hs.act ha
  rintro s ⟨hpc, -, hflushed, hcalls⟩
  unfold Called
  rw [hpc]
  left
  rw [hflushed, hcalls]
  rfl

/-- In every run the thread has called what `cycle` calls for the messages that it has
flushed since it was started, or for those but the last one, which is in its hands or came
with a stop. -/
theorem the_thread_calls_what_it_flushes {s : started ι} (h : transition.Reachable dev.threaded s) :
    s.calls = dev.cycle s.flushed ∨
      ∃ taken code, s.flushed = taken ++ [code] ∧ s.calls = dev.cycle taken ∧
        (s.pc = .at_check code ∨ s.pc = .at_call code ∨ s.m_running = false) := by
  have hcalled := reachable_called h
  unfold Called at hcalled
  cases hpc : s.pc with
  | created =>
    rw [hpc] at hcalled
    rw [hcalled.1, hcalled.2]
    exact .inl rfl
  | at_loop =>
    rw [hpc] at hcalled
    exact .inl hcalled.1
  | at_flush =>
    rw [hpc] at hcalled
    exact .inl hcalled.1
  | at_check code =>
    rw [hpc] at hcalled
    obtain ⟨taken, hflushed, hcalls, -⟩ := hcalled
    exact .inr ⟨taken, code, hflushed, hcalls, .inl rfl⟩
  | at_call code =>
    rw [hpc] at hcalled
    obtain ⟨taken, hflushed, hcalls, -⟩ := hcalled
    exact .inr ⟨taken, code, hflushed, hcalls, .inr (.inl rfl)⟩
  | unstarted =>
    rw [hpc] at hcalled
    refine hcalled.imp_right ?_
    rintro ⟨hrun, taken, code, hflushed, hcalls⟩
    exact ⟨taken, code, hflushed, hcalls, .inr (.inr hrun)⟩
  | exited =>
    rw [hpc] at hcalled
    refine hcalled.imp_right ?_
    rintro ⟨hrun, taken, code, hflushed, hcalls⟩
    exact ⟨taken, code, hflushed, hcalls, .inr (.inr hrun)⟩

/-! ## When a stop returns -/

/-- The flag is set after the stop has cleared it, or will be, and no message ends the
thread. -/
structure Undone (s : started ι) : Prop where
  goes_on : s.pc = .created ∨ s.m_running = true ∧ s.pc ≠ .unstarted ∧ s.pc ≠ .exited
  message : ∀ code, s.pc = .at_check code ∨ s.pc = .at_call code → code.f ≠ 0

/-- The steps of a thread that is about to end, and the message that it waits for. -/
def remaining (s : started ι) : Nat :=
  match s.pc with
  | .at_loop => 1
  | .at_flush => 2
  | .at_check _ => if s.m_running then 2 else 1
  | .at_call code => if code.f = 0 then 1 else 2
  | .unstarted | .created | .exited => 0

/-- A stop waits for a thread that is about to end. -/
structure Ending (s : started ι) : Prop where
  joining : s.joining = true
  thread : s.pc ≠ .unstarted ∧ s.pc ≠ .created
  ends : s.m_running = false ∨ s.pc = .exited ∨
    ∃ code, (s.pc = .at_check code ∨ s.pc = .at_call code) ∧ code.f = 0

theorem ending_of_not_undone {s : started ι} (hjoining : s.joining = true)
    (hthread : s.pc ≠ .unstarted) (h : ¬ Undone s) : Ending s := by
  have hcreated : s.pc ≠ .created := by
    intro hpc
    refine h ⟨.inl hpc, fun code hcode => ?_⟩
    rw [hpc] at hcode
    rcases hcode with hcode | hcode
    all_goals cases hcode
  refine ⟨hjoining, ⟨hthread, hcreated⟩, ?_⟩
  by_contra hnot
  push Not at hnot
  obtain ⟨hrun, hexited, hmessage⟩ := hnot
  refine h ⟨.inr ⟨by simpa using hrun, hthread, hexited⟩, fun code hcode => ?_⟩
  exact hmessage code hcode

/-- A step of such a thread, of which there are only so many. -/
theorem Ending.act {s t : started ι} {a : device_action} (hs : Ending s) (h : dev.act s a = some t)
    (hjoin : a ≠ .join) : Ending t ∧ remaining t < remaining s := by
  cases a with
  | start =>
    obtain ⟨⟨hjoining, -⟩, -⟩ := start_some h
    rw [hs.joining] at hjoining
    cases hjoining
  | stop =>
    obtain ⟨⟨hjoining, -⟩, -⟩ := stop_some h
    rw [hs.joining] at hjoining
    cases hjoining
  | join => exact absurd rfl hjoin
  | flush code =>
    obtain ⟨hpc, rfl⟩ := flush_some h
    have hrun : s.m_running = false := by simpa [hpc] using hs.ends
    refine ⟨⟨hs.joining, by simp, .inl hrun⟩, ?_⟩
    simp [remaining, hpc, hrun]
  | cycle =>
    change dev.cycle_step s = some t at h
    unfold cycle_step at h
    split at h
    · cases h
    · rename_i hpc
      exact absurd hpc hs.thread.2
    · rename_i hpc
      cases h
      have hrun : s.m_running = false := by simpa [hpc] using hs.ends
      simp only [hrun]
      exact ⟨⟨hs.joining, by simp, .inr (.inl rfl)⟩, by simp [remaining, hpc]⟩
    · cases h
    · rename_i code hpc
      cases h
      cases hrun : s.m_running with
      | false => exact ⟨⟨hs.joining, by simp, .inl rfl⟩, by simp [remaining, hpc, hrun]⟩
      | true =>
        have hf : code.f = 0 := by simpa [hpc, hrun] using hs.ends
        refine ⟨⟨hs.joining, by simp, .inr (.inr ⟨code, .inr rfl, hf⟩)⟩, ?_⟩
        simp [remaining, hpc, hrun, hf]
    · rename_i code hpc
      split at h
      · rename_i hf
        cases h
        exact ⟨⟨hs.joining, by simp, .inr (.inl rfl)⟩, by simp [remaining, hpc, hf]⟩
      · rename_i hf
        have hrun : s.m_running = false := by simpa [hpc, hf] using hs.ends
        split at h
        · cases h
          exact ⟨⟨hs.joining, by simp, .inl hrun⟩, by simp [remaining, hpc, hf]⟩
        · cases h
          exact ⟨⟨hs.joining, by simp, .inl hrun⟩, by simp [remaining, hpc, hf]⟩
    · cases h

/-- A message of another function does not end the thread. -/
theorem Undone.act {s t : started ι} {a : device_action} (hs : Undone s)
    (hjoining : s.joining = true)
    (h : dev.act s a = some t) (hmessage : ∀ code, a = .flush code → code.f ≠ 0) :
    Undone t ∧ t.joining = true ∧ a ≠ .join := by
  obtain ⟨hgoes, hcode⟩ := hs
  cases a with
  | start =>
    obtain ⟨⟨hnot, -⟩, -⟩ := start_some h
    rw [hjoining] at hnot
    cases hnot
  | stop =>
    obtain ⟨⟨hnot, -⟩, -⟩ := stop_some h
    rw [hjoining] at hnot
    cases hnot
  | join =>
    obtain ⟨⟨-, hpc⟩, -⟩ := join_some h
    simp [hpc] at hgoes
  | flush code =>
    obtain ⟨hpc, rfl⟩ := flush_some h
    have hrun : s.m_running = true := by simpa [hpc] using hgoes
    refine ⟨⟨.inr ⟨hrun, by simp, by simp⟩, ?_⟩, hjoining, by simp⟩
    rintro code' (heq | heq)
    · cases heq
      exact hmessage code rfl
    · cases heq
  | cycle =>
    change dev.cycle_step s = some t at h
    unfold cycle_step at h
    split at h
    · cases h
    · cases h
      exact ⟨⟨.inr ⟨rfl, by simp, by simp⟩, by simp⟩, hjoining, by simp⟩
    · rename_i hpc
      cases h
      have hrun : s.m_running = true := by simpa [hpc] using hgoes
      simp only [hrun]
      exact ⟨⟨.inr ⟨rfl, by simp, by simp⟩, by simp⟩, hjoining, by simp⟩
    · cases h
    · rename_i code hpc
      cases h
      have hrun : s.m_running = true := by simpa [hpc] using hgoes
      have hf := hcode code (.inl hpc)
      simp only [hrun]
      refine ⟨⟨.inr ⟨rfl, by simp, by simp⟩, ?_⟩, hjoining, by simp⟩
      rintro code' (heq | heq)
      · cases heq
      · cases heq
        exact hf
    · rename_i code hpc
      have hrun : s.m_running = true := by simpa [hpc] using hgoes
      rw [if_neg (hcode code (.inr hpc))] at h
      split at h
      · cases h
        exact ⟨⟨.inr ⟨hrun, by simp, by simp⟩, by simp⟩, hjoining, by simp⟩
      · cases h
        exact ⟨⟨.inr ⟨hrun, by simp, by simp⟩, by simp⟩, hjoining, by simp⟩
    · cases h

theorem cycle_step_thread {s t : started ι} (h : dev.cycle_step s = some t) :
    t.pc ≠ .unstarted := by
  unfold cycle_step at h
  split at h
  · cases h
  · cases h
    simp
  · cases h
    cases hrun : s.m_running with
    | false => simp
    | true => simp
  · cases h
  · cases h
    cases hrun : s.m_running with
    | false => simp
    | true => simp
  · split at h
    · cases h
      simp
    · split at h
      · cases h
        simp
      · cases h
        simp
  · cases h

theorem joined_thread {s : started ι} (h : transition.Reachable dev.threaded s) :
    s.joining = true → s.pc ≠ .unstarted := by
  refine h.keeps (P := fun s => s.joining = true → s.pc ≠ .unstarted) ?_ ?_
  · rintro s ⟨-, hnot, -⟩ hjoining
    rw [hnot] at hjoining
    cases hjoining
  · intro s a t hs ha hjoining
    cases a with
    | start =>
      obtain ⟨-, rfl⟩ := start_some ha
      simp
    | stop =>
      obtain ⟨⟨-, hpc⟩, rfl⟩ := stop_some ha
      exact hpc
    | join =>
      obtain ⟨-, rfl⟩ := join_some ha
      cases hjoining
    | flush code =>
      obtain ⟨-, rfl⟩ := flush_some ha
      simp
    | cycle => exact cycle_step_thread ha

theorem remaining_le (s : started ι) : remaining s ≤ 2 := by
  unfold remaining
  split
  all_goals first | omega | (split <;> omega)

/-- A thread that is about to end goes on where it waits for no message. -/
theorem Ending.goes_on {s : started ι} (h : Ending s) :
    s.pc = .exited ∨ s.pc = .at_flush ∨ dev.cycle_step s ≠ none := by
  unfold cycle_step
  cases hpc : s.pc with
  | unstarted => exact absurd hpc h.thread.1
  | created => exact absurd hpc h.thread.2
  | at_loop => simp
  | at_flush => simp
  | at_check code => simp
  | at_call code =>
    right
    right
    simp only
    split
    · simp
    · split
      · simp
      · simp
  | exited => simp

/-- A stop returns after one more message at most, which it may wait for, unless the thread
sets the flag after the stop has cleared it: then only a message of function 0 ends the
thread. -/
theorem a_stop_returns_unless_it_is_undone {s : started ι} (h : transition.Reachable dev.threaded s)
    (hjoining : s.joining = true) :
    (¬ Undone s → ∀ as t, transition.Run (dev.threaded.guarded fun _ a => a ≠ .join) s as t →
      as.length ≤ 2 ∧ (t.pc = .exited ∨ t.pc = .at_flush ∨ dev.cycle_step t ≠ none)) ∧
    (Undone s → ∀ as t, transition.Run dev.threaded s as t →
      (∀ code, .flush code ∈ as → code.f ≠ 0) →
      .join ∉ as ∧ Undone t) := by
  constructor
  · intro hundone as t hr
    have hending := ending_of_not_undone hjoining (joined_thread h hjoining) hundone
    have hstep : ∀ s a t, Ending s → (dev.threaded.guarded fun _ a => a ≠ .join).step s a t →
        Ending t ∧ remaining t < remaining s := by
      rintro s a t hs ⟨hjoin, ha⟩
      exact hs.act ha hjoin
    obtain ⟨hends, hle⟩ := hr.length_le hstep hending
    have := remaining_le s
    exact ⟨by omega, hends.goes_on⟩
  · intro hundone as t hr hmessages
    have hkeeps : .join ∉ as ∧ Undone t ∧ t.joining = true := by
      induction hr with
      | nil => exact ⟨by simp, hundone, hjoining⟩
      | @snoc as t a u hr ha ih =>
        obtain ⟨hjoin, hu, hwaits⟩ := ih fun code hcode => hmessages code
          (List.mem_append_left _ hcode)
        have hmessage : ∀ code, a = .flush code → code.f ≠ 0 := by
          rintro code rfl
          exact hmessages code (List.mem_append_right _ (List.mem_singleton_self _))
        obtain ⟨hu', hjoining', hnot⟩ := hu.act hwaits ha hmessage
        refine ⟨fun hmem => ?_, hu', hjoining'⟩
        rcases List.mem_append.mp hmem with hmem | hmem
        · exact hjoin hmem
        · exact hnot (List.mem_singleton.mp hmem).symm
    exact ⟨hkeeps.1, hkeeps.2.1⟩

/-- A device with one code. -/
def one_pad : device Unit :=
  ⟨"hw:1", "pad", 0, 0, fun code => if code = 36 then some ((), "play") else none⟩

/-- The device when it is new. -/
def idle_pad : started Unit := ⟨false, .unstarted, false, [], []⟩

theorem idle_unstarted : Unstarted idle_pad := ⟨rfl, rfl, rfl, rfl⟩

/-- The second message comes when the device is stopped, and its handler is not called. -/
theorem a_message_after_a_stop_is_not_called :
    ∃ s, transition.Reachable one_pad.threaded s ∧ s.flushed = [⟨1, 36, 9⟩, ⟨1, 36, 8⟩] ∧
      s.calls ≠ one_pad.cycle s.flushed ∧
      (s.calls = one_pad.cycle s.flushed ∨
        ∃ taken code, s.flushed = taken ++ [code] ∧ s.calls = one_pad.cycle taken ∧
          (s.pc = .at_check code ∨ s.pc = .at_call code ∨ s.m_running = false)) := by
  have hrun : ∃ s, transition.Reachable one_pad.threaded s ∧
      (s.flushed = [⟨1, 36, 9⟩, ⟨1, 36, 8⟩] ∧ s.calls ≠ one_pad.cycle s.flushed) :=
    transition.Reachable.machine idle_pad idle_unstarted [.start, .cycle, .cycle, .flush ⟨1, 36, 9⟩,
      .cycle, .cycle, .cycle, .stop, .flush ⟨1, 36, 8⟩, .cycle, .join] (by decide)
  obtain ⟨s, hs, hflushed, hcalls⟩ := hrun
  exact ⟨s, hs, hflushed, hcalls, the_thread_calls_what_it_flushes hs⟩

/-- A stop right after the start is undone. -/
theorem an_early_stop_waits :
    ∃ s, transition.Reachable one_pad.threaded s ∧ s.joining = true ∧ Undone s ∧
      ∀ as t, transition.Run one_pad.threaded s as t → (∀ code, .flush code ∈ as → code.f ≠ 0) →
        .join ∉ as ∧ Undone t := by
  have hrun : ∃ s, transition.Reachable one_pad.threaded s ∧ (s.joining = true ∧ s.pc = .created) :=
    transition.Reachable.machine idle_pad idle_unstarted [.start, .stop] (by decide)
  obtain ⟨s, hs, hjoining, hpc⟩ := hrun
  have hundone : Undone s := ⟨.inl hpc, by simp [hpc]⟩
  exact ⟨s, hs, hjoining, hundone, (a_stop_returns_unless_it_is_undone hs hjoining).2 hundone⟩

end device

end strangeio.midi
