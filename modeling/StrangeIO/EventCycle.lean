-- The tasks of the event loop (events/loop.cpp): each step of `cycle_events`
-- keeps the list, its three pointers and the one task that goes on with it.
import StrangeIO.EventList

namespace strangeio.event

namespace loop

/-! ## A task that goes on -/

section
variable {s t : loop} {done : List msg} {nodes : List (addr × msg)} {u : Nat} {v : task}

/-- The task goes on, and neither the calls of `add_event` nor the events that were linked in
change. -/
structure Advances (u : Nat) (v : task) (s t : loop) : Prop where
  tasks : t.tasks = Function.update s.tasks u v
  add : t.add = s.add
  submitted : t.submitted = s.submitted
  linked : t.linked = s.linked
  m_listeners : t.m_listeners = s.m_listeners

theorem Advances.self (g : Advances u v s t) : t.tasks u = v := by
  rw [g.tasks, Function.update_self]

theorem Advances.other (g : Advances u v s t) {w : Nat} (hw : w ≠ u) : t.tasks w = s.tasks w := by
  rw [g.tasks, Function.update_of_ne hw]

theorem Holds.submitted_of (h : s.Holds done nodes) (hpc : (s.tasks u).pc ≠ .unsubmitted) :
    u < s.submitted := by
  by_contra hlt
  rw [h.unsubmitted u (by omega)] at hpc
  exact hpc rfl

theorem Advances.closing (g : Advances u v s t) (h : s.Holds done nodes)
    (hclosing : v.reset = true → v.pc.closing = true) (w : Nat) (hw : (t.tasks w).reset = true) :
    (t.tasks w).pc.closing = true := by
  by_cases hwu : w = u
  · subst hwu
    rw [g.self] at hw ⊢
    exact hclosing hw
  · rw [g.other hwu] at hw ⊢
    exact h.closing w hw

theorem Advances.unsubmitted (g : Advances u v s t) (h : s.Holds done nodes)
    (hpc : (s.tasks u).pc ≠ .unsubmitted) (w : Nat) (hw : t.submitted ≤ w) :
    t.tasks w = { pc := .unsubmitted, reset := false } := by
  rw [g.submitted] at hw
  have hlt := h.submitted_of hpc
  rw [g.other (by omega)]
  exact h.unsubmitted w hw

theorem Advances.mutex (g : Advances u v s t)
    (h : shared.Sole t.m_tail_mutex (Function.update s.locks (.task u) v.pc.locks)) :
    shared.Sole t.m_tail_mutex t.locks := by
  unfold locks
  rwa [look_task _ _ g.add g.tasks]

theorem Advances.apart (g : Advances u v s t) {listed : List addr}
    (h : shared.Apart (Function.update s.owns (.task u) v.left) listed) :
    shared.Apart t.owns listed := by
  unfold loop.owns
  rwa [look_task _ _ g.add g.tasks]

theorem Advances.owns (g : Advances u v s t) {x : party} (hx : x ≠ .task u) :
    t.owns x = s.owns x := by
  unfold loop.owns
  rw [look_task _ _ g.add g.tasks, Function.update_of_ne hx]

theorem Advances.owns_self (g : Advances u v s t) : t.owns (.task u) = v.left := by
  unfold loop.owns
  rw [look_task _ _ g.add g.tasks, Function.update_self]

theorem Advances.content (g : Advances u v s t) (h : s.Holds done nodes)
    (hself : ∀ a, v.left = some a → t.Content a (.task u))
    (hheap : ∀ x a, x ≠ .task u → s.owns x = some a → t.heap a = s.heap a) (x : party) (a : addr)
    (hx : t.owns x = some a) : t.Content a x := by
  by_cases hxu : x = .task u
  · subst hxu
    rw [g.owns_self] at hx
    exact hself a hx
  · rw [g.owns hxu] at hx
    refine (h.content x a hx).same ?_ (hheap x a hxu hx)
    rintro w rfl
    rw [g.other]
    rintro rfl
    exact hxu rfl

theorem Advances.locked_tail (g : Advances u v s t) (hm : t.m_tail_mutex = some (.task u))
    (h : t.TaskTail nodes v.pc) : t.Tail nodes := by
  apply Tail.of_task _ hm
  rwa [g.self]

/-- What is left to show of a task that keeps its node. -/
theorem Holds.goes_on (h : s.Holds done nodes) (g : Advances u v s t)
    (hpc : (s.tasks u).pc ≠ .unsubmitted)
    (hleft : v.left = (s.tasks u).left) (hreset : v.reset = (s.tasks u).reset)
    (hclosing : v.reset = true → v.pc.closing = true)
    (hheap : ∀ x a, s.owns x = some a → t.heap a = s.heap a)
    (hmutex : shared.Sole t.m_tail_mutex (Function.update s.locks (.task u) v.pc.locks))
    (htail : t.Tail nodes) (hturn : t.Turn done nodes) : t.Holds done nodes := by
  refine ⟨g.mutex hmutex, g.apart (h.apart.keep hleft), g.content h ?_ fun x a _ hx => hheap x a hx,
    g.closing h hclosing, g.unsubmitted h hpc, g.linked.trans h.linked, htail, hturn⟩
  intro a ha
  have hown : s.owns (.task u) = some a := hleft.symm.trans ha
  refine (h.content _ a hown).same ?_ (hheap _ a hown)
  rintro w hw
  cases hw
  rw [g.self, hreset]

theorem outstanding_task (g : Advances u v s t) (hp : v.pending = (s.tasks u).pending) :
    t.outstanding = s.outstanding := by
  unfold outstanding
  rw [look_task _ _ g.add g.tasks, hp]
  exact Function.update_eq_self (party.task u) _

theorem Holds.not_reset (h : s.Holds done nodes) (hpc : (s.tasks u).pc.closing = false) :
    (s.tasks u).reset = false := by
  cases hr : (s.tasks u).reset with
  | false => rfl
  | true =>
    rw [h.closing u hr] at hpc
    cases hpc

theorem first_reads {a : addr} {pc : cycle_pc} (h : s.TaskFirst a pc) : s.reads pc = none := by
  cases pc <;> first | rfl | cases h

theorem reads_active {pc : cycle_pc} {x : addr × msg × Nat} (h : s.reads pc = some x) :
    pc.active = true := by
  cases pc <;> first | rfl | cases h

theorem pending_of (hreset : (s.tasks u).reset = false) (hactive : (s.tasks u).pc.active = true) :
    s.outstanding (.task u) = true := by
  simp [outstanding, look, task.pending, hreset, hactive]

/-- A task that has no event, and has not begun to reset the list. -/
theorem Holds.waiting_of (h : s.Holds done nodes) (hreset : (s.tasks u).reset = false)
    (hactive : (s.tasks u).pc.active = true) (hreads : s.reads (s.tasks u).pc = none) :
    ∃ a m rest, shared.Sole (some (.task u)) s.outstanding ∧ nodes = (a, m) :: rest ∧
      s.TaskFirst a (s.tasks u).pc ∧ linked.Chain event_list.mk s.heap ((a, some m) :: cells rest) ∧
      s.calls = s.deliveries done := by
  have hout := pending_of hreset hactive
  cases h.turn with
  | idle hjob =>
    rw [hjob.nobody] at hout
    cases hout
  | waiting x a m rest hjob hnodes hfirst hchain hcalls =>
    obtain rfl := hjob.eq hout
    exact ⟨a, m, rest, hjob, hnodes, hfirst, hchain, hcalls⟩
  | reading w a m rest k hjob hnodes hreads' =>
    cases hjob.eq hout
    rw [hreads] at hreads'
    cases hreads'

/-- A task that has the event of its node. -/
theorem Holds.reading_of (h : s.Holds done nodes) {a : addr} {m : msg} {k : Nat}
    (hreset : (s.tasks u).reset = false) (hreads : s.reads (s.tasks u).pc = some (a, m, k)) :
    ∃ rest, shared.Sole (some (.task u)) s.outstanding ∧ nodes = (a, m) :: rest ∧
      k ≤ s.listeners m.type ∧ s.Passes a (s.tasks u).pc ∧
      linked.Chain event_list.mk s.heap ((a, none) :: cells rest) ∧
      s.calls = s.deliveries done ++ calls_of m k := by
  have hout := pending_of hreset (reads_active hreads)
  cases h.turn with
  | idle hjob =>
    rw [hjob.nobody] at hout
    cases hout
  | waiting x a m rest hjob hnodes hfirst =>
    obtain rfl := hjob.eq hout
    rw [first_reads hfirst] at hreads
    cases hreads
  | reading w b n rest j hjob hnodes hreads' hk hpasses hchain hcalls =>
    cases hjob.eq hout
    rw [hreads] at hreads'
    cases hreads'
    exact ⟨rest, hjob, hnodes, hk, hpasses, hchain, hcalls⟩

theorem left_of_reads (hreset : v.reset = false) {x : addr × msg × Nat}
    (hreads : s.reads v.pc = some x) : v.left = none := by
  unfold task.left
  rw [hreset]
  cases hpc : v.pc <;> simp_all [reads]

/-- The task comes closer to the first event. -/
theorem Holds.waits_on (h : s.Holds done nodes) (g : Advances u v s t)
    (hreset : (s.tasks u).reset = false) (hreset' : v.reset = false)
    (hactive : (s.tasks u).pc.active = true) (hactive' : v.pc.active = true)
    (hreads : s.reads (s.tasks u).pc = none) (hleft : v.left = (s.tasks u).left)
    (hlocks : v.pc.locks = (s.tasks u).pc.locks) (hmutex : t.m_tail_mutex = s.m_tail_mutex)
    (htail : t.Tail nodes) (hheap : t.heap = s.heap) (hcalls : t.calls = s.calls)
    (hfirst : ∀ a, s.TaskFirst a (s.tasks u).pc → t.TaskFirst a v.pc) : t.Holds done nodes := by
  have hpc : (s.tasks u).pc ≠ .unsubmitted := by
    intro hpc
    rw [hpc] at hactive
    cases hactive
  refine h.goes_on g hpc hleft (hreset'.trans hreset.symm) ?_
    (fun _ _ _ => by rw [hheap]) ?_ htail ?_
  · rw [hreset']
    exact fun hr => (by cases hr)
  · rw [hmutex]
    exact h.mutex.keep hlocks
  · obtain ⟨a, m, rest, hjob, hnodes, hf, hchain, hc⟩ := h.waiting_of hreset hactive hreads
    refine .waiting (.task u) a m rest ?_ hnodes ?_ ?_ ?_
    · rw [outstanding_task g]
      · exact hjob
      · simp [task.pending, hreset, hreset', hactive, hactive']
    · rw [first_task, g.self]
      exact hfirst a hf
    · rwa [hheap]
    · rw [hcalls, deliveries_same g.m_listeners, hc]

/-- The task goes on with its event. -/
theorem Holds.reads_on (h : s.Holds done nodes) (g : Advances u v s t) {a : addr}
    {m : msg} {j k : Nat}
    (hreset : (s.tasks u).reset = false) (hreset' : v.reset = false)
    (hreads : s.reads (s.tasks u).pc = some (a, m, j)) (hreads' : s.reads v.pc = some (a, m, k))
    (hk : j ≤ s.listeners m.type → k ≤ s.listeners m.type) (hheap : t.heap = s.heap)
    (hcalls : s.calls = s.deliveries done ++ calls_of m j →
      t.calls = s.deliveries done ++ calls_of m k)
    (hmutex : shared.Sole t.m_tail_mutex (Function.update s.locks (.task u) v.pc.locks))
    (hpasses : s.Passes a (s.tasks u).pc → t.Passes a v.pc)
    (htail : t.Tail nodes) : t.Holds done nodes := by
  have hpc : (s.tasks u).pc ≠ .unsubmitted := by
    intro hpc
    rw [hpc] at hreads
    cases hreads
  refine h.goes_on g hpc ?_ (hreset'.trans hreset.symm) ?_ (fun _ _ _ => by rw [hheap])
    hmutex htail ?_
  · rw [left_of_reads hreset' hreads', left_of_reads hreset hreads]
  · rw [hreset']
    exact fun hr => (by cases hr)
  · obtain ⟨rest, hjob, hnodes, hle, hp, hchain, hc⟩ := h.reading_of hreset hreads
    refine .reading u a m rest k ?_ hnodes ?_ ?_ ?_ ?_ ?_
    · rw [outstanding_task g]
      · exact hjob
      · simp [task.pending, hreset, hreset', reads_active hreads, reads_active hreads']
    · rw [g.self, reads_same g.m_listeners, hreads']
    · unfold loop.listeners
      rw [g.m_listeners]
      exact hk hle
    · rw [g.self]
      exact hpasses hp
    · rwa [hheap]
    · rw [deliveries_same g.m_listeners]
      exact hcalls hc

theorem Turn.nodes_ne (h : s.Turn done nodes) {x : party} (hx : s.outstanding x = true) :
    nodes ≠ [] := by
  cases h with
  | idle hjob =>
    rw [hjob.nobody] at hx
    cases hx
  | waiting y a m rest hjob hnodes =>
    rw [hnodes]
    exact List.cons_ne_nil _ _
  | reading w a m rest k hjob hnodes =>
    rw [hnodes]
    exact List.cons_ne_nil _ _

theorem Advances.first (g : Advances u v s t) {x : party} {a : addr} (h : s.First a x)
    (hx : x ≠ .task u) (hhead : t.m_head = s.m_head) : t.First a x := by
  cases x with
  | add d =>
    rw [first_add] at h ⊢
    unfold AddFirst at h ⊢
    rwa [g.add, hhead]
  | task w =>
    have hw : w ≠ u := by
      rintro rfl
      exact hx rfl
    rw [first_task] at h ⊢
    unfold TaskFirst at h ⊢
    rwa [g.other hw, hhead]

theorem Advances.tail (g : Advances u v s t) (h : s.Tail nodes)
    (hu : s.m_tail_mutex ≠ some (.task u))
    (hmutex : t.m_tail_mutex = s.m_tail_mutex) (htail : t.m_tail = s.m_tail)
    (hptr : t.m_tail_ptr = s.m_tail_ptr) (hhead : t.m_head = s.m_head) : t.Tail nodes := by
  refine h.same hmutex htail hptr hhead (fun _ _ => by rw [g.add]) ?_
  intro w hw
  rw [g.other]
  rintro rfl
  exact hu hw

/-- The task has reset the list, and only its own node is left to it. -/
theorem Holds.closes (h : s.Holds done nodes) (g : Advances u v s t)
    (hreset : (s.tasks u).reset = true)
    (hreset' : v.reset = true) (hclosing : v.pc.closing = true) (hleft : v.left = (s.tasks u).left)
    (hmutex : shared.Sole t.m_tail_mutex (Function.update s.locks (.task u) v.pc.locks))
    (htail : t.Tail nodes) (hheap : t.heap = s.heap) (hcalls : t.calls = s.calls)
    (hptr : t.m_tail_ptr = s.m_tail_ptr) (hhead : nodes ≠ [] → t.m_head = s.m_head) :
    t.Holds done nodes := by
  have hpc : (s.tasks u).pc ≠ .unsubmitted := by
    intro hpc
    have := h.closing u hreset
    rw [hpc] at this
    cases this
  have hself : s.outstanding (.task u) = false := by
    simp [outstanding, look, task.pending, hreset]
  have hother {x : party} (hx : s.outstanding x = true) : x ≠ .task u := by
    rintro rfl
    rw [hself] at hx
    cases hx
  refine h.goes_on g hpc hleft (hreset'.trans hreset.symm) (fun _ => hclosing)
    (fun _ _ _ => by rw [hheap])
    hmutex htail ?_
  refine h.turn.same ?_ ?_ ?_ ?_ (fun _ _ => by rw [hheap]) g.m_listeners hcalls
  · apply outstanding_task g
    simp [task.pending, hreset, hreset']
  · exact fun x a hx hf => g.first hf (hother hx) (hhead (h.turn.nodes_ne hx))
  · intro w hw
    rw [g.other]
    rintro rfl
    exact hother hw rfl
  · intro a m rest _ hp
    rwa [hptr]

/-! ## The steps of cycle_events -/

/-- What the task goes on to, when it touches nothing else. -/
theorem advances_set (s : loop) (u : Nat) (pc : cycle_pc) (hreset : (s.tasks u).reset = false) :
    Advances u { pc, reset := false } s (s.set_task u pc) := by
  refine ⟨?_, rfl, rfl, rfl, rfl⟩
  rw [← hreset]
  rfl

theorem Holds.queued (h : s.Holds done nodes) (hpc : (s.tasks u).pc = .queued) :
    (s.set_task u .at_head).Holds done nodes := by
  have hreset := h.not_reset (u := u) (by rw [hpc]; rfl)
  have hlocks : (s.tasks u).pc.locks = false := by rw [hpc]; rfl
  have g := advances_set s u .at_head hreset
  refine h.waits_on g hreset rfl (by rw [hpc]; rfl) rfl (by rw [hpc]; rfl) ?_ hlocks.symm
    rfl ?_ rfl rfl ?_
  · unfold task.left
    rw [hpc]
  · exact g.tail h.tail (h.not_holder (x := .task u) hlocks) rfl rfl rfl rfl
  · rw [hpc]
    exact fun a hf => hf

theorem Holds.at_head (h : s.Holds done nodes) (hpc : (s.tasks u).pc = .at_head) :
    (s.set_task u (.at_loop s.m_head)).Holds done nodes := by
  have hreset := h.not_reset (u := u) (by rw [hpc]; rfl)
  have hlocks : (s.tasks u).pc.locks = false := by rw [hpc]; rfl
  have g := advances_set s u (.at_loop s.m_head) hreset
  refine h.waits_on g hreset rfl (by rw [hpc]; rfl) rfl (by rw [hpc]; rfl) ?_ hlocks.symm
    rfl ?_ rfl rfl ?_
  · unfold task.left
    rw [hpc]
  · exact g.tail h.tail (h.not_holder (x := .task u) hlocks) rfl rfl rfl rfl
  · rw [hpc]
    exact fun a hf => hf

/-- A task whose list has ended has reset it. -/
theorem Holds.at_end (h : s.Holds done nodes) (hpc : (s.tasks u).pc = .at_loop none) :
    (s.set_task u .finished).Holds done nodes := by
  have hlocks : (s.tasks u).pc.locks = false := by rw [hpc]; rfl
  have hreset : (s.tasks u).reset = true := by
    by_contra hr
    rw [Bool.not_eq_true] at hr
    obtain ⟨a, m, rest, -, -, hfirst, -⟩ := h.waiting_of hr (by rw [hpc]; rfl) (by rw [hpc]; rfl)
    rw [hpc] at hfirst
    cases hfirst
  have g : Advances u { pc := .finished, reset := true } s (s.set_task u .finished) := by
    refine ⟨?_, rfl, rfl, rfl, rfl⟩
    rw [← hreset]
    rfl
  refine h.closes g hreset rfl rfl ?_ (h.mutex.keep hlocks.symm) ?_ rfl rfl rfl fun _ => rfl
  · unfold task.left
    rw [hpc]
  · exact g.tail h.tail (h.not_holder (x := .task u) hlocks) rfl rfl rfl rfl

/-- The task takes the event of the first node, which a party has left to it. -/
theorem Holds.at_loop {node : addr} (h : s.Holds done nodes)
    (hpc : (s.tasks u).pc = .at_loop (some node)) :
    ∃ sptr next, s.heap node = some { ptr := some sptr, next } ∧
      ((s.set_node node (some { ptr := none, next })).set_task u (.calling node sptr 0)).Holds done
        nodes := by
  have hreset := h.not_reset (u := u) (by rw [hpc]; rfl)
  have hlocks : (s.tasks u).pc.locks = false := by rw [hpc]; rfl
  obtain ⟨a, m, rest, hjob, rfl, hfirst, hchain, hcalls⟩ :=
    h.waiting_of hreset (by rw [hpc]; rfl) (by rw [hpc]; rfl)
  rw [hpc] at hfirst
  cases hfirst
  refine ⟨m, _, hchain.head, ?_⟩
  let t :=
    (s.set_node node (some { ptr := none, next := (cells rest).head?.map Prod.fst })).set_task u
    (.calling node m 0)
  have g : Advances u { pc := .calling node m 0, reset := false } s t := by
    refine ⟨?_, rfl, rfl, rfl, rfl⟩
    rw [← hreset]
    rfl
  have hdup := h.apart.nodup
  rw [List.map_cons, List.nodup_cons] at hdup
  refine h.goes_on g (by rw [hpc]; simp) ?_ hreset.symm (fun hr => Bool.noConfusion hr) ?_ ?_ ?_ ?_
  · unfold task.left
    rw [hpc]
  · intro x b hx
    apply Function.update_of_ne
    rintro rfl
    exact h.apart.outside x b hx List.mem_cons_self
  · exact h.mutex.keep hlocks.symm
  · exact g.tail h.tail (h.not_holder (x := .task u) hlocks) rfl rfl rfl rfl
  · refine .reading u node m rest 0 ?_ rfl ?_ (Nat.zero_le _) ?_ ⟨?_, ?_⟩ ?_
    · rw [outstanding_task g]
      · exact hjob
      · simp [task.pending, hreset, hpc, cycle_pc.active]
    · rw [g.self]
      rfl
    · rw [g.self]
      trivial
    · exact Function.update_self _ _ _
    · apply hchain.tail.same
      intro b hb
      apply Function.update_of_ne
      rintro rfl
      exact hdup.1 (by simpa [cells, Function.comp_def] using hb)
    · change s.calls = s.deliveries done ++ []
      rw [hcalls, List.append_nil]

theorem calls_of_succ (m : msg) (k : Nat) : calls_of m (k + 1) = calls_of m k ++ [(m, k)] := by
  simp [calls_of, List.range_succ]

/-- The next listener is called, or all of them have been. -/
theorem Holds.calling {node : addr} {sptr : msg} {i : Nat} (h : s.Holds done nodes)
    (hpc : (s.tasks u).pc = .calling node sptr i) :
    (i < s.listeners sptr.type →
      { s.set_task u (.inside node sptr i) with
        calls := s.calls ++ [(sptr, i)] }.Holds done nodes) ∧
    (¬ i < s.listeners sptr.type → (s.set_task u (.at_tail node sptr)).Holds done nodes) := by
  have hreset := h.not_reset (u := u) (by rw [hpc]; rfl)
  have hlocks : (s.tasks u).pc.locks = false := by rw [hpc]; rfl
  have hreads : s.reads (s.tasks u).pc = some (node, sptr, i) := by rw [hpc]; rfl
  constructor
  · intro hi
    have g : Advances u { pc := .inside node sptr i, reset := false } s
        { s.set_task u (.inside node sptr i) with calls := s.calls ++ [(sptr, i)] } := by
      refine ⟨?_, rfl, rfl, rfl, rfl⟩
      rw [← hreset]
      rfl
    refine h.reads_on g hreset rfl hreads rfl (fun _ => hi) rfl ?_ (h.mutex.keep hlocks.symm) ?_ ?_
    · intro hcalls
      change s.calls ++ [(sptr, i)] = _
      rw [hcalls, calls_of_succ, List.append_assoc]
    · exact fun _ => trivial
    · exact g.tail h.tail (h.not_holder (x := .task u) hlocks) rfl rfl rfl rfl
  · intro hi
    have g := advances_set s u (.at_tail node sptr) hreset
    obtain ⟨rest, -, -, hle, -⟩ := h.reading_of hreset hreads
    obtain rfl : i = s.listeners sptr.type := by omega
    refine h.reads_on g hreset rfl hreads rfl (fun hk => hk) rfl (fun hcalls => hcalls)
      (h.mutex.keep hlocks.symm) ?_ ?_
    · exact fun _ => trivial
    · exact g.tail h.tail (h.not_holder (x := .task u) hlocks) rfl rfl rfl rfl

/-- A step of the task that is about no more than where it is. -/
theorem Holds.steps {a : addr} {m : msg} {k : Nat} {pc : cycle_pc} (h : s.Holds done nodes)
    (hreset : (s.tasks u).reset = false) (hreads : s.reads (s.tasks u).pc = some (a, m, k))
    (hreads' : s.reads pc = some (a, m, k)) (hlocks : pc.locks = (s.tasks u).pc.locks)
    (hpasses : s.Passes a pc) (htail : (s.set_task u pc).Tail nodes) :
    (s.set_task u pc).Holds done nodes :=
  h.reads_on (advances_set s u pc hreset) hreset rfl hreads hreads' (fun hk => hk) rfl
    (fun hc => hc)
    (h.mutex.keep hlocks) (fun _ => hpasses) htail

theorem Holds.inside {node : addr} {sptr : msg} {i : Nat} (h : s.Holds done nodes)
    (hpc : (s.tasks u).pc = .inside node sptr i) :
    (s.set_task u (.calling node sptr (i + 1))).Holds done nodes := by
  have hreset := h.not_reset (u := u) (by rw [hpc]; rfl)
  have hlocks : (s.tasks u).pc.locks = false := by rw [hpc]; rfl
  have g := advances_set s u (.calling node sptr (i + 1)) hreset
  refine h.steps hreset (by rw [hpc]; rfl) rfl hlocks.symm trivial ?_
  exact g.tail h.tail (h.not_holder (x := .task u) hlocks) rfl rfl rfl rfl

/-- The test of the tail without the mutex: another node only shows a later event. -/
theorem Holds.at_tail {node : addr} {sptr : msg} (h : s.Holds done nodes)
    (hpc : (s.tasks u).pc = .at_tail node sptr) :
    (s.set_task u
      (if s.m_tail_ptr = some node then .at_lock node sptr else .at_next node sptr)).Holds done
        nodes := by
  have hreset := h.not_reset (u := u) (by rw [hpc]; rfl)
  have hlocks : (s.tasks u).pc.locks = false := by rw [hpc]; rfl
  have htail (pc : cycle_pc) : (s.set_task u pc).Tail nodes :=
    (advances_set s u pc hreset).tail h.tail (h.not_holder (x := .task u) hlocks) rfl rfl rfl rfl
  split
  · exact h.steps hreset (by rw [hpc]; rfl) rfl hlocks.symm trivial (htail _)
  · rename_i hptr
    exact h.steps hreset (by rw [hpc]; rfl) rfl hlocks.symm hptr (htail _)

theorem Holds.task_lock {node : addr} {sptr : msg} (h : s.Holds done nodes)
    (hpc : (s.tasks u).pc = .at_lock node sptr) (hm : s.m_tail_mutex = none) :
    { s.set_task u (.at_recheck node sptr) with m_tail_mutex := some (.task u) }.Holds
      done nodes := by
  have hreset := h.not_reset (u := u) (by rw [hpc]; rfl)
  have g : Advances u { pc := .at_recheck node sptr, reset := false } s
      { s.set_task u (.at_recheck node sptr) with m_tail_mutex := some (.task u) } := by
    refine ⟨?_, rfl, rfl, rfl, rfl⟩
    rw [← hreset]
    rfl
  have hs := h.tail.free hm
  have hmutex := h.mutex
  rw [hm] at hmutex
  refine h.reads_on g hreset rfl (by rw [hpc]; rfl) rfl (fun hk => hk) rfl
    (fun hc => hc) hmutex.take
    (fun _ => trivial) (g.locked_tail rfl ⟨hs.m_tail, hs.m_tail_ptr, hs.m_head⟩)

/-- With the mutex the test is exact: the node is the last one, or it is not. -/
theorem Holds.at_recheck {node : addr} {sptr : msg} (h : s.Holds done nodes)
    (hpc : (s.tasks u).pc = .at_recheck node sptr) :
    (s.set_task u
      (if s.m_tail_ptr = some node then .reset_ptr node sptr else .at_unlock node sptr)).Holds done
        nodes := by
  have hreset := h.not_reset (u := u) (by rw [hpc]; rfl)
  have hlocks : (s.tasks u).pc.locks = true := by rw [hpc]; rfl
  have hreads : s.reads (s.tasks u).pc = some (node, sptr, s.listeners sptr.type) := by
    rw [hpc]; rfl
  have hm : s.m_tail_mutex = some (.task u) := h.mutex.holder_eq hlocks
  have hs := h.tail.held_task hm
  rw [hpc] at hs
  have htail {pc : cycle_pc} (hpc' : (s.set_task u pc).TaskTail nodes pc) :
      (s.set_task u pc).Tail nodes := (advances_set s u pc hreset).locked_tail hm hpc'
  split
  · rename_i hptr
    refine h.steps hreset hreads rfl hlocks.symm trivial
      (htail ⟨⟨hs.m_tail, hs.m_tail_ptr, hs.m_head⟩, ?_⟩)
    obtain ⟨rest, -, rfl, -⟩ := h.reading_of hreset hreads
    have hdup := h.apart.nodup
    rcases List.eq_nil_or_concat rest with rfl | ⟨init, ⟨d, q⟩, rfl⟩
    · exact ⟨sptr, rfl⟩
    · -- the last of several nodes is not the first one
      have hlast := hs.m_tail_ptr
      rw [List.concat_eq_append, ← List.cons_append, List.getLast?_concat, hptr] at hlast
      cases hlast
      simp at hdup
  · rename_i hptr
    exact h.steps hreset hreads rfl hlocks.symm hptr (htail ⟨hs.m_tail, hs.m_tail_ptr, hs.m_head⟩)

theorem deliveries_concat (events : List msg) (m : msg) :
    s.deliveries (events ++ [m]) = s.deliveries events ++ calls_of m (s.listeners m.type) := by
  simp [deliveries]

/-- The list is empty again, and the last event has been delivered. -/
theorem Holds.reset_ptr {node : addr} {sptr : msg} (h : s.Holds done nodes)
    (hpc : (s.tasks u).pc = .reset_ptr node sptr) :
    { s with
      m_tail_ptr := none
      tasks := Function.update s.tasks u { pc := .reset_tail node sptr, reset := true } }.Holds
        (done ++ [sptr]) [] := by
  let t : loop := { s with
    m_tail_ptr := none
    tasks := Function.update s.tasks u { pc := .reset_tail node sptr, reset := true } }
  have g : Advances u { pc := .reset_tail node sptr, reset := true } s t :=
    ⟨rfl, rfl, rfl, rfl, rfl⟩
  have hreset := h.not_reset (u := u) (by rw [hpc]; rfl)
  have hlocks : s.locks (.task u) = true := by
    simp only [locks, look, hpc]
    rfl
  have hm := h.mutex.holder_eq hlocks
  have htail := h.tail.held_task hm
  rw [hpc] at htail
  obtain ⟨-, m', rfl⟩ := htail
  obtain ⟨rest, hjob, hnodes, -, -, hchain, hcalls⟩ := h.reading_of hreset (by rw [hpc]; rfl)
  cases hnodes
  refine ⟨g.mutex (h.mutex.keep hlocks.symm), g.apart h.apart.unlink,
    g.content h ?_ fun _ _ _ _ => rfl, g.closing h fun _ => rfl,
    g.unsubmitted h (by rw [hpc]; simp), ?_, g.locked_tail hm ⟨rfl, rfl⟩, ?_⟩
  · intro a ha
    cases ha
    exact ⟨_, hchain.head, fun _ => rfl⟩
  · change s.linked = _
    rw [h.linked]
    simp
  · refine .idle ?_ rfl ?_
    · unfold outstanding
      rw [look_task _ _ g.add g.tasks]
      exact hjob.give hjob.has_self
    · change s.calls = t.deliveries (done ++ [sptr])
      rw [deliveries_same (s := s) (t := t) rfl, deliveries_concat, hcalls]

theorem Holds.was_reset {pc : cycle_pc} (h : s.Holds done nodes) (hpc : (s.tasks u).pc = pc)
    (hactive : pc.active = true) (hreads : s.reads pc = none) (hfirst : ∀ a, ¬ s.TaskFirst a pc) :
    (s.tasks u).reset = true := by
  subst hpc
  by_contra hr
  rw [Bool.not_eq_true] at hr
  obtain ⟨a, m, rest, -, -, hf, -⟩ := h.waiting_of hr hactive hreads
  exact hfirst a hf

theorem Holds.reset_tail {node : addr} {sptr : msg} (h : s.Holds done nodes)
    (hpc : (s.tasks u).pc = .reset_tail node sptr) :
    { s.set_task u (.reset_head node sptr) with m_tail := none }.Holds done nodes := by
  have hreset : (s.tasks u).reset = true := h.was_reset hpc rfl rfl fun a hf => hf
  have hlocks : (s.tasks u).pc.locks = true := by rw [hpc]; rfl
  have hm : s.m_tail_mutex = some (.task u) := h.mutex.holder_eq hlocks
  have htail := h.tail.held_task hm
  rw [hpc] at htail
  have g : Advances u { pc := .reset_head node sptr, reset := true } s
      { s.set_task u (.reset_head node sptr) with m_tail := none } := by
    refine ⟨?_, rfl, rfl, rfl, rfl⟩
    rw [← hreset]
    rfl
  refine h.closes g hreset rfl rfl ?_ (h.mutex.keep hlocks.symm) ?_ rfl rfl rfl fun _ => rfl
  · unfold task.left
    rw [hpc]
  · exact g.locked_tail hm ⟨rfl, htail⟩

theorem Holds.reset_head {node : addr} {sptr : msg} (h : s.Holds done nodes)
    (hpc : (s.tasks u).pc = .reset_head node sptr) :
    { s.set_task u (.at_unlock node sptr) with m_head := none }.Holds done nodes := by
  have hreset : (s.tasks u).reset = true := h.was_reset hpc rfl rfl fun a hf => hf
  have hlocks : (s.tasks u).pc.locks = true := by rw [hpc]; rfl
  have hm : s.m_tail_mutex = some (.task u) := h.mutex.holder_eq hlocks
  have htail := h.tail.held_task hm
  rw [hpc] at htail
  obtain ⟨hmt, hptr, rfl⟩ := htail
  have g : Advances u { pc := .at_unlock node sptr, reset := true } s
      { s.set_task u (.at_unlock node sptr) with m_head := none } := by
    refine ⟨?_, rfl, rfl, rfl, rfl⟩
    rw [← hreset]
    rfl
  refine h.closes g hreset rfl rfl ?_ (h.mutex.keep hlocks.symm) ?_ rfl rfl rfl fun hne =>
    absurd rfl hne
  · unfold task.left
    rw [hpc, hreset]
    rfl
  · exact g.locked_tail hm ⟨hmt, hptr, fun _ => rfl, fun _ => rfl⟩

theorem Holds.task_unlock {node : addr} {sptr : msg} (h : s.Holds done nodes)
    (hpc : (s.tasks u).pc = .at_unlock node sptr) :
    { s.set_task u (.at_next node sptr) with m_tail_mutex := none }.Holds done nodes := by
  have hlocks : s.locks (.task u) = true := by
    simp only [locks, look, hpc]
    rfl
  have hs := h.tail.held_task (h.mutex.holder_eq hlocks)
  rw [hpc] at hs
  have htail : { s.set_task u (.at_next node sptr) with m_tail_mutex := none }.Tail nodes :=
    Tail.of_free ⟨hs.m_tail, hs.m_tail_ptr, hs.m_head⟩ rfl
  have g {r : Bool} (hr : (s.tasks u).reset = r) :
    Advances u { pc := .at_next node sptr, reset := r } s
      { s.set_task u (.at_next node sptr) with m_tail_mutex := none } := by
    refine ⟨?_, rfl, rfl, rfl, rfl⟩
    rw [← hr]
    rfl
  cases hreset : (s.tasks u).reset with
  | true =>
    refine h.closes (g hreset) hreset rfl rfl ?_ (h.mutex.give hlocks) htail rfl rfl
      rfl fun _ => rfl
    unfold task.left
    rw [hpc]
    simp [hreset]
  | false =>
    refine h.reads_on (g hreset) hreset rfl (by rw [hpc]; rfl) rfl (fun hk => hk) rfl (fun hc => hc)
      (h.mutex.give hlocks) ?_ htail
    rw [hpc]
    exact fun hp => hp

theorem Steady.tail {a : addr} {m : msg} {rest : List (addr × msg)} (h : s.Steady ((a, m) :: rest))
    (hne : s.m_tail_ptr ≠ some a) : rest ≠ [] ∧ s.Steady rest := by
  have hrest : rest ≠ [] := by
    rintro rfl
    exact hne h.m_tail_ptr
  obtain ⟨b, l, rfl⟩ := List.exists_cons_of_ne_nil hrest
  refine ⟨hrest, ?_, ?_, fun hh => absurd (h.m_head.mp hh) (by simp), fun hnil => absurd hnil hrest⟩
  · rw [h.m_tail, List.getLast?_cons_cons]
  · rw [h.m_tail_ptr, List.getLast?_cons_cons]

/-- A list whose last node is not its first one goes on behind the first. -/
theorem Tail.tail {a : addr} {m : msg} {rest : List (addr × msg)} (h : s.Tail ((a, m) :: rest))
    (hne : s.m_tail_ptr ≠ some a) : rest ≠ [] ∧ s.Tail rest := by
  have htwo {b c : addr} {n q : msg} {init : List (addr × msg)}
      (hsplit : (a, m) :: rest = init ++ [(b, n), (c, q)]) (hptr : s.m_tail_ptr = some b) :
      rest ≠ [] ∧ ∃ init b m n, rest = init ++ [(b, n), (c, m)] ∧ s.m_tail_ptr = some b := by
    cases init with
    | nil =>
      cases hsplit
      exact absurd hptr hne
    | cons x init =>
      cases hsplit
      exact ⟨by simp, init, b, q, n, rfl, hptr⟩
  cases hm : s.m_tail_mutex with
  | none =>
    have hs := (h.free hm).tail hne
    exact ⟨hs.1, Tail.of_free hs.2 hm⟩
  | some x =>
    cases x with
    | add c =>
      have ha := h.held_add hm
      have hrest : rest ≠ [] ∧ s.AddTail rest (s.add c) := by
        cases hpc : s.add c <;> rw [hpc] at ha
        case first_ptr => cases ha.2
        case first_tail =>
          obtain ⟨hptr, q, hone⟩ := ha
          cases hone
          exact absurd hptr hne
        case first_head =>
          obtain ⟨-, hptr, q, hone⟩ := ha
          cases hone
          exact absurd hptr hne
        case set_next =>
          have hs := ha.1.tail hne
          exact ⟨hs.1, hs.2, hs.1⟩
        case set_tail =>
          obtain ⟨hhead, init, b, q, n, hsplit, hptr⟩ := ha
          have hs := htwo hsplit hptr
          exact ⟨hs.1, hhead, hs.2⟩
        case set_ptr =>
          obtain ⟨htail, hhead, init, b, q, n, hsplit, hptr⟩ := ha
          have hs := htwo hsplit hptr
          exact ⟨hs.1, htail, hhead, hs.2⟩
        all_goals exact Steady.tail ha hne
      exact ⟨hrest.1, Tail.of_add hrest.2 hm⟩
    | task w =>
      have ha := h.held_task hm
      have hrest : rest ≠ [] ∧ s.TaskTail rest (s.tasks w).pc := by
        cases hpc : (s.tasks w).pc <;> rw [hpc] at ha
        case reset_ptr =>
          obtain ⟨hs, q, hone⟩ := ha
          cases hone
          exact absurd hs.m_tail_ptr hne
        case reset_tail => cases ha.2
        case reset_head => cases ha.2.2
        all_goals exact Steady.tail ha hne
      exact ⟨hrest.1, Tail.of_task hrest.2 hm⟩

/-- The task leaves its node for the next one, which there is if it has not reset the list. -/
theorem Holds.at_next {node : addr} {sptr : msg} (h : s.Holds done nodes)
    (hpc : (s.tasks u).pc = .at_next node sptr) :
    ∃ item done' nodes', s.heap node = some item ∧
      (s.set_task u (.at_delete node item.next)).Holds done' nodes' := by
  have hlocks : (s.tasks u).pc.locks = false := by rw [hpc]; rfl
  have hholder := h.not_holder (x := .task u) hlocks
  cases hreset : (s.tasks u).reset with
  | true =>
    have hleft : (s.tasks u).left = some node := by
      unfold task.left
      rw [hpc]
      simp [hreset]
    obtain ⟨⟨ptr, next⟩, hnode, hnext⟩ := h.content (.task u) node hleft
    obtain rfl : next = none := hnext hreset
    have g : Advances u { pc := .at_delete node none, reset := true } s
        (s.set_task u (.at_delete node none)) := by
      refine ⟨?_, rfl, rfl, rfl, rfl⟩
      rw [← hreset]
      rfl
    refine ⟨_, done, nodes, hnode, h.closes g hreset rfl rfl hleft.symm
      (h.mutex.keep hlocks.symm) ?_
      rfl rfl rfl fun _ => rfl⟩
    exact g.tail h.tail hholder rfl rfl rfl rfl
  | false =>
    obtain ⟨rest, hjob, rfl, -, hpasses, hchain, hcalls⟩ :=
      h.reading_of (a := node) (m := sptr) hreset (by rw [hpc]; rfl)
    rw [hpc] at hpasses
    obtain ⟨hne, htail⟩ := h.tail.tail hpasses
    obtain ⟨⟨b, n⟩, rest, rfl⟩ := List.exists_cons_of_ne_nil hne
    refine ⟨_, done ++ [sptr], (b, n) :: rest, hchain.head, ?_⟩
    change (s.set_task u (.at_delete node (some b))).Holds _ _
    have g := advances_set s u (.at_delete node (some b)) hreset
    refine ⟨g.mutex (h.mutex.keep hlocks.symm), g.apart h.apart.unlink,
      g.content h ?_ fun _ _ _ _ => rfl, g.closing h fun hr => Bool.noConfusion hr,
      g.unsubmitted h (by rw [hpc]; simp), ?_, g.tail htail hholder rfl rfl rfl rfl, ?_⟩
    · intro a ha
      cases ha
      refine ⟨_, hchain.head, ?_⟩
      rw [g.self]
      exact fun hr => Bool.noConfusion hr
    · change s.linked = _
      rw [h.linked]
      simp
    · refine .waiting (.task u) b n rest ?_ rfl ?_ hchain.tail ?_
      · rw [outstanding_task g]
        · exact hjob
        · simp [task.pending, hreset, hpc, cycle_pc.active]
      · rw [first_task, g.self]
        rfl
      · change s.calls = s.deliveries (done ++ [sptr])
        rw [deliveries_concat, hcalls]

/-- The node is nobody else's, so that it can be deleted. -/
theorem Holds.at_delete {node : addr} {next : Option addr} (h : s.Holds done nodes)
    (hpc : (s.tasks u).pc = .at_delete node next) :
    ((s.set_node node none).set_task u (.at_loop next)).Holds done nodes := by
  let t := (s.set_node node none).set_task u (.at_loop next)
  have g : Advances u { pc := .at_loop next, reset := (s.tasks u).reset } s t :=
    ⟨rfl, rfl, rfl, rfl, rfl⟩
  have hlocks : (s.tasks u).pc.locks = false := by rw [hpc]; rfl
  have hleft : s.owns (.task u) = some node := by
    simp only [owns, look, task.left, hpc]
  have hheap {a : addr} (ha : a ≠ node) : t.heap a = s.heap a := Function.update_of_ne ha _ _
  have hlisted (a : addr) (ha : a ∈ nodes.map Prod.fst) : t.heap a = s.heap a := by
    apply hheap
    rintro rfl
    exact h.apart.outside _ a hleft ha
  have hpending : task.pending { pc := .at_loop next, reset := (s.tasks u).reset } =
    (s.tasks u).pending := by
    simp [task.pending, hpc, cycle_pc.active]
  refine ⟨g.mutex (h.mutex.keep hlocks.symm), g.apart h.apart.drop, g.content h ?_ ?_,
    g.closing h ?_, g.unsubmitted h (by rw [hpc]; simp), h.linked, ?_, ?_⟩
  · intro a ha
    cases ha
  · intro x a hxu hx
    apply hheap
    rintro rfl
    exact hxu (h.apart.owner _ _ a hx hleft)
  · intro hr
    have hc := h.closing u hr
    rw [hpc] at hc
    cases next with
    | none => rfl
    | some b => cases hc
  · exact g.tail h.tail (h.not_holder (x := .task u) hlocks) rfl rfl rfl rfl
  · have hout := outstanding_task g hpending
    cases hreset : (s.tasks u).reset with
    | true =>
      have hother {x : party} (hx : s.outstanding x = true) : x ≠ .task u := by
        rintro rfl
        simp [outstanding, look, task.pending, hreset] at hx
      refine h.turn.same hout ?_ ?_ (fun _ _ _ _ hp => hp) hlisted rfl rfl
      · exact fun x a hx hf => g.first hf (hother hx) rfl
      · intro w hw
        rw [g.other]
        rintro rfl
        exact hother hw rfl
    | false =>
      obtain ⟨a, m, rest, hjob, hnodes, hfirst, hchain, hcalls⟩ :=
        h.waiting_of hreset (by rw [hpc]; rfl) (by rw [hpc]; rfl)
      refine .waiting (.task u) a m rest ?_ hnodes ?_ (chain_same hchain hnodes hlisted) hcalls
      · rwa [hout]
      · rw [hpc] at hfirst
        rw [first_task, g.self]
        exact hfirst

theorem Holds.cycle_events (h : s.Holds done nodes) (ht : s.cycle_events u = some t) :
    (∃ done' nodes', t.Holds done' nodes') ∧ t.add = s.add := by
  cases hpc : (s.tasks u).pc with
  | unsubmitted | finished | undefined =>
    simp only [loop.cycle_events, hpc] at ht
    cases ht
  | queued =>
    simp only [loop.cycle_events, hpc] at ht
    cases ht
    exact ⟨⟨done, nodes, h.queued hpc⟩, rfl⟩
  | at_head =>
    simp only [loop.cycle_events, hpc] at ht
    cases ht
    exact ⟨⟨done, nodes, h.at_head hpc⟩, rfl⟩
  | at_loop node =>
    cases node with
    | none =>
      simp only [loop.cycle_events, hpc] at ht
      cases ht
      exact ⟨⟨done, nodes, h.at_end hpc⟩, rfl⟩
    | some node =>
      obtain ⟨sptr, next, hnode, hnew⟩ := h.at_loop hpc
      simp only [loop.cycle_events, hpc, hnode] at ht
      cases ht
      exact ⟨⟨done, nodes, hnew⟩, rfl⟩
  | calling node sptr i =>
    simp only [loop.cycle_events, hpc] at ht
    obtain ⟨hnext, hlast⟩ := h.calling hpc
    split at ht
    · rename_i hi
      cases ht
      exact ⟨⟨done, nodes, hnext hi⟩, rfl⟩
    · rename_i hi
      cases ht
      exact ⟨⟨done, nodes, hlast hi⟩, rfl⟩
  | inside node sptr i =>
    simp only [loop.cycle_events, hpc] at ht
    split at ht
    · cases ht
      exact ⟨⟨done, nodes, h.inside hpc⟩, rfl⟩
    · cases ht
  | at_tail node sptr =>
    simp only [loop.cycle_events, hpc] at ht
    cases ht
    exact ⟨⟨done, nodes, h.at_tail hpc⟩, rfl⟩
  | at_lock node sptr =>
    simp only [loop.cycle_events, hpc] at ht
    split at ht
    · rename_i hm
      cases ht
      exact ⟨⟨done, nodes, h.task_lock hpc hm⟩, rfl⟩
    · cases ht
  | at_recheck node sptr =>
    simp only [loop.cycle_events, hpc] at ht
    cases ht
    exact ⟨⟨done, nodes, h.at_recheck hpc⟩, rfl⟩
  | reset_ptr node sptr =>
    simp only [loop.cycle_events, hpc] at ht
    cases ht
    exact ⟨⟨_, _, h.reset_ptr hpc⟩, rfl⟩
  | reset_tail node sptr =>
    simp only [loop.cycle_events, hpc] at ht
    cases ht
    exact ⟨⟨done, nodes, h.reset_tail hpc⟩, rfl⟩
  | reset_head node sptr =>
    simp only [loop.cycle_events, hpc] at ht
    cases ht
    exact ⟨⟨done, nodes, h.reset_head hpc⟩, rfl⟩
  | at_unlock node sptr =>
    simp only [loop.cycle_events, hpc] at ht
    cases ht
    exact ⟨⟨done, nodes, h.task_unlock hpc⟩, rfl⟩
  | at_next node sptr =>
    obtain ⟨item, done', nodes', hnode, hnew⟩ := h.at_next hpc
    simp only [loop.cycle_events, hpc, hnode] at ht
    cases ht
    exact ⟨⟨done', nodes', hnew⟩, rfl⟩
  | at_delete node next =>
    simp only [loop.cycle_events, hpc] at ht
    cases ht
    exact ⟨⟨done, nodes, h.at_delete hpc⟩, rfl⟩

end

end loop

end strangeio.event
