-- What the event loop delivers (events/loop.cpp): a list that has events has
-- one task, which calls each listener once for each event, in their order.
import StrangeIO.EventMessages

namespace strangeio.event.loop

section
variable {s t : loop} {done : List msg} {nodes : List (addr × msg)}

/-! ## The runs -/

/-- No call takes an event from the list. -/
theorem Holds.caller_act {a : action} (h : s.Holds done nodes) (ht : s.act a = some t)
    (hcycle : ∀ u, a ≠ .cycle_events u) : ∃ nodes', t.Holds done nodes' := by
  cases a with
  | add_event c => exact (h.add_event ht).1
  | cycle_events u => exact absurd rfl (hcycle u)
  | new_item c item =>
    refine ⟨nodes, ?_⟩
    simp only [loop.act, loop.new_item] at ht
    split at ht
    · rename_i message hpc
      split at ht
      · rename_i hfree
        cases ht
        exact h.new_item hpc hfree
      · cases ht
    · cases ht
  | call c type =>
    refine ⟨nodes, ?_⟩
    simp only [loop.act] at ht
    split at ht
    · rename_i hc
      cases ht
      have g : Goes c (.entered (type.map fun type => { id := s.made, type })) s
          { s.set_add c (.entered (type.map fun type => { id := s.made, type })) with
            made := s.made + 1 } := ⟨rfl, rfl, rfl, rfl, rfl, rfl, rfl⟩
      refine h.outside g ?_ rfl ?_ rfl ?_ rfl rfl rfl rfl
      · rw [hc.1]
        rfl
      · rw [hc.1]
        rfl
      · rw [hc.1]
        rfl
    · cases ht

theorem Holds.act {a : action} (h : s.Holds done nodes) (ht : s.act a = some t) :
    ∃ done' nodes', t.Holds done' nodes' := by
  by_cases hcycle : ∃ u, a = .cycle_events u
  · obtain ⟨u, rfl⟩ := hcycle
    exact (h.cycle_events ht).1
  · exact ⟨done, h.caller_act ht fun u hu => hcycle ⟨u, hu⟩⟩

/-- A pointer that is null or a node that is deleted is never followed. -/
def Defined (s : loop) : Prop := ∀ c, s.add c ≠ .undefined

theorem Defined.act {a : action} (h : s.Defined) (hs : s.Holds done nodes) (ht : s.act a = some t) :
    t.Defined := by
  intro d hd
  cases a with
  | add_event c => exact h d ((hs.add_event ht).2 d hd)
  | cycle_events u =>
    rw [(hs.cycle_events ht).2] at hd
    exact h d hd
  | new_item c item =>
    simp only [loop.act, loop.new_item] at ht
    split at ht
    · split at ht
      · cases ht
        by_cases hdc : d = c
        · subst hdc
          simp at hd
        · exact h d ((Function.update_of_ne hdc _ _).symm.trans hd)
      · cases ht
    · cases ht
  | call c type =>
    simp only [loop.act] at ht
    split at ht
    · cases ht
      by_cases hdc : d = c
      · subst hdc
        simp at hd
      · exact h d ((Function.update_of_ne hdc _ _).symm.trans hd)
    · cases ht

end

theorem reachable_holds {s : loop} (h : transition.Reachable loops s) :
    s.Named ∧ s.Accounted ∧ s.Defined ∧ ∃ done nodes, s.Holds done nodes := by
  refine h.keeps (P := fun s => s.Named ∧ s.Accounted ∧ s.Defined ∧
    ∃ done nodes, s.Holds done nodes) ?_ ?_
  · rintro s ⟨m, rfl⟩
    exact ⟨named_new m, fun n hn => (by cases hn), fun c hc => (by cases hc), [], [], holds_new m⟩
  · rintro s a t ⟨hnamed, hacc, hdefined, done, nodes, hs⟩ ha
    exact ⟨hnamed.act hs ha, hacc.act hs ha, hdefined.act hs ha, hs.act ha⟩

/-! ## What has been delivered -/

section
variable {s : loop} {done : List msg} {nodes : List (addr × msg)}

/-- The events that the listener has been called with. -/
def delivered_to (s : loop) (type : event_type) (i : Nat) : List msg :=
  (s.calls.filter fun call => call.1.type = type ∧ call.2 = i).map Prod.fst

/-- The events of a type, in the order in which they were linked in. -/
def linked_of (s : loop) (type : event_type) : List msg := s.linked.filter fun m => m.type = type

theorem calls_of_le (m : msg) {k n : Nat} (h : k ≤ n) : calls_of m k <+: calls_of m n := by
  have htake : List.range k = (List.range n).take k := by rw [List.take_range, Nat.min_eq_left h]
  unfold calls_of
  rw [htake]
  exact (List.take_prefix _ _).map _

theorem deliveries_append (events rest : List msg) :
    s.deliveries (events ++ rest) = s.deliveries events ++ s.deliveries rest := List.flatMap_append

/-- What has been delivered is what is to be delivered, up to some call. -/
theorem Holds.calls_so_far (h : s.Holds done nodes) : s.calls <+: s.deliveries s.linked := by
  rw [h.linked, deliveries_append]
  cases h.turn with
  | idle hjob hnodes hcalls =>
    rw [hcalls]
    exact List.prefix_append _ _
  | waiting x a m rest hjob hnodes hfirst hchain hcalls =>
    rw [hcalls]
    exact List.prefix_append _ _
  | reading u a m rest k hjob hnodes hreads hk hpasses hchain hcalls =>
    rw [hcalls, hnodes]
    apply (List.prefix_append_right_inj _).mpr
    exact (calls_of_le m hk).trans (List.prefix_append _ _)

/-- The pointer that is tested without the mutex is null just when the list is empty. -/
theorem Holds.ptr_eq_none (h : s.Holds done nodes) : s.m_tail_ptr = none ↔ nodes = [] := by
  have hsteady (hs : s.Steady nodes) : s.m_tail_ptr = none ↔ nodes = [] := by
    rw [hs.m_tail_ptr, Option.map_eq_none_iff, List.getLast?_eq_none_iff]
  cases hm : s.m_tail_mutex with
  | none => exact hsteady (h.tail.free hm)
  | some x =>
    cases x with
    | add c =>
      have ha := h.tail.held_add hm
      cases hpc : s.add c <;> rw [hpc] at ha
      case first_ptr => exact hsteady ha.1
      case set_next => exact hsteady ha.1
      case first_tail =>
        obtain ⟨hptr, m, rfl⟩ := ha
        simp [hptr]
      case first_head =>
        obtain ⟨-, hptr, m, rfl⟩ := ha
        simp [hptr]
      case set_tail =>
        obtain ⟨-, init, b, m, n, rfl, hptr⟩ := ha
        simp [hptr]
      case set_ptr =>
        obtain ⟨-, -, init, b, m, n, rfl, hptr⟩ := ha
        simp [hptr]
      all_goals exact hsteady ha
    | task u =>
      have ha := h.tail.held_task hm
      cases hpc : (s.tasks u).pc <;> rw [hpc] at ha
      case reset_ptr => exact hsteady ha.1
      case reset_tail =>
        obtain ⟨hptr, rfl⟩ := ha
        simp [hptr]
      case reset_head =>
        obtain ⟨-, hptr, rfl⟩ := ha
        simp [hptr]
      all_goals exact hsteady ha

theorem Turn.job (h : s.Turn done nodes) :
    ∃ job, shared.Sole job s.outstanding ∧ (job = none ↔ nodes = []) := by
  cases h with
  | idle hjob hnodes => exact ⟨none, hjob, by simp [hnodes]⟩
  | waiting x a m rest hjob hnodes => exact ⟨some x, hjob, by simp [hnodes]⟩
  | reading u a m rest k hjob hnodes => exact ⟨some (.task u), hjob, by simp [hnodes]⟩

theorem Holds.calls_of_empty (h : s.Holds done nodes) (hptr : s.m_tail_ptr = none) :
    s.calls = s.deliveries s.linked := by
  have hnodes := h.ptr_eq_none.mp hptr
  subst hnodes
  rw [h.linked]
  cases h.turn with
  | idle hjob _ hcalls => simp [hcalls]
  | waiting x a m rest hjob hnodes => cases hnodes
  | reading u a m rest k hjob hnodes => cases hnodes

/-- A task in a listener, or between two of them, has not begun to reset the list. -/
theorem Holds.outstanding_of_delivers (h : s.Holds done nodes) {u : Nat}
    (hu : (s.tasks u).pc.delivers = true) : s.outstanding (.task u) = true := by
  apply pending_of
  · apply h.not_reset
    cases hpc : (s.tasks u).pc <;> rw [hpc] at hu <;> first | rfl | cases hu
  · cases hpc : (s.tasks u).pc <;> rw [hpc] at hu <;> first | rfl | cases hu

/-! ## What is to be delivered -/

theorem mem_calls_of {m : msg} {k : Nat} {call : msg × Nat} :
    call ∈ calls_of m k ↔ call.1 = m ∧ call.2 < k := by
  obtain ⟨n, i⟩ := call
  simp only [calls_of, List.mem_map, List.mem_range, Prod.mk.injEq]
  constructor
  · rintro ⟨j, hj, rfl, rfl⟩
    exact ⟨rfl, hj⟩
  · rintro ⟨rfl, hi⟩
    exact ⟨i, hi, rfl, rfl⟩

theorem mem_deliveries {events : List msg} {call : msg × Nat} :
    call ∈ s.deliveries events ↔ call.1 ∈ events ∧ call.2 < s.listeners call.1.type := by
  simp only [deliveries, List.mem_flatMap, mem_calls_of]
  constructor
  · rintro ⟨m, hm, rfl, hi⟩
    exact ⟨hm, hi⟩
  · rintro ⟨hm, hi⟩
    exact ⟨call.1, hm, rfl, hi⟩

theorem nodup_calls_of (m : msg) (k : Nat) : (calls_of m k).Nodup :=
  List.nodup_range.map fun _ _ h => (Prod.mk.inj h).2

theorem nodup_deliveries {events : List msg} (h : events.Nodup) : (s.deliveries events).Nodup := by
  apply List.nodup_flatMap.mpr
  refine ⟨fun m _ => nodup_calls_of m _, h.imp ?_⟩
  intro m n hmn call hm hn
  exact hmn ((mem_calls_of.mp hm).1.symm.trans (mem_calls_of.mp hn).1)

/-- Of the calls for one event a listener has its own one, if it is for events of that type. -/
theorem filter_calls_of (m : msg) {type : event_type} {i k : Nat} (hi : m.type = type → i < k) :
    ((calls_of m k).filter fun call => call.1.type = type ∧ call.2 = i).map Prod.fst =
      if m.type = type then [m] else [] := by
  have hfilter : (calls_of m k).filter (fun call => call.1.type = type ∧ call.2 = i) =
      ((List.range k).filter fun j => m.type = type ∧ j = i).map fun j => (m, j) := by
    simp [calls_of, List.filter_map, Function.comp_def]
  rw [hfilter]
  split
  · rename_i htype
    have hone : (List.range k).filter (fun j => m.type = type ∧ j = i) = [i] := by
      have hcount : List.count i (List.range k) = 1 :=
        List.count_eq_one_of_mem List.nodup_range (List.mem_range.mpr (hi htype))
      have heq : (List.range k).filter (fun j => j = i) = List.replicate
        (List.count i (List.range k)) i :=
        List.filter_eq i
      rw [hcount] at heq
      simpa [htype] using heq
    rw [hone]
    rfl
  · rename_i htype
    simp [htype]

theorem filter_deliveries (events : List msg) {type : event_type} {i : Nat}
    (hi : i < s.listeners type) :
    ((s.deliveries events).filter fun call => call.1.type = type ∧ call.2 = i).map Prod.fst =
      events.filter fun m => m.type = type := by
  induction events with
  | nil => rfl
  | cons m events ih =>
    have hcons : s.deliveries (m :: events) =
        calls_of m (s.listeners m.type) ++ s.deliveries events := by
      simp [deliveries]
    have hm : ((calls_of m (s.listeners m.type)).filter fun call => call.1.type = type ∧
      call.2 = i).map
        Prod.fst = if m.type = type then [m] else [] := filter_calls_of m fun h => h ▸ hi
    rw [hcons, List.filter_append, List.map_append, hm, ih]
    by_cases htype : m.type = type
    · simp [htype]
    · simp [htype]

end

/-- No call and no task follows a null pointer or touches a node that is deleted. -/
theorem no_step_is_undefined {s : loop} (h : transition.Reachable loops s) :
    (∀ c, s.add c ≠ .undefined) ∧ ∀ u, (s.tasks u).pc ≠ .undefined := by
  obtain ⟨-, -, hdefined, done, nodes, hs⟩ := reachable_holds h
  refine ⟨hdefined, ?_⟩
  intro u hu
  have hreset := hs.not_reset (u := u) (by rw [hu]; rfl)
  obtain ⟨a, m, rest, -, -, hfirst, -⟩ := hs.waiting_of hreset (by rw [hu]; rfl) (by rw [hu]; rfl)
  rw [hu] at hfirst
  exact hfirst

/-- The list has an event just when one party is to go on with it, and with the
mutex free its three pointers agree. Each listener is called with the events of
its type in the order in which they were linked in, with each once and by one
task at a time. When the list is empty it has been called with all of them, and
an event that was accepted is among them unless a call has yet to link it in. -/
theorem each_event_is_delivered_once_in_order {s : loop} (h : transition.Reachable loops s) :
    (s.m_tail_ptr ≠ none ↔ ∃! x, s.outstanding x = true) ∧
    (s.m_tail_ptr = none → ∀ x, s.outstanding x = false) ∧
    (s.m_tail_mutex = none →
      (s.m_head = none ↔ s.m_tail_ptr = none) ∧ s.m_tail = s.m_tail_ptr) ∧
    s.linked.Nodup ∧ s.calls.Nodup ∧
    (∀ call ∈ s.calls, call.1 ∈ s.linked ∧ call.2 < s.listeners call.1.type) ∧
    (∀ type i, i < s.listeners type → s.delivered_to type i <+: s.linked_of type) ∧
    (∀ t u, (s.tasks t).pc.delivers = true → (s.tasks u).pc.delivers = true → t = u) ∧
    (s.m_tail_ptr = none →
      (∀ type i, i < s.listeners type → s.delivered_to type i = s.linked_of type) ∧
      ∀ m ∈ s.accepted, (∀ c, s.message c ≠ some m) →
        ∀ i, i < s.listeners m.type → s.calls.count (m, i) = 1) := by
  obtain ⟨hnamed, hacc, -, done, nodes, hs⟩ := reachable_holds h
  obtain ⟨job, hjob, hempty⟩ := hs.turn.job
  have hlinked : s.linked.Nodup := hnamed.apart.nodup.of_map
  have hcalls : s.calls.Nodup := (nodup_deliveries hlinked).sublist hs.calls_so_far.sublist
  refine ⟨?_, ?_, ?_, hlinked, hcalls, ?_, ?_, ?_, ?_⟩
  · rw [hjob.existsUnique_iff, Option.isSome_iff_ne_none]
    exact not_congr (hs.ptr_eq_none.trans hempty.symm)
  · intro hptr
    obtain rfl := hempty.mpr (hs.ptr_eq_none.mp hptr)
    exact hjob.nobody
  · intro hm
    have hsteady := hs.tail.free hm
    exact ⟨hsteady.m_head.trans hs.ptr_eq_none.symm, hsteady.m_tail.trans hsteady.m_tail_ptr.symm⟩
  · exact fun call hcall => mem_deliveries.mp (hs.calls_so_far.subset hcall)
  · intro type i hi
    have hfront := (hs.calls_so_far.filter fun call => call.1.type = type ∧ call.2 = i).map Prod.fst
    rwa [filter_deliveries _ hi] at hfront
  · intro t u ht hu
    obtain rfl := hjob.holder_eq (hs.outstanding_of_delivers ht)
    cases hjob.eq (hs.outstanding_of_delivers hu)
    rfl
  · intro hptr
    have hall := hs.calls_of_empty hptr
    constructor
    · intro type i hi
      unfold delivered_to linked_of
      rw [hall]
      exact filter_deliveries _ hi
    · intro m hm hnone i hi
      have hin : m ∈ s.linked := by
        rcases hacc m hm with hin | ⟨c, hc, -⟩
        · exact hin
        · exact absurd hc (hnone c)
      apply List.count_eq_one_of_mem hcalls
      rw [hall]
      exact mem_deliveries.mpr ⟨hin, hi⟩

/-- A listener adds an event, and a producer adds one between the two tests of the tail. -/
def overlapping_events : List action :=
  List.flatten
    [[.call (.producer 0) (some 7)], List.replicate 2 (.add_event (.producer 0)),
      [.new_item (.producer 0) 100], List.replicate 7 (.add_event (.producer 0)),
      List.replicate 4 (.cycle_events 0),
      [.call (.listener 0) (some 7)], List.replicate 2 (.add_event (.listener 0)),
      [.new_item (.listener 0) 101], List.replicate 7 (.add_event (.listener 0)),
      List.replicate 14 (.cycle_events 0),
      [.call (.producer 1) (some 7)], List.replicate 2 (.add_event (.producer 1)),
      [.new_item (.producer 1) 100], List.replicate 7 (.add_event (.producer 1)),
      List.replicate 21 (.cycle_events 0)]

theorem overlapping_events_are_delivered :
    ∃ s : loop, (s.m_tail_ptr = none ∧ s.linked.map msg.id = [0, 1, 2] ∧ s.listeners 7 = 2 ∧
      (s.tasks 0).pc = .finished) ∧ s.delivered_to 7 1 = s.linked_of 7 := by
  have hrun : ∃ s, transition.Reachable loops s ∧ (s.m_tail_ptr = none ∧
      s.linked.map msg.id = [0, 1, 2] ∧ s.listeners 7 = 2 ∧ (s.tasks 0).pc = .finished) :=
    transition.Reachable.machine (new [(7, [0, 1])]) ⟨_, rfl⟩ overlapping_events (by decide +kernel)
  obtain ⟨s, hs, hq⟩ := hrun
  refine ⟨s, hq, ?_⟩
  obtain ⟨hptr, -, hl, -⟩ := hq
  have hall := (each_event_is_delivered_once_in_order hs).2.2.2.2.2.2.2.2 hptr
  exact hall.1 7 1 (by omega)

end strangeio.event.loop
