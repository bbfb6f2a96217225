-- The messages of the event loop (events/loop.cpp): each is in the hand of one
-- call, or in its node, or linked in once, and none that was accepted is lost.
import StrangeIO.EventCycle

namespace strangeio.event.loop

/-! ## The messages -/

/-- The message that a call has yet to link in, in its hand or in its node. -/
def pending_message (s : loop) : add_pc → Option msg
  | .entered message => message
  | .at_listeners message | .at_new message => some message
  | pc => pc.item.bind s.carried

def message (s : loop) (c : caller) : Option msg := s.pending_message (s.add c)

/-- The call has accepted its message, and has yet to link it in. -/
def accepting (s : loop) (c : caller) : Bool :=
  match s.add c with
  | .at_new _ | .at_lock _ | .at_test _ | .first_ptr _ | .set_next _ => true
  | _ => false

def names (s : loop) (c : caller) : Option Nat := (s.message c).map msg.id

/-- No two messages are one: not two that are linked in, and not one that is yet to be. -/
structure Named (s : loop) : Prop where
  apart : shared.Apart s.names (s.linked.map msg.id)
  held : ∀ c i, s.names c = some i → i < s.made
  linked : ∀ i ∈ s.linked.map msg.id, i < s.made

theorem named_new (m : listener_map) : (new m).Named where
  apart :=
    { owner := fun _ _ _ h => (by cases h)
      outside := fun _ _ h => (by cases h)
      nodup := List.nodup_nil }
  held _ _ h := by cases h
  linked _ h := by cases h

section
variable {s t : loop} {done : List msg} {nodes : List (addr × msg)} {c : caller} {u : Nat}

@[simp] theorem set_add_self (s : loop) (c : caller) (pc : add_pc) : (s.set_add c pc).add c = pc :=
  Function.update_self _ _ _

theorem message_same {d : caller} (hadd : t.add d = s.add d)
    (hheap : ∀ a, (s.add d).item = some a → t.heap a = s.heap a) : t.message d = s.message d := by
  have hitem : (s.add d).item.bind t.carried = (s.add d).item.bind s.carried := by
    cases hi : (s.add d).item with
    | none => rfl
    | some a =>
      change t.carried a = s.carried a
      unfold carried
      rw [hheap a hi]
  unfold message
  rw [hadd]
  cases hpc : s.add d <;> rw [hpc] at hitem <;> first | rfl | exact hitem

/-- No task touches a node that is yet to be linked in. -/
theorem Holds.cycle_message (h : s.Holds done nodes) (ht : s.cycle_events u = some t) (d : caller) :
    t.message d = s.message d := by
  have hadd := (h.cycle_events ht).2
  refine message_same (by rw [hadd]) ?_
  intro a ha
  have hown : s.owns (.add d) = some a := ha
  cases hpc : (s.tasks u).pc <;> simp only [loop.cycle_events, hpc] at ht
  case at_delete node next =>
    cases ht
    apply Function.update_of_ne
    rintro rfl
    have hleft : s.owns (.task u) = some a := by simp only [owns, look, task.left, hpc]
    cases h.apart.owner _ _ a hown hleft
  case at_loop node =>
    cases node with
    | none =>
      cases ht
      rfl
    | some b =>
      have hreset := h.not_reset (u := u) (by rw [hpc]; rfl)
      obtain ⟨b, m, rest, -, rfl, hfirst, hchain, -⟩ :=
        h.waiting_of hreset (by rw [hpc]; rfl) (by rw [hpc]; rfl)
      rw [hpc] at hfirst
      cases hfirst
      simp only [hchain.head] at ht
      cases ht
      apply Function.update_of_ne
      rintro rfl
      exact h.apart.outside _ a hown List.mem_cons_self
  all_goals
    first
    | cases ht; rfl
    | split at ht <;> first | (cases ht; rfl) | cases ht
    | cases ht

theorem add_other (ht : s.add_event c = some t) (d : caller) (hd : d ≠ c) : t.add d = s.add d := by
  have hother (pc : add_pc) : Function.update s.add c pc d = s.add d := Function.update_of_ne hd _ _
  cases hpc : s.add c <;> simp only [loop.add_event, hpc] at ht
  case set_next item =>
    split at ht
    · cases ht
      exact hother _
    · split at ht
      · cases ht
        exact hother _
      · cases ht
        exact hother _
  case at_task retask =>
    cases retask
    · cases ht
      exact hother _
    · cases ht
      exact hother _
  case entered message =>
    cases message
    · cases ht
      exact hother _
    · cases ht
      exact hother _
  all_goals
    first
    | cases ht; exact hother _
    | split at ht <;> first | (cases ht; exact hother _) | cases ht
    | cases ht

/-- A step of one call leaves the nodes of the other calls alone. -/
theorem Holds.add_message (h : s.Holds done nodes) (ht : s.add_event c = some t) {d : caller}
    (hd : d ≠ c) : t.message d = s.message d := by
  refine message_same (add_other ht d hd) fun a ha => ?_
  cases hpc : s.add c <;> simp only [loop.add_event, hpc] at ht
  case set_next item =>
    obtain ⟨last, node, m, hlast, hnode, hmem, -⟩ := h.set_next hpc
    simp only [hlast, hnode] at ht
    cases ht
    apply Function.update_of_ne
    rintro rfl
    exact h.apart.outside (.add d) a ha hmem
  case at_task retask => cases retask <;> cases ht <;> rfl
  case entered message => cases message <;> cases ht <;> rfl
  all_goals
    first
    | cases ht; rfl
    | split at ht <;> first | (cases ht; rfl) | cases ht
    | cases ht

theorem Holds.new_item_message {item : addr} (h : s.Holds done nodes)
    (ht : s.new_item c item = some t)
    (d : caller) : t.message d = s.message d := by
  cases hpc : s.add c <;> simp only [loop.new_item, hpc] at ht
  case at_new message =>
    split at ht
    · rename_i hfree
      cases ht
      by_cases hd : d = c
      · subst hd
        have hnew : ((s.set_node item (some { ptr := some message, next := none })).set_add d
            (.at_lock item)).add d = .at_lock item := Function.update_self _ _ _
        have hnode : ((s.set_node item (some { ptr := some message, next := none })).set_add d
            (.at_lock item)).heap item = some { ptr := some message, next := none } :=
          Function.update_self _ _ _
        simp only [loop.message, pending_message, hnew, hpc, add_pc.item, Option.bind_some,
          carried, hnode]
      · refine message_same (Function.update_of_ne hd _ _) fun a ha => ?_
        apply Function.update_of_ne
        rintro rfl
        obtain ⟨node, hnode⟩ := h.owned_live (x := .add d) ha
        rw [hfree] at hnode
        cases hnode
    · cases ht
  all_goals cases ht

theorem names_same (h : ∀ d, t.message d = s.message d) : t.names = s.names := by
  funext d
  exact congrArg (Option.map msg.id) (h d)

theorem names_update (h : ∀ d, d ≠ c → t.message d = s.message d) :
    t.names = Function.update s.names c (t.names c) := by
  funext d
  by_cases hd : d = c
  · subst hd
    rw [Function.update_self]
  · rw [Function.update_of_ne hd]
    exact congrArg (Option.map msg.id) (h d hd)

theorem Named.mono (h : s.Named) (hnames : t.names = s.names) (hlinked : t.linked = s.linked)
    (hmade : t.made = s.made) : t.Named := by
  constructor
  · rw [hnames, hlinked]
    exact h.apart
  · rw [hnames, hmade]
    exact h.held
  · rw [hlinked, hmade]
    exact h.linked

/-- What a step of a call does with its message: it keeps it, accepts it, drops it or links
it in. -/
inductive Handled (c : caller) (s t : loop) : Prop
  | keep (hlinked : t.linked = s.linked) (haccepted : t.accepted = s.accepted)
      (hmessage : t.message c = s.message c) (haccepting : t.accepting c = s.accepting c)
  | accept (m : msg) (hlinked : t.linked = s.linked) (haccepted : t.accepted = s.accepted ++ [m])
      (hm : s.message c = some m) (hmessage : t.message c = some m)
      (hbefore : s.accepting c = false) (haccepting : t.accepting c = true)
  | drop (hlinked : t.linked = s.linked) (haccepted : t.accepted = s.accepted)
      (hmessage : t.message c = none) (hbefore : s.accepting c = false)
  | link (m : msg) (hlinked : t.linked = s.linked ++ [m]) (haccepted : t.accepted = s.accepted)
      (hm : s.message c = some m) (hmessage : t.message c = none)

theorem Holds.handled (h : s.Holds done nodes) (ht : s.add_event c = some t) :
    t.made = s.made ∧ Handled c s t := by
  cases hpc : s.add c with
  | idle | at_new message | undefined =>
    simp only [loop.add_event, hpc] at ht
    cases ht
  | entered message =>
    cases message with
    | none =>
      simp only [loop.add_event, hpc] at ht
      cases ht
      refine ⟨rfl, .drop rfl rfl ?_ ?_⟩
      · simp [message, pending_message, add_pc.item]
      · simp [accepting, hpc]
    | some message =>
      simp only [loop.add_event, hpc] at ht
      cases ht
      refine ⟨rfl, .keep rfl rfl ?_ ?_⟩
      · simp [loop.message, pending_message, hpc]
      · simp [accepting, hpc]
  | at_listeners message =>
    simp only [loop.add_event, hpc] at ht
    split at ht
    · cases ht
      refine ⟨rfl, .drop rfl rfl ?_ ?_⟩
      · simp [loop.message, pending_message, add_pc.item]
      · simp [accepting, hpc]
    · cases ht
      refine ⟨rfl, .accept message rfl rfl ?_ ?_ ?_ ?_⟩
      · simp [loop.message, pending_message, hpc]
      · simp [loop.message, pending_message]
      · simp [accepting, hpc]
      · simp [accepting]
  | at_lock item =>
    simp only [loop.add_event, hpc] at ht
    split at ht
    · cases ht
      refine ⟨rfl, .keep rfl rfl ?_ ?_⟩
      · simp [message, pending_message, hpc, add_pc.item, carried, set_add]
      · simp [accepting, hpc]
    · cases ht
  | at_test item =>
    simp only [loop.add_event, hpc] at ht
    cases ht
    refine ⟨rfl, .keep rfl rfl ?_ ?_⟩
    · split <;> simp [message, pending_message, hpc, add_pc.item, carried, set_add]
    · split <;> simp [accepting, hpc]
  | first_ptr item =>
    obtain ⟨m, hitem⟩ := h.content (.add c) item (by simp only [owns, look, hpc]; rfl)
    simp only [loop.add_event, hpc] at ht
    cases ht
    refine ⟨rfl, .link m ?_ rfl ?_ ?_⟩
    · simp [carried, hitem]
    · simp [message, pending_message, hpc, add_pc.item, carried, hitem]
    · simp [message, pending_message, add_pc.item]
  | set_next item =>
    obtain ⟨last, node, -, hlast, hnode, -⟩ := h.set_next hpc
    obtain ⟨m, hitem⟩ := h.content (.add c) item (by simp only [owns, look, hpc]; rfl)
    simp only [loop.add_event, hpc, hlast, hnode] at ht
    cases ht
    refine ⟨rfl, .link m ?_ rfl ?_ ?_⟩
    · simp [carried, hitem]
    · simp [message, pending_message, hpc, add_pc.item, carried, hitem]
    · simp [message, pending_message, add_pc.item]
  | at_task retask =>
    simp only [loop.add_event, hpc] at ht
    cases ht
    cases retask with
    | true =>
      refine ⟨rfl, .drop rfl rfl ?_ ?_⟩
      · simp [message, pending_message, add_pc.item]
      · simp [accepting, hpc]
    | false =>
      refine ⟨rfl, .drop rfl rfl ?_ ?_⟩
      · simp [message, pending_message, add_pc.item]
      · simp [accepting, hpc]
  | first_tail item | first_head item | set_tail item | set_ptr item | at_unlock retask =>
    simp only [loop.add_event, hpc] at ht
    cases ht
    refine ⟨rfl, .drop rfl rfl ?_ ?_⟩
    · simp [message, pending_message, add_pc.item]
    · simp [accepting, hpc]

theorem held_update (hmade : t.made = s.made) (hmessage : ∀ d, d ≠ c → t.message d = s.message d)
    (hself : t.names c = s.names c ∨ t.names c = none) (h : ∀ d i, s.names d = some i → i < s.made)
    (d : caller) (i : Nat) (hi : t.names d = some i) : i < t.made := by
  rw [hmade]
  apply h d i
  by_cases hd : d = c
  · subst hd
    rcases hself with hsame | hnone
    · rwa [← hsame]
    · rw [hnone] at hi
      cases hi
  · rwa [names_update hmessage, Function.update_of_ne hd] at hi

theorem Named.add_event (h : s.Named) (hs : s.Holds done nodes) (ht : s.add_event c = some t) :
    t.Named := by
  have hmessage : ∀ d, d ≠ c → t.message d = s.message d := fun d hd => hs.add_message ht hd
  have hnames := names_update hmessage
  obtain ⟨hmade, hhandled⟩ := hs.handled ht
  have hsame (hlinked : t.linked = s.linked) (hself : t.message c = s.message c) : t.Named := by
    apply h.mono _ hlinked hmade
    apply names_same
    intro d
    by_cases hd : d = c
    · rwa [hd]
    · exact hmessage d hd
  cases hhandled with
  | keep hlinked _ hself _ => exact hsame hlinked hself
  | accept m hlinked _ hm hself _ _ => exact hsame hlinked (hself.trans hm.symm)
  | drop hlinked _ hself _ =>
    have hnone : t.names c = none := congrArg (Option.map msg.id) hself
    refine ⟨?_, held_update hmade hmessage (.inr hnone) h.held, ?_⟩
    · rw [hnames, hlinked, hnone]
      exact h.apart.drop
    · rw [hlinked, hmade]
      exact h.linked
  | link m hlinked _ hm hself =>
    have hnone : t.names c = none := congrArg (Option.map msg.id) hself
    have hid : s.names c = some m.id := congrArg (Option.map msg.id) hm
    refine ⟨?_, held_update hmade hmessage (.inr hnone) h.held, ?_⟩
    · rw [hnames, hlinked, hnone, List.map_append]
      exact h.apart.link hid
    · intro i hi
      rw [hmade]
      rw [hlinked, List.map_append, List.mem_append] at hi
      rcases hi with hi | hi
      · exact h.linked i hi
      · rw [List.map_singleton, List.mem_singleton] at hi
        rw [hi]
        exact h.held c _ hid

theorem cycle_kept (ht : s.cycle_events u = some t) :
    t.linked = s.linked ∧ t.made = s.made ∧ t.accepted = s.accepted := by
  unfold loop.cycle_events at ht
  split at ht
  all_goals
    first
    | cases ht; exact ⟨rfl, rfl, rfl⟩
    | split at ht <;> first | (cases ht; exact ⟨rfl, rfl, rfl⟩) | cases ht
    | cases ht

theorem new_item_kept {item : addr} (ht : s.new_item c item = some t) :
    t.linked = s.linked ∧ t.made = s.made ∧ t.accepted = s.accepted := by
  unfold loop.new_item at ht
  split at ht
  · split at ht
    · cases ht
      exact ⟨rfl, rfl, rfl⟩
    · cases ht
  · cases ht

/-- A new message is not one that there was before. -/
theorem Named.call {type : Option event_type} (h : s.Named) :
    { s.set_add c (.entered (type.map fun type => { id := s.made, type })) with
      made := s.made + 1 }.Named := by
  let t := { s.set_add c (.entered (type.map fun type => { id := s.made, type })) with
    made := s.made + 1 }
  have hadd : t.add = Function.update s.add c
    (.entered (type.map fun type => { id := s.made, type })) :=
    rfl
  have hself : t.names c = type.map fun _ => s.made := by
    unfold names message
    rw [hadd, Function.update_self]
    cases type <;> rfl
  have hnames : t.names = Function.update s.names c (type.map fun _ => s.made) := by
    rw [← hself]
    apply names_update
    intro d hd
    refine message_same (s := s) (t := t) ?_ fun _ _ => rfl
    rw [hadd, Function.update_of_ne hd]
  constructor
  · rw [hnames]
    cases type with
    | none => exact h.apart.drop
    | some type =>
      refine h.apart.take ?_ ?_
      · intro d hd
        exact Nat.lt_irrefl _ (h.held d _ hd)
      · intro hmem
        exact Nat.lt_irrefl _ (h.linked _ hmem)
  · intro d i hi
    change i < s.made + 1
    by_cases hd : d = c
    · subst hd
      cases type with
      | none =>
        rw [hself] at hi
        cases hi
      | some type =>
        rw [hself] at hi
        cases hi
        exact Nat.lt_succ_self _
    · rw [hnames, Function.update_of_ne hd] at hi
      exact Nat.lt_succ_of_lt (h.held d i hi)
  · exact fun i hi => Nat.lt_succ_of_lt (h.linked i hi)

theorem Named.act {a : action} (h : s.Named) (hs : s.Holds done nodes) (ht : s.act a = some t) :
    t.Named := by
  cases a with
  | add_event c => exact h.add_event hs ht
  | cycle_events u =>
    obtain ⟨hlinked, hmade, -⟩ := cycle_kept ht
    exact h.mono (names_same (hs.cycle_message ht)) hlinked hmade
  | new_item c item =>
    obtain ⟨hlinked, hmade, -⟩ := new_item_kept ht
    exact h.mono (names_same (hs.new_item_message ht)) hlinked hmade
  | call c type =>
    simp only [loop.act] at ht
    split at ht
    · cases ht
      exact h.call
    · cases ht

/-! ## No message is lost -/

/-- An event that was accepted is linked in, or is the message of a call that will link it in. -/
def Accounted (s : loop) : Prop :=
  ∀ m ∈ s.accepted, m ∈ s.linked ∨ ∃ c, s.message c = some m ∧ s.accepting c = true

/-- Only the call of the step may account for less than before, or for one event more. -/
theorem Accounted.update (h : s.Accounted) (hadd : ∀ d, d ≠ c → t.add d = s.add d)
    (hmessage : ∀ d, d ≠ c → t.message d = s.message d)
    (haccepted : ∀ m ∈ t.accepted, m ∈ s.accepted ∨ t.message c = some m ∧ t.accepting c = true)
    (hlinked : ∀ m ∈ s.linked, m ∈ t.linked)
    (hself : ∀ m, s.message c = some m → s.accepting c = true →
      m ∈ t.linked ∨ t.message c = some m ∧ t.accepting c = true) : t.Accounted := by
  intro m hm
  rcases haccepted m hm with hm | hm
  · rcases h m hm with hm | ⟨d, hd, hacc⟩
    · exact .inl (hlinked m hm)
    · by_cases hdc : d = c
      · subst hdc
        exact (hself m hd hacc).imp_right fun hs => ⟨d, hs⟩
      · refine .inr ⟨d, (hmessage d hdc).trans hd, ?_⟩
        unfold accepting
        rw [hadd d hdc]
        exact hacc
  · exact .inr ⟨c, hm⟩

theorem Accounted.add_event (h : s.Accounted) (hs : s.Holds done nodes)
    (ht : s.add_event c = some t) : t.Accounted := by
  have hmessage : ∀ d, d ≠ c → t.message d = s.message d := fun d hd => hs.add_message ht hd
  have hadd := add_other ht
  cases (hs.handled ht).2 with
  | keep hlinked haccepted hself haccepting =>
    refine h.update hadd hmessage (fun m hm => .inl (haccepted ▸ hm)) (fun m hm => hlinked ▸ hm) ?_
    exact fun m hm hacc => .inr ⟨hself.trans hm, haccepting.trans hacc⟩
  | accept n hlinked haccepted _ hself hbefore haccepting =>
    refine h.update hadd hmessage ?_ (fun m hm => hlinked ▸ hm) ?_
    · intro m hm
      rw [haccepted, List.mem_append, List.mem_singleton] at hm
      rcases hm with hm | rfl
      · exact .inl hm
      · exact .inr ⟨hself, haccepting⟩
    · intro m _ hacc
      rw [hbefore] at hacc
      cases hacc
  | drop hlinked haccepted _ hbefore =>
    refine h.update hadd hmessage (fun m hm => .inl (haccepted ▸ hm)) (fun m hm => hlinked ▸ hm) ?_
    intro m _ hacc
    rw [hbefore] at hacc
    cases hacc
  | link n hlinked haccepted hn _ =>
    refine h.update hadd hmessage (fun m hm => .inl (haccepted ▸ hm)) ?_ ?_
    · intro m hm
      rw [hlinked]
      exact List.mem_append_left _ hm
    · intro m hm _
      left
      rw [hn] at hm
      cases hm
      rw [hlinked]
      exact List.mem_append_right _ (List.mem_singleton_self _)

theorem Accounted.act {a : action} (h : s.Accounted) (hs : s.Holds done nodes)
    (ht : s.act a = some t) :
    t.Accounted := by
  cases a with
  | add_event c => exact h.add_event hs ht
  | cycle_events u =>
    obtain ⟨hlinked, -, haccepted⟩ := cycle_kept ht
    have hadd := (hs.cycle_events ht).2
    intro m hm
    rw [haccepted] at hm
    rw [hlinked]
    refine (h m hm).imp_right ?_
    rintro ⟨d, hd, hacc⟩
    refine ⟨d, (hs.cycle_message ht d).trans hd, ?_⟩
    unfold accepting
    rw [hadd]
    exact hacc
  | new_item c item =>
    obtain ⟨hlinked, -, haccepted⟩ := new_item_kept ht
    have hmessage := hs.new_item_message ht
    simp only [loop.act, loop.new_item] at ht
    split at ht
    · split at ht
      · cases ht
        refine h.update (c := c) (fun d hd => Function.update_of_ne hd _ _) (fun d _ => hmessage d)
          (fun _ hm => .inl hm) (fun _ hm => hm) ?_
        intro m hm _
        right
        refine ⟨(hmessage c).trans hm, ?_⟩
        simp [accepting]
      · cases ht
    · cases ht
  | call c type =>
    simp only [loop.act] at ht
    split at ht
    · rename_i hc
      cases ht
      refine h.update (c := c) (fun d hd => Function.update_of_ne hd _ _) ?_ (fun _ hm => .inl hm)
        (fun _ hm => hm) ?_
      · intro d hd
        exact message_same (Function.update_of_ne hd _ _) fun _ _ => rfl
      · intro m _ hacc
        simp [accepting, hc.1] at hacc
    · cases ht

end

end strangeio.event.loop
