-- The laws of the circular buffer over whole runs: every call answers as the
-- queue beside it does, while the buffer is not over-filled, and after an
-- overwrite only where it went round whole times.
import Mathlib.Data.List.Nodup
import StrangeIO.CircularQueue

namespace strangeio.buffer.circular

variable {α : Type}

/-! ## A buffer and the queue beside it -/

/-- The queue after a call, of which at most `c` items stay. -/
def queue_after (c : Nat) (q : List α) : call α → List α
  | .push_back item => bounded.push c q item
  | .push_many items => bounded.pushAll c q items
  | .pop_front | .move_front => q.drop 1
  | .pop_many count | .move_many count => q.drop count
  | .clear => []
  | .front | .size | .empty => q

/-- What the queue answers. An empty queue has no front. -/
def queue_answer (q : List α) : call α → Option (answer α)
  | .front | .move_front => q.head?.map .item
  | .pop_many count | .move_many count => some (.items (q.take count))
  | .size => some (.size q.length)
  | .empty => some (.empty q.isEmpty)
  | .push_back _ | .push_many _ | .pop_front | .clear => some .done

/-- A buffer under test: the queue beside it, and what was pushed onto the
buffer and popped off it since it was last cleared. -/
structure session (α : Type) where
  circ : circular α
  queue : List α
  pushed : List α
  popped : List α
deriving DecidableEq

def session.start (c : Nat) (raw : Nat → α) : session α where
  circ := new c raw
  queue := []
  pushed := []
  popped := []

def session.step (c : Nat) (moved : α → α) (s : session α) (o : call α) : Option (session α) := do
  let (a, b) ← s.circ.perform moved o
  some
    { circ := b
      queue := queue_after c s.queue o
      pushed := if o.clears then [] else s.pushed ++ o.pushed
      popped := if o.clears then [] else s.popped ++ s.circ.popped o a }

def sessions (c : Nat) (raw : Nat → α) (moved : α → α) : transition.System (session α) (call α) :=
  transition.machine (· = session.start c raw) (session.step c moved)

/-- The call pops no more than the buffer holds. -/
def pops_held (s : session α) (o : call α) : Prop := o.count ≤ s.circ.size

/-- The call pushes no more than the buffer has room for either. -/
def fits (c : Nat) (s : session α) (o : call α) : Prop :=
  o.count ≤ s.circ.size ∧ s.circ.size + o.pushed.length ≤ c

/-- The call has a count that a loop comes to, and what it pushes has room or goes round the
buffer whole times. -/
def goes_round (c : Nat) (s : session α) (o : call α) : Prop :=
  o.count < memory.u32 ∧ o.pushed.length < memory.u32 ∧
    comes_round c s.circ.size o.pushed.length

instance (c : Nat) (s : session α) (o : call α) : Decidable (fits c s o) :=
  inferInstanceAs (Decidable (_ ∧ _))

instance (s : session α) (o : call α) : Decidable (pops_held s o) :=
  inferInstanceAs (Decidable (_ ≤ _))

instance (c : Nat) (s : session α) (o : call α) : Decidable (goes_round c s o) :=
  inferInstanceAs (Decidable (_ ∧ _ ∧ _))

/-- The call ends, and answers as the queue does where that has an answer. -/
def answers (moved : α → α) (s : session α) (o : call α) : Prop :=
  ∃ a b, s.circ.perform moved o = some (a, b) ∧ ∀ x, queue_answer s.queue o = some x → a = x

/-! ## One call -/

section calls

variable {c : Nat} {b : circular α} {q : List α} {moved : α → α}

theorem Holds.pop_front (h : Holds c b q) :
    ∃ b', b.pop_front = some b' ∧ Holds c b' (q.drop 1) := by
  unfold circular.pop_front
  rw [h.size]
  match q, h with
  | [], h => exact ⟨b, rfl, h⟩
  | x :: q, h =>
    rw [if_neg (by simp), h.decrement]
    exact ⟨_, rfl, h.drop b.m_buffer rfl fun n _ => rfl⟩

theorem Holds.many (h : Holds c b q) {turn : circular α → Option (α × circular α)}
    (hturn : ∀ {b : circular α} {q : List α} {x : α}, Holds c b (x :: q) →
      ∃ b', turn b = some (x, b') ∧ Holds c b' q)
    {count : Nat} (hcount : count ≤ q.length) (hchunk : count < memory.u32) :
    ∃ b', b.many turn count = some (q.take count, b') ∧ Holds c b' (q.drop count) := by
  unfold circular.many
  rw [h.size, if_pos hchunk]
  split
  · rename_i hzero
    obtain rfl := List.length_eq_zero_iff.mp hzero
    rw [List.take_nil, List.drop_nil]
    exact ⟨b, rfl, h⟩
  · exact h.take_many hturn hcount

theorem Holds.push_many (h : Holds c b q) {xs : List α} (hchunk : xs.length < memory.u32)
    (hfits : comes_round c q.length xs.length) :
    ∃ b', b.push_many xs = some b' ∧ Holds c b' (bounded.pushAll c q xs) := by
  unfold circular.push_many
  rw [if_pos hchunk]
  exact h.push_all hchunk hfits

/-- The slot at the start is always there to be read. -/
theorem Holds.front_some (h : Holds c b q) : ∃ x, b.front = some x := by
  unfold circular.front load
  rw [List.getElem?_eq_getElem (by rw [h.length]; exact h.start.trans_le (slots_le c))]
  exact ⟨_, rfl⟩

theorem Holds.clear (h : Holds c b q) : Holds c b.clear [] where
  capacity := h.capacity
  length := h.length
  size := rfl
  room := Nat.zero_le _
  start := Nat.zero_lt_of_lt h.start
  ends := (Nat.zero_mod _).symm
  cells i hi := by cases hi

/-- A call in its bounds keeps the queue, answers as it does, and takes off
its oldest items. -/
theorem Holds.perform (h : Holds c b q) (moved : α → α) (o : call α)
    (hcount : o.count ≤ q.length) (hloop : o.count < memory.u32)
    (hchunk : o.pushed.length < memory.u32) (hfits : comes_round c q.length o.pushed.length) :
    ∃ a b', b.perform moved o = some (a, b') ∧ Holds c b' (queue_after c q o) ∧
      (∀ x, queue_answer q o = some x → a = x) ∧ b.popped o a = q.take o.count := by
  cases o with
  | push_back item =>
    obtain ⟨b', hcall, h'⟩ := h.push_all hchunk hfits
    have hpush : b.push_back item = some b' := by
      rw [call.pushed, List.foldlM_cons] at hcall
      obtain ⟨b1, hone, hnone⟩ := Option.bind_eq_some_iff.mp hcall
      cases hnone
      exact hone
    refine ⟨.done, b', ?_, h', by simp [queue_answer], rfl⟩
    simp [circular.perform, hpush]
  | push_many items =>
    simp only [call.pushed] at hchunk hfits
    obtain ⟨b', hcall, h'⟩ := h.push_many hchunk hfits
    refine ⟨.done, b', ?_, h', by simp [queue_answer], rfl⟩
    simp [circular.perform, hcall]
  | front =>
    obtain ⟨x, hx⟩ := h.front_some
    refine ⟨.item x, b, by simp [circular.perform, hx], h, ?_, rfl⟩
    intro y hy
    match q, h with
    | [], h => cases hy
    | z :: q, h =>
      cases hy
      have := h.load_front
      unfold circular.front at hx
      rw [hx] at this
      cases this
      rfl
  | pop_front =>
    obtain ⟨b', hcall, h'⟩ := h.pop_front
    refine ⟨.done, b', by simp [circular.perform, hcall], h', by simp [queue_answer], ?_⟩
    match q, h with
    | [], h => simp [call.count] at hcount
    | x :: q, h =>
      have := h.load_front
      simp only [circular.popped, circular.front, this, h.size]
      rfl
  | pop_many count =>
    simp only [call.count] at hcount hloop
    obtain ⟨b', hcall, h'⟩ := h.many (fun h => h.copy_front) hcount hloop
    refine ⟨.items (q.take count), b', ?_, h', by simp [queue_answer], rfl⟩
    simp [circular.perform, circular.pop_many, hcall]
  | move_front =>
    match q, h with
    | [], h => simp [call.count] at hcount
    | x :: q, h =>
      obtain ⟨b', hcall, h'⟩ := h.move_front moved
      refine ⟨.item x, b', by simp [circular.perform, hcall], h', by simp [queue_answer], rfl⟩
  | move_many count =>
    simp only [call.count] at hcount hloop
    obtain ⟨b', hcall, h'⟩ := h.many (fun h => h.move_front moved) hcount hloop
    refine ⟨.items (q.take count), b', ?_, h', by simp [queue_answer], rfl⟩
    simp [circular.perform, circular.move_many, hcall]
  | size =>
    refine ⟨.size b.size, b, rfl, h, ?_, rfl⟩
    simp [queue_answer, circular.size, h.size]
  | empty =>
    refine ⟨.empty b.empty, b, rfl, h, ?_, rfl⟩
    simp only [queue_answer, circular.empty, h.size, Option.some.injEq, forall_eq',
      answer.empty.injEq, List.length_eq_zero_iff]
    cases q <;> rfl
  | clear => exact ⟨.done, b.clear, rfl, h.clear, by simp [queue_answer], rfl⟩

end calls

/-! ## Whole runs -/

section runs

variable {c : Nat} {raw : Nat → α} {moved : α → α}

/-- The step of a call that keeps the queue. -/
theorem step_spec {s t : session α} {o : call α} (h : Holds c s.circ s.queue)
    (hcount : pops_held s o) (hround : goes_round c s o) (ht : s.step c moved o = some t) :
    Holds c t.circ t.queue ∧ t.queue = queue_after c s.queue o ∧
      t.pushed = (if o.clears then [] else s.pushed ++ o.pushed) ∧
      t.popped = if o.clears then [] else s.popped ++ s.queue.take o.count := by
  obtain ⟨hloop, hchunk, hfits⟩ := hround
  unfold pops_held size at hcount
  unfold size at hfits
  rw [h.size] at hcount hfits
  obtain ⟨a, b', hcall, h', -, hpopped⟩ := h.perform moved o hcount hloop hchunk hfits
  unfold session.step at ht
  rw [hcall] at ht
  cases ht
  refine ⟨h', rfl, rfl, ?_⟩
  simp only [hpopped]

theorem answers_of_holds {s : session α} {o : call α} (h : Holds c s.circ s.queue)
    (hcount : pops_held s o) (hround : goes_round c s o) : answers moved s o := by
  obtain ⟨hloop, hchunk, hfits⟩ := hround
  unfold pops_held size at hcount
  unfold size at hfits
  rw [h.size] at hcount hfits
  obtain ⟨a, b', hcall, -, hanswer, -⟩ := h.perform moved o hcount hloop hchunk hfits
  exact ⟨a, b', hcall, hanswer⟩

/-- In a small buffer a call that fits is in its bounds. -/
theorem goes_round_of_fits (hc : c < memory.u32) {s : session α} {o : call α}
    (hsize : s.circ.size ≤ c) (h : fits c s o) : goes_round c s o := by
  obtain ⟨hcount, hroom⟩ := h
  refine ⟨by omega, by omega, .inl ?_⟩
  rwa [slots_eq (Nat.le_of_lt hc)]

theorem Holds.size_le {s : session α} (h : Holds c s.circ s.queue) : s.circ.size ≤ c := by
  unfold circular.size
  rw [h.size]
  exact h.room.trans (slots_le c)

/-- What a fitting call leaves in the queue, with what was popped before it,
is what was pushed. -/
theorem conserved_after {q : List α} {o : call α} {popped pushed : List α}
    (h : popped ++ q = pushed) (hclear : o ≠ .clear) (hfits : q.length + o.pushed.length ≤ c) :
    popped ++ q.take o.count ++ queue_after c q o = pushed ++ o.pushed := by
  subst h
  rw [List.append_assoc, List.append_assoc]
  congr 1
  cases o with
  | push_back item =>
    simp only [call.pushed, List.length_singleton] at hfits
    exact bounded.push_room (by omega) item
  | push_many items => exact bounded.pushAll_room hfits
  | clear => exact absurd rfl hclear
  | pop_front | move_front | pop_many | move_many =>
    simp only [call.pushed, List.append_nil]
    exact List.take_append_drop _ q
  | front | size | empty => exact (List.append_nil q).symm

theorem holds_reachable {s : session α} (hc : 1 ≤ c) (hc' : c < memory.u32)
    (h : transition.Reachable ((sessions c raw moved).guarded (fits c)) s) :
    Holds c s.circ s.queue ∧ s.popped ++ s.queue = s.pushed := by
  refine h.keeps (P := fun s => Holds c s.circ s.queue ∧ s.popped ++ s.queue = s.pushed) ?_ ?_
  · rintro s rfl
    exact ⟨holds_new hc raw, rfl⟩
  · rintro s o t ⟨hs, hsame⟩ ⟨hfits, ht⟩
    obtain ⟨h1, h2, h3, h4⟩ :=
      step_spec hs hfits.1 (goes_round_of_fits hc' hs.size_le hfits) ht
    have hroom := hfits.2
    unfold size at hroom
    rw [hs.size] at hroom
    refine ⟨h1, ?_⟩
    by_cases hclear : o = .clear
    · subst hclear
      rw [h2, h3, h4]
      rfl
    · have hclears : o.clears = false := by
        cases o with
        | clear => exact absurd rfl hclear
        | _ => rfl
      rw [h2, h3, h4, hclears]
      exact conserved_after hsame hclear hroom

end runs

/-- A buffer that is never over-filled is a queue: what was popped since it was
last cleared, and then what it holds, is what was pushed; it has the size and
the front of the queue, and every call that fits ends and answers as the queue does. -/
theorem a_buffer_that_is_not_over_filled_is_a_queue (c : Nat) (hc : 1 ≤ c) (hc' : c < memory.u32)
    (raw : Nat → α) (moved : α → α) (s : session α)
    (h : transition.Reachable ((sessions c raw moved).guarded (fits c)) s) :
    s.popped ++ s.queue = s.pushed ∧ s.circ.size = s.queue.length ∧
      (∀ x q, s.queue = x :: q → s.circ.front = some x) ∧
      ∀ o, fits c s o → answers moved s o := by
  obtain ⟨hholds, hsame⟩ := holds_reachable hc hc' h
  refine ⟨hsame, hholds.size, ?_, ?_⟩
  · intro x q hq
    rw [hq] at hholds
    exact hholds.load_front
  · intro o hfits
    exact answers_of_holds hholds hfits.1 (goes_round_of_fits hc' hholds.size_le hfits)

/-- Three items through a buffer of two, the third in the slot of the first. -/
theorem three_items_through_two_slots :
    ∃ s : session Nat, s.queue = [2, 3] ∧ s.popped ++ s.queue = s.pushed ∧
      s.circ.size = s.queue.length ∧ (∀ x q, s.queue = x :: q → s.circ.front = some x) ∧
      ∀ o, fits 2 s o → answers id s o := by
  refine ⟨⟨⟨1, 1, 2, 2, [3, 2]⟩, [2, 3], [1, 2, 3], [1]⟩, rfl, ?_⟩
  apply a_buffer_that_is_not_over_filled_is_a_queue 2 (by decide) (by decide) (fun _ => 0) id
  refine ⟨session.start 2 fun _ => 0, [.push_many [1, 2], .pop_front, .push_back 3], rfl, ?_⟩
  apply transition.Run.machine_guarded (.nil _)
  decide +kernel

/-! ## Over-filling -/

section overfull

variable {c : Nat} {b : circular α} {q w : List α}

/-- From front to back there are the items of the queue. -/
theorem Holds.contents (h : Holds c b q) : b.contents = q.map some := by
  unfold circular.contents
  rw [h.capacity, h.size]
  apply List.ext_getElem?
  intro i
  rw [List.getElem?_map, List.getElem?_map]
  rcases Nat.lt_or_ge i q.length with hi | hi
  · rw [List.getElem?_range hi, Option.map_some, load, h.cells i hi]
    simp [hi]
  · simp [hi]

/-- A buffer that was over-filled, and not by whole rounds, has another item than the oldest
at its front. -/
theorem Stored.front_ne (h : Stored c b w) (hdistinct : w.Nodup) (hover : slots c < w.length)
    (hround : ¬ (c ≤ memory.u32 ∧ c ∣ w.length)) :
    b.contents ≠ (w.drop (w.length - c)).map some := by
  have hstart := h.start
  have hslots := slots_le c
  -- the front is the last item that was stored at the start
  obtain ⟨k, hk⟩ : ∃ k, k = (w.length - 1) / slots c := ⟨_, rfl⟩
  have hlow : k * slots c < w.length := by
    have := Nat.div_mul_le_self (w.length - 1) (slots c)
    rw [← hk] at this
    omega
  have hhigh : w.length ≤ k * slots c + slots c := by
    have := Nat.lt_div_mul_add (a := w.length - 1) (Nat.zero_lt_of_lt hstart)
    rw [← hk] at this
    omega
  have hfront : b.contents[0]? = some (w[k * slots c]?) := by
    have hcell := h.cells (k * slots c) hlow hhigh
    rw [Nat.add_mul_mod_self_right] at hcell
    unfold circular.contents
    rw [h.capacity, List.getElem?_map, List.getElem?_range (by rw [h.size]; omega),
      Option.map_some, Nat.add_zero, load, hcell]
  intro heq
  rw [heq, List.getElem?_map, List.getElem?_drop, Nat.add_zero,
    List.getElem?_eq_getElem (by omega), Option.map_some, Option.some.injEq,
    List.getElem?_eq_getElem hlow, Option.some.injEq] at hfront
  have hsame := (List.Nodup.getElem_inj_iff hdistinct).mp hfront
  rcases Nat.lt_or_ge memory.u32 c with hlarge | hsmall
  · have : slots c = memory.u32 := Nat.min_eq_right (Nat.le_of_lt hlarge)
    omega
  · rw [slots_eq hsmall] at hsame
    refine hround ⟨hsmall, ?_⟩
    have hwhole : w.length = k * c + c := by
      rw [slots_eq hsmall] at hover
      omega
    rw [hwhole]
    exact ⟨k + 1, by rw [Nat.mul_add, Nat.mul_one, Nat.mul_comm]⟩

theorem many_large {turn : circular α → Option (α × circular α)} {count : Nat}
    (hsize : b.m_size ≠ 0) (hcount : memory.u32 ≤ count) : b.many turn count = none := by
  unfold circular.many
  rw [if_neg hsize, if_neg (by omega)]

/-- A loop whose counter never comes to the count does not end. -/
theorem perform_large {moved : α → α} {o : call α} (hcount : o.count ≤ b.m_size)
    (hlarge : memory.u32 ≤ o.count ∨ memory.u32 ≤ o.pushed.length) : b.perform moved o = none := by
  have hone := one_lt_u32
  cases o with
  | push_many items =>
    have hlarge : memory.u32 ≤ items.length := hlarge.resolve_left (by simp [call.count]; omega)
    simp only [circular.perform, circular.push_many]
    rw [if_neg (by omega)]
    rfl
  | pop_many count | move_many count =>
    have hlarge : memory.u32 ≤ count := hlarge.resolve_right (by simp [call.pushed]; omega)
    simp only [call.count] at hcount
    simp only [circular.perform, circular.pop_many, circular.move_many]
    rw [many_large (by omega) hlarge]
    rfl
  | push_back | front | pop_front | move_front | size | empty | clear =>
    simp only [call.count, call.pushed, List.length_nil, List.length_singleton] at hlarge
    omega

/-- A call out of its bounds does not end, or leaves other items than the queue has. -/
theorem Holds.overrun {s t : session α} {o : call α} {moved : α → α} (hc : 1 ≤ c)
    (h : Holds c s.circ s.queue) (hcount : pops_held s o) (hround : ¬ goes_round c s o)
    (hdistinct : (s.queue ++ o.pushed).Nodup) (ht : s.step c moved o = some t) :
    t.circ.contents ≠ t.queue.map some := by
  obtain ⟨⟨a, b'⟩, hcall, heq⟩ := Option.bind_eq_some_iff.mp ht
  cases heq
  have hends : o.count < memory.u32 ∧ o.pushed.length < memory.u32 := by
    by_contra hlarge
    rw [perform_large hcount (by omega)] at hcall
    cases hcall
  have hfits : ¬ comes_round c s.queue.length o.pushed.length := by
    intro hfits
    refine hround ⟨hends.1, hends.2, ?_⟩
    unfold circular.size
    rwa [h.size]
  obtain ⟨hover, hrest⟩ := not_or.mp hfits
  have hroom := h.room
  have hslots := slots_le c
  have h32 := slots_le_u32 c
  have hwrap : s.queue.length + o.pushed.length < u64 := by
    unfold memory.u32 u64 at *
    omega
  obtain ⟨b1, hb1, hstored⟩ := h.stored.push_all hwrap
  have hne := hstored.front_ne hdistinct (by simpa using hover) (by simpa using hrest)
  rw [List.length_append, ← bounded.pushAll_eq_drop hc (by omega)] at hne
  cases o with
  | push_back item =>
    simp only [circular.perform, call.pushed, List.foldlM_cons, List.foldlM_nil,
      bind_pure] at hcall hb1
    rw [hb1] at hcall
    cases hcall
    exact hne
  | push_many items =>
    simp only [circular.perform, circular.push_many, call.pushed] at hcall hb1 hends
    rw [if_pos hends.2, hb1] at hcall
    cases hcall
    exact hne
  | front | pop_front | pop_many | move_front | move_many | size | empty | clear =>
    exact absurd hover (by simpa [call.pushed] using hroom)

end overfull

/-- **A buffer drops its oldest items in each push for which there is room, or which goes
round it whole times**: in a run of such calls it holds what the queue does, from front to back,
and each call answers as the queue; any other call leaves other items, or does not end. -/
theorem an_overwrite_drops_the_oldest_in_whole_rounds (c : Nat) (hc : 1 ≤ c) (raw : Nat → α)
    (moved : α → α) (s : session α)
    (h : transition.Reachable
      ((sessions c raw moved).guarded fun s o => pops_held s o ∧ goes_round c s o) s) :
    (s.circ.contents = s.queue.map some ∧ s.circ.size = s.queue.length ∧
      ∀ o, pops_held s o → goes_round c s o → answers moved s o) ∧
    ∀ o, pops_held s o → ¬ goes_round c s o → (s.queue ++ o.pushed).Nodup →
      ¬ ∃ t, s.step c moved o = some t ∧ t.circ.contents = t.queue.map some := by
  have hholds : Holds c s.circ s.queue := by
    refine h.keeps (P := fun s => Holds c s.circ s.queue) ?_ ?_
    · rintro s rfl
      exact holds_new hc raw
    · rintro s o t hs ⟨⟨hcount, hround⟩, ht⟩
      exact (step_spec hs hcount hround ht).1
  refine ⟨⟨hholds.contents, hholds.size, fun o => answers_of_holds hholds⟩, ?_⟩
  rintro o hcount hround hdistinct ⟨t, ht, hsame⟩
  exact hholds.overrun hc hcount hround hdistinct ht hsame

/-- Four items into a buffer of two go round it twice, and it goes on from the last two. -/
theorem a_buffer_of_two_goes_round :
    ∃ s : session Nat, s.queue = [4, 5] ∧ s.circ.contents = s.queue.map some ∧
      answers id s .front := by
  have hreach : transition.Reachable
      ((sessions 2 (fun _ => 0) id).guarded fun s o => pops_held s o ∧ goes_round 2 s o)
      (⟨⟨1, 1, 2, 2, [5, 4]⟩, [4, 5], [1, 2, 3, 4, 5], [3]⟩ : session Nat) := by
    refine ⟨session.start 2 fun _ => 0,
      [.push_many [1, 2], .push_many [3, 4], .pop_front, .push_back 5], rfl, ?_⟩
    apply transition.Run.machine_guarded (.nil _)
    decide +kernel
  obtain ⟨⟨hcontents, -, hanswers⟩, -⟩ :=
    an_overwrite_drops_the_oldest_in_whole_rounds 2 (by decide) _ id _ hreach
  exact ⟨_, rfl, hcontents, hanswers .front (by decide) (by decide)⟩

/-- A push onto a full buffer of two: the newest item is at the front, before the second. -/
theorem an_overwrite_puts_the_newest_first :
    ∃ s : session Nat, transition.Reachable ((sessions 2 (fun _ => 0) id).guarded pops_held) s ∧
      s.queue = [2, 3] ∧ s.circ.front = some 3 := by
  refine ⟨⟨⟨0, 1, 2, 2, [3, 2]⟩, [2, 3], [1, 2, 3], []⟩,
    ⟨session.start 2 fun _ => 0, [.push_many [1, 2], .push_back 3], rfl, ?_⟩, rfl, rfl⟩
  apply transition.Run.machine_guarded (.nil _)
  decide +kernel

end strangeio.buffer.circular
