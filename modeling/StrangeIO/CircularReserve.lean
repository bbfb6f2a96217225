-- What `reserve` makes of a circular buffer: it copies the first slots and
-- leaves the positions, so that a buffer that does not start at its first
-- slot, or is full, loses the order of its items.
import StrangeIO.CircularIndex

namespace strangeio.buffer.circular

variable {α : Type}

/-- A session that goes on from here, with the items of `q` in the buffer. -/
def session.resume (b : circular α) (q : List α) : session α where
  circ := b
  queue := q
  pushed := []
  popped := []

def resumed (c : Nat) (moved : α → α) (b : circular α) (q : List α) :
    transition.System (session α) (call α) :=
  transition.machine (· = session.resume b q) (session.step c moved)

/-- However the buffer goes on with calls that fit into `c` slots, each of them
answers as the queue does. -/
def goes_on (c : Nat) (moved : α → α) (b : circular α) (q : List α) : Prop :=
  ∀ t, transition.Reachable ((resumed c moved b q).guarded (fits c)) t →
    ∀ o x, fits c t o → queue_answer t.queue o = some x →
      ∃ b', t.circ.perform moved o = some (x, b')

/-- A new capacity changes neither the items nor their number, and the buffer
goes on as a queue in it, whatever stands in the new memory. -/
def reserve_keeps (c : Nat) (moved : α → α) (s : session α) (new_cap : Nat) : Prop :=
  ∀ raw, ∃ b, s.circ.reserve new_cap raw = some b ∧ b.contents = s.circ.contents ∧
    b.size = s.circ.size ∧ b.m_capacity = max c new_cap ∧
    goes_on (max c new_cap) moved b s.queue

/-! ## Buffers that follow a queue -/

/-- A buffer without slots. -/
structure Blank (b : circular α) (q : List α) : Prop where
  slots : b = ⟨0, 0, 0, 0, []⟩
  queue : q = []

/-- The buffer of capacity `c`, which may be none, follows the queue. -/
def Follows (c : Nat) (b : circular α) (q : List α) : Prop :=
  Holds c b q ∨ c = 0 ∧ Blank b q

theorem Blank.perform {b : circular α} {q : List α} (h : Blank b q) (moved : α → α) {o : call α}
    (hcount : o.count = 0) (hpushed : o.pushed = []) :
    (∀ a b', b.perform moved o = some (a, b') → Blank b' (queue_after 0 q o)) ∧
      ∀ x, queue_answer q o = some x → ∃ b', b.perform moved o = some (x, b') := by
  obtain ⟨rfl, rfl⟩ := h
  cases o with
  | push_back item => cases hpushed
  | push_many items =>
    cases (hpushed : items = [])
    constructor
    · intro a b' hcall
      cases hcall
      exact ⟨rfl, rfl⟩
    · intro x hx
      cases hx
      exact ⟨_, rfl⟩
  | front =>
    constructor
    · intro a b' hcall
      cases hcall
    · intro x hx
      cases hx
  | pop_front => cases hcount
  | move_front => cases hcount
  | pop_many count | move_many count =>
    cases (hcount : count = 0)
    constructor
    · intro a b' hcall
      cases hcall
      exact ⟨rfl, rfl⟩
    · intro x hx
      cases hx
      exact ⟨_, rfl⟩
  | size | empty | clear =>
    constructor
    · intro a b' hcall
      cases hcall
      exact ⟨rfl, rfl⟩
    · intro x hx
      cases hx
      exact ⟨_, rfl⟩

section follows

variable {c : Nat} {b : circular α} {q : List α} {moved : α → α}

theorem Follows.size (h : Follows c b q) : b.m_size = q.length := by
  rcases h with h | ⟨-, rfl, rfl⟩
  · exact h.size
  · rfl

theorem Follows.capacity (h : Follows c b q) : b.m_capacity = c := by
  rcases h with h | ⟨rfl, rfl, rfl⟩
  · exact h.capacity
  · rfl

/-- The calls that fit keep the queue, and answer as it does. -/
theorem Follows.perform (h : Follows c b q) (hc : c < memory.u32) {o : call α}
    (hcount : o.count ≤ q.length) (hroom : q.length + o.pushed.length ≤ c) :
    (∀ a b', b.perform moved o = some (a, b') → Follows c b' (queue_after c q o)) ∧
      ∀ x, queue_answer q o = some x → ∃ b', b.perform moved o = some (x, b') := by
  rcases h with h | ⟨rfl, h⟩
  · have hfits : comes_round c q.length o.pushed.length :=
      .inl (by rwa [slots_eq (Nat.le_of_lt hc)])
    obtain ⟨a, b', hcall, h', hanswer, -⟩ :=
      h.perform moved o hcount (by omega) (by omega) hfits
    constructor
    · intro a1 b1 hcall1
      cases hcall.symm.trans hcall1
      exact .inl h'
    · intro x hx
      exact ⟨b', hanswer x hx ▸ hcall⟩
  · have hq : q.length = 0 := by rw [h.queue]; rfl
    have hpushed : o.pushed = [] := List.length_eq_zero_iff.mp (by omega)
    obtain ⟨hkept, hanswer⟩ := h.perform moved (by omega) hpushed
    exact ⟨fun a b' hcall => .inr ⟨rfl, hkept a b' hcall⟩, hanswer⟩

theorem Follows.step (hc : c < memory.u32) {s t : session α} {o : call α}
    (h : Follows c s.circ s.queue) (hfits : fits c s o) (ht : s.step c moved o = some t) :
    Follows c t.circ t.queue := by
  obtain ⟨hcount, hroom⟩ := hfits
  rw [circular.size, h.size] at hcount hroom
  obtain ⟨⟨a, b'⟩, hcall, heq⟩ := Option.bind_eq_some_iff.mp ht
  cases heq
  exact (h.perform hc hcount hroom).1 a b' hcall

/-- A buffer that follows the queue goes on as one. -/
theorem Follows.goes_on (hc : c < memory.u32) (h : Follows c b q) : goes_on c moved b q := by
  intro t ht o x hfits hx
  have hfollows : Follows c t.circ t.queue := by
    refine ht.keeps (P := fun t => Follows c t.circ t.queue) ?_ ?_
    · rintro s rfl
      exact h
    · rintro s o t hs ⟨hfits, ht⟩
      exact hs.step hc hfits ht
  obtain ⟨hcount, hroom⟩ := hfits
  rw [circular.size, hfollows.size] at hcount hroom
  exact (hfollows.perform hc hcount hroom).2 x hx

theorem follows_reachable {raw : Nat → α} (hc : c < memory.u32) {s : session α}
    (h : transition.Reachable ((sessions c raw moved).guarded (fits c)) s) :
    Follows c s.circ s.queue := by
  refine h.keeps (P := fun s => Follows c s.circ s.queue) ?_ ?_
  · rintro s rfl
    rcases Nat.eq_zero_or_pos c with rfl | hpos
    · exact .inr ⟨rfl, rfl, rfl⟩
    · exact .inl (holds_new hpos raw)
  · rintro s o t hs ⟨hfits, ht⟩
    exact hs.step hc hfits ht

theorem size_reachable {raw : Nat → α} (hc' : c < u64) {s : session α}
    (h : transition.Reachable ((sessions c raw moved).guarded (fits c)) s) :
    s.circ.m_size ≤ c := by
  rcases Nat.eq_zero_or_pos c with rfl | hpos
  · rcases follows_reachable (by decide) h with hholds | ⟨-, hblank⟩
    · exact absurd hholds.start (Nat.not_lt_zero _)
    · rw [hblank.slots]
  · exact (placed_reachable hpos hc' h).2

/-- From front to back there are the items of the queue. -/
theorem Follows.contents (h : Follows c b q) : b.contents = q.map some := by
  rcases h with h | ⟨-, rfl, rfl⟩
  · exact h.contents
  · rfl

end follows

/-! ## The new buffer -/

section grown

variable {c new_cap : Nat} {b : circular α} {q : List α} {raw : Nat → α}

/-- The buffer with more slots, the first of which are copied. -/
def grown (new_cap : Nat) (raw : Nat → α) (b : circular α) : circular α :=
  { b with
    m_capacity := new_cap
    m_buffer := b.m_buffer.take b.m_size ++
      (List.range' b.m_size (new_cap - b.m_size)).map raw }

theorem reserve_grown (hcap : b.m_capacity < new_cap) (hsize : b.m_size ≤ b.m_buffer.length) :
    b.reserve new_cap raw = some (b.grown new_cap raw) := by
  unfold reserve
  rw [if_neg (by omega), if_pos hsize]
  rfl

/-- The slots that are copied. -/
theorem grown_old {n : Nat} (hsize : b.m_size ≤ b.m_buffer.length) (hn : n < b.m_size) :
    (b.grown new_cap raw).m_buffer[n]? = b.m_buffer[n]? := by
  unfold grown
  simp only
  rw [List.getElem?_append_left (by simp; omega), List.getElem?_take_of_lt hn]

/-- The slots that are not. -/
theorem grown_raw {n : Nat} (hsize : b.m_size ≤ b.m_buffer.length) (hn : b.m_size ≤ n)
    (hn' : n < new_cap) : (b.grown new_cap raw).m_buffer[n]? = some (raw n) := by
  unfold grown
  simp only
  rw [List.getElem?_append_right (by simp; omega), List.length_take, Nat.min_eq_left hsize,
    List.getElem?_map, List.getElem?_range' (by omega)]
  simp
  congr 1
  omega

theorem grown_length (hsize : b.m_size ≤ b.m_buffer.length) (hcap : b.m_size ≤ new_cap) :
    (b.grown new_cap raw).m_buffer.length = new_cap := by
  simp [grown]
  omega

theorem Follows.size_le_length (h : Follows c b q) : b.m_size ≤ b.m_buffer.length := by
  rcases h with h | ⟨-, rfl, -⟩
  · rw [h.size, h.length]
    exact h.room.trans (slots_le c)
  · exact Nat.le_refl 0

/-- A buffer whose items are in its first slots, with room behind them, keeps its queue. -/
theorem Follows.grown (h : Follows c b q) (hc : new_cap < memory.u32) (hcap : c < new_cap)
    (hplain : b.m_size = 0 ∨ b.m_start = 0 ∧ b.m_size < c) :
    Follows new_cap (b.grown new_cap raw) q := by
  have hsize := h.size
  have hlength := h.size_le_length
  have hold : slots c = c := slots_eq (by omega)
  have hnew : slots new_cap = new_cap := slots_eq (Nat.le_of_lt hc)
  refine .inl ⟨rfl, ?_, hsize, ?_, ?_, ?_, ?_⟩
  · apply grown_length hlength
    omega
  · omega
  · rw [hnew]
    change b.m_start < new_cap
    rcases h with h | ⟨-, rfl, -⟩
    · exact (hold ▸ h.start).trans hcap
    · exact Nat.zero_lt_of_lt hcap
  · rw [hnew]
    change b.m_end = (b.m_start + q.length) % new_cap
    rcases h with h | ⟨-, rfl, rfl⟩
    · have hstart := h.start
      have hends := h.ends
      rw [hold] at hstart hends
      rw [hends, Nat.mod_eq_of_lt (by omega : b.m_start + q.length < c),
        Nat.mod_eq_of_lt (by omega)]
    · exact (Nat.zero_mod new_cap).symm
  · intro i hi
    rw [hnew]
    change (b.grown new_cap raw).m_buffer[(b.m_start + i) % new_cap]? = q[i]?
    obtain ⟨hstart, hroom⟩ := hplain.resolve_left (by omega)
    rcases h with h | ⟨-, rfl, rfl⟩
    · have hcell := h.cells i hi
      rw [hold, hstart, Nat.zero_add, Nat.mod_eq_of_lt (by omega : i < c)] at hcell
      rw [hstart, Nat.zero_add, Nat.mod_eq_of_lt (by omega), grown_old hlength (by omega), hcell]
    · cases hi

/-- A buffer that starts further on reads a slot that was not copied. -/
theorem Holds.grown_contents [Nontrivial α] (h : Holds c b q) (hc : new_cap < memory.u32)
    (hcap : c < new_cap) (hstart : 0 < b.m_start) (hsize : 0 < b.m_size) :
    ∃ raw, (b.grown new_cap raw).contents ≠ b.contents := by
  have hfollows : Follows c b q := .inl h
  have hstart_lt := h.start
  have hroom := h.room
  have hlen := h.size
  have hslots : slots new_cap = new_cap := slots_eq (Nat.le_of_lt hc)
  have hold : slots c = c := slots_eq (by omega)
  -- the last slot that is read before the new buffer comes round
  obtain ⟨n, hn⟩ : ∃ n, n = min (b.m_start + b.m_size - 1) (new_cap - 1) := ⟨_, rfl⟩
  obtain ⟨i, hi⟩ : ∃ i, n = b.m_start + i := ⟨n - b.m_start, by omega⟩
  have hi_lt : i < q.length := by omega
  obtain ⟨y, hy⟩ := exists_ne q[i]
  refine ⟨fun _ => y, fun heq => hy ?_⟩
  have hread := congrArg (·[i]?) heq
  have hlt : i < b.m_size := by omega
  have hslot : (b.m_start + i) % slots new_cap = n := by
    rw [hslots, ← hi]
    apply Nat.mod_eq_of_lt
    omega
  have hraw : (b.grown new_cap fun _ => y).load n = some y :=
    grown_raw hfollows.size_le_length (by omega) (by omega)
  rw [hfollows.contents] at hread
  change ((List.range b.m_size).map fun i => (b.grown new_cap fun _ => y).load
    ((b.m_start + i) % slots new_cap))[i]? = (q.map some)[i]? at hread
  rw [List.getElem?_map, List.getElem?_range hlt, Option.map_some, hslot, hraw,
    List.getElem?_map, List.getElem?_eq_getElem (by omega), Option.map_some] at hread
  simpa using hread

theorem push_back_some {b b' : circular α} {x : α} (h : b.push_back x = some b') :
    b'.m_start = b.m_start ∧ b'.m_capacity = b.m_capacity ∧
      b'.m_size = (if b.m_capacity < (b.m_size + 1) % u64 then b.m_capacity
        else (b.m_size + 1) % u64) ∧
      b.m_end < b.m_buffer.length ∧ b'.m_buffer = b.m_buffer.set b.m_end x := by
  simp only [push_back, circular.increment, store] at h
  split at h
  · cases h
  · simp only [Option.bind_eq_bind, Option.bind_some] at h
    split at h
    · rename_i hlt
      cases h
      exact ⟨rfl, rfl, rfl, hlt, rfl⟩
    · cases h

/-- A buffer that goes on takes another item where there is room. -/
theorem goes_on_push {t : session α} {moved : α → α} (hgoes : goes_on c moved b q)
    (ht : transition.Reachable ((resumed c moved b q).guarded (fits c)) t)
    (hroom : t.circ.m_size + 1 ≤ c) (x : α) :
    ∃ t', transition.Reachable ((resumed c moved b q).guarded (fits c)) t' ∧
      t.circ.push_back x = some t'.circ ∧ t'.queue = bounded.push c t.queue x := by
  have hfits : fits c t (.push_back x) := ⟨Nat.zero_le _, hroom⟩
  obtain ⟨b', hcall⟩ := hgoes t ht (.push_back x) .done hfits rfl
  refine ⟨⟨b', bounded.push c t.queue x, t.pushed ++ [x], t.popped ++ []⟩,
    ht.step (.push_back x) ⟨hfits, ?_⟩, ?_, rfl⟩
  · change session.step c moved t (.push_back x) = _
    unfold session.step
    rw [hcall]
    rfl
  · obtain ⟨b1, hpush, heq⟩ := Option.map_eq_some_iff.mp hcall
    cases heq
    exact hpush

/-- A full buffer writes over its front next. -/
theorem Holds.grown_full [Nontrivial α] (h : Holds c b q)
    (hcap : c < new_cap) (hstart : b.m_start = 0) (hfull : b.m_size = c) (moved : α → α) :
    ¬ goes_on new_cap moved (b.grown new_cap raw) q := by
  intro hgoes
  have hlen := h.size
  have h64 := u32_lt_u64
  have hroom := h.room
  have hslots : slots c = c := Nat.le_antisymm (slots_le c) (by omega)
  have hpos := h.start
  have hend : b.m_end = 0 := by
    rw [h.ends, hslots, hstart, Nat.zero_add, ← hlen, hfull, Nat.mod_self]
  obtain ⟨x, q, rfl⟩ := List.exists_cons_of_length_pos (show 0 < q.length by omega)
  obtain ⟨y, hy⟩ := exists_ne x
  have hroom : b.m_size + 1 ≤ new_cap := by omega
  obtain ⟨t, ht, hpush, hqueue⟩ := goes_on_push hgoes ⟨_, [], rfl, .nil _⟩ hroom y
  change (b.grown new_cap raw).push_back y = some t.circ at hpush
  obtain ⟨hstart1, -, hsize1, hlt, hbuffer⟩ := push_back_some hpush
  change t.circ.m_size = (if new_cap < (b.m_size + 1) % u64 then new_cap
    else (b.m_size + 1) % u64) at hsize1
  change b.m_end < _ at hlt
  change t.circ.m_buffer = (b.grown new_cap raw).m_buffer.set b.m_end y at hbuffer
  have hfits : fits new_cap t .front := by
    refine ⟨Nat.zero_le _, ?_⟩
    change t.circ.m_size + 0 ≤ new_cap
    rw [hsize1]
    split
    · omega
    · omega
  have hanswer : queue_answer t.queue .front = some (.item x) := by
    rw [hqueue]
    change queue_answer (bounded.push new_cap (x :: q) y) .front = _
    rw [bounded.push_room (by omega)]
    rfl
  obtain ⟨b2, hread⟩ := hgoes t ht .front (.item x) hfits hanswer
  have hfront : t.circ.front = some y := by
    change t.circ.m_start = b.m_start at hstart1
    rw [hend] at hlt
    unfold circular.front load
    rw [hbuffer, hstart1, hstart, hend, List.getElem?_set_self hlt]
  simp only [circular.perform, hfront, Option.map_some, Option.some.injEq, Prod.mk.injEq,
    answer.item.injEq] at hread
  exact hy hread.1

end grown

/-- A buffer that holds more than a loop can count does not go on as a queue. -/
theorem not_goes_on_large [Nonempty α] {c : Nat} {b : circular α} {q : List α} (moved : α → α)
    (hc : memory.u32 ≤ c) (hcap : b.m_capacity = c) (hsize : b.m_size ≤ c) :
    ¬ goes_on c moved b q := by
  intro hgoes
  have h64 := u32_lt_u64
  obtain ⟨x⟩ := (inferInstance : Nonempty α)
  -- push until there are as many as an `unsigned int` has values
  have hfill : ∀ k, b.m_size + k ≤ max b.m_size memory.u32 →
      ∃ t, transition.Reachable ((resumed c moved b q).guarded (fits c)) t ∧
        t.circ.m_capacity = c ∧ t.circ.m_size = b.m_size + k := by
    intro k
    induction k with
    | zero => exact fun _ => ⟨_, ⟨_, [], rfl, .nil _⟩, hcap, rfl⟩
    | succ k ih =>
      intro hk
      obtain ⟨t, ht, htcap, htsize⟩ := ih (by omega)
      obtain ⟨t', ht', hpush, -⟩ := goes_on_push hgoes ht (by omega) x
      obtain ⟨-, hcap1, hsize1, -⟩ := push_back_some hpush
      refine ⟨t', ht', hcap1.trans htcap, ?_⟩
      rw [hsize1, htcap, htsize, Nat.mod_eq_of_lt (by omega), if_neg (by omega), Nat.add_assoc]
  obtain ⟨t, ht, -, htsize⟩ := hfill (memory.u32 - b.m_size) (by omega)
  have hmany : memory.u32 ≤ t.circ.m_size := by omega
  have hfits : fits c t (.pop_many memory.u32) := by
    refine ⟨hmany, ?_⟩
    change t.circ.m_size + 0 ≤ c
    omega
  obtain ⟨b', hcall⟩ := hgoes t ht (.pop_many memory.u32) _ hfits rfl
  have hnone : t.circ.pop_many memory.u32 = none := by
    have hpos := one_lt_u32
    unfold circular.pop_many circular.many
    rw [if_neg (by omega), if_neg (by omega)]
  simp only [circular.perform, hnone, Option.map_none] at hcall
  cases hcall

/-! ## Growing -/

section reserves

variable {c new_cap : Nat} {moved : α → α} {s : session α}

/-- What does not grow stays, and what grows with its items in the first slots, and room
behind them, goes on. -/
theorem Follows.reserve_keeps (h : Follows c s.circ s.queue) (hc : max c new_cap < memory.u32)
    (hplain : new_cap ≤ c ∨ s.circ.m_size = 0 ∨ s.circ.m_start = 0 ∧ s.circ.m_size < c) :
    reserve_keeps c moved s new_cap := by
  intro raw
  have hc32 : c < memory.u32 := by omega
  rcases Nat.lt_or_ge c new_cap with hgrow | hshrink
  · have hmax : max c new_cap = new_cap := Nat.max_eq_right (Nat.le_of_lt hgrow)
    rw [hmax] at hc ⊢
    have hgrown : Follows new_cap (s.circ.grown new_cap raw) s.queue :=
      h.grown hc hgrow (hplain.resolve_left (by omega))
    refine ⟨s.circ.grown new_cap raw, ?_, ?_, rfl, rfl, hgrown.goes_on hc⟩
    · apply reserve_grown
      · rw [h.capacity]
        exact hgrow
      · exact h.size_le_length
    · rw [hgrown.contents, h.contents]
  · have hmax : max c new_cap = c := Nat.max_eq_left hshrink
    rw [hmax]
    refine ⟨s.circ, ?_, rfl, rfl, h.capacity, h.goes_on hc32⟩
    unfold reserve
    rw [if_pos (by rw [h.capacity]; exact hshrink)]

/-- What is kept has less slots than a loop can count. -/
theorem small_of_reserve_keeps [Nonempty α] (h : reserve_keeps c moved s new_cap)
    (hsize : s.circ.m_size ≤ c) : max c new_cap < memory.u32 := by
  by_contra hlarge
  obtain ⟨x⟩ := (inferInstance : Nonempty α)
  obtain ⟨b, -, -, hsame, hcap, hgoes⟩ := h fun _ => x
  refine not_goes_on_large moved (by omega) hcap ?_ hgoes
  unfold circular.size at hsame
  omega

/-- What grows is kept only where it is empty, or starts at its first slot and is not full. -/
theorem Holds.of_reserve_keeps [Nontrivial α] (h : Holds c s.circ s.queue)
    (hkeeps : reserve_keeps c moved s new_cap) (hc : new_cap < memory.u32) (hgrow : c < new_cap)
    (hsome : 0 < s.circ.m_size) : s.circ.m_start = 0 ∧ s.circ.m_size < c := by
  have hfollows : Follows c s.circ s.queue := .inl h
  have hreserve : ∀ raw b, s.circ.reserve new_cap raw = some b → b = s.circ.grown new_cap raw := by
    intro raw b hb
    rw [reserve_grown (by rw [h.capacity]; exact hgrow) hfollows.size_le_length] at hb
    exact (Option.some.inj hb).symm
  have hstart : s.circ.m_start = 0 := by
    by_contra hne
    obtain ⟨raw, hdiffer⟩ := h.grown_contents hc hgrow (Nat.pos_of_ne_zero hne) hsome
    obtain ⟨b, hb, hcontents, -⟩ := hkeeps raw
    rw [hreserve raw b hb] at hcontents
    exact hdiffer hcontents
  refine ⟨hstart, ?_⟩
  by_contra hfull
  have hroom := h.room
  have hslots := slots_le c
  have hlen := h.size
  obtain ⟨x⟩ := (inferInstance : Nonempty α)
  obtain ⟨b, hb, -, -, -, hgoes⟩ := hkeeps fun _ => x
  rw [hreserve _ b hb, Nat.max_eq_right (Nat.le_of_lt hgrow)] at hgoes
  exact h.grown_full hgrow hstart (by omega) moved hgoes

end reserves

/-- **A new capacity keeps a buffer that starts at its first slot and is not full**, an
empty one, and one that it does not grow, of less than 2^32 slots, and no other. -/
theorem reserve_keeps_what_starts_at_the_first_slot [Nontrivial α] (c : Nat) (hc : c < u64)
    (raw : Nat → α) (moved : α → α) (s : session α)
    (h : transition.Reachable ((sessions c raw moved).guarded (fits c)) s) (new_cap : Nat) :
    reserve_keeps c moved s new_cap ↔ max c new_cap < memory.u32 ∧
      (new_cap ≤ c ∨ s.circ.size = 0 ∨ s.circ.m_start = 0 ∧ s.circ.size < c) := by
  constructor
  · intro hkeeps
    have hsmall := small_of_reserve_keeps hkeeps (size_reachable hc h)
    refine ⟨hsmall, ?_⟩
    rcases Nat.lt_or_ge c new_cap with hgrow | hshrink
    · refine .inr ?_
      rcases Nat.eq_zero_or_pos s.circ.m_size with hempty | hsome
      · exact .inl hempty
      · have hfollows := follows_reachable (by omega) h
        rcases hfollows with hholds | ⟨-, hblank⟩
        · exact .inr (hholds.of_reserve_keeps hkeeps (by omega) hgrow hsome)
        · rw [hblank.slots] at hsome
          exact absurd hsome (Nat.lt_irrefl 0)
    · exact .inl hshrink
  · rintro ⟨hsmall, hplain⟩
    exact (follows_reachable (by omega) h).reserve_keeps hsmall hplain

/-- A buffer of two with one item, grown to four. -/
theorem one_item_in_two_slots_is_kept :
    ∃ s : session Nat, s.queue = [1] ∧ reserve_keeps 2 id s 4 := by
  have hreach : transition.Reachable ((sessions 2 (fun _ => 0) id).guarded (fits 2))
      (⟨⟨0, 1, 1, 2, [1, 0]⟩, [1], [1], []⟩ : session Nat) := by
    refine ⟨session.start 2 fun _ => 0, [.push_back 1], rfl, ?_⟩
    apply transition.Run.machine_guarded (.nil _)
    decide +kernel
  exact ⟨_, rfl, (reserve_keeps_what_starts_at_the_first_slot 2 (by decide) _ id _ hreach 4).mpr
    ⟨by decide, .inr (.inr ⟨rfl, by decide⟩)⟩⟩

/-- A full buffer of two, grown to four: the next item is written over the front. -/
theorem a_full_buffer_loses_its_front :
    ∃ s : session Nat, transition.Reachable ((sessions 2 (fun _ => 0) id).guarded (fits 2)) s ∧
      s.queue = [1, 2] ∧ ¬ reserve_keeps 2 id s 4 := by
  refine ⟨⟨⟨0, 0, 2, 2, [1, 2]⟩, [1, 2], [1, 2], []⟩,
    ⟨session.start 2 fun _ => 0, [.push_many [1, 2]], rfl, ?_⟩, rfl, ?_⟩
  · apply transition.Run.machine_guarded (.nil _)
    decide +kernel
  · intro hkeeps
    obtain ⟨b, hb, -, -, -, hgoes⟩ := hkeeps fun _ => 0
    cases hb
    have hreach : transition.Reachable ((resumed 4 id ⟨0, 0, 2, 4, [1, 2, 0, 0]⟩ [1, 2]).guarded
        (fits 4)) (⟨⟨0, 1, 3, 4, [3, 2, 0, 0]⟩, [1, 2, 3], [3], []⟩ : session Nat) := by
      refine ⟨session.resume ⟨0, 0, 2, 4, [1, 2, 0, 0]⟩ [1, 2], [.push_back 3], rfl, ?_⟩
      apply transition.Run.machine_guarded (.nil _)
      decide +kernel
    obtain ⟨b', hfront⟩ := hgoes _ hreach .front (.item 1) (by decide) rfl
    cases hfront

end strangeio.buffer.circular
