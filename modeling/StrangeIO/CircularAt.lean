-- The items of a circular buffer by position: `at` takes the remainder of the
-- position only, so that it reads past the last slot where the buffer has come
-- round, and it lets the position just behind the items pass.
import StrangeIO.CircularIndex

namespace strangeio.buffer.circular

variable {α : Type}

/-- The slot that the next pop takes after `k` pops, and the item there. -/
def popped_at (k : Nat) (b : circular α) : Option (Nat × α) := do
  let (_, b) ← take_many copy_front k b
  let (n, _) ← b.decrement
  (b.load n).map fun item => (n, item)

/-- A position that is held refers to what is popped there, below the capacity,
and another one throws. -/
def at_agrees (c : Nat) (b : circular α) (pos : Nat) : Prop :=
  (pos < b.size → ∃ slot, b.popped_at pos = some slot ∧ slot.1 < c ∧
    b.at_ pos = some (.ok slot) ∧ b.subscript pos = some (.ok slot)) ∧
  (b.size ≤ pos → ∃ text, b.at_ pos = some (.error text) ∧ b.subscript pos = some (.error text))

theorem take_many_copy_buffer {b b' : circular α} {count : Nat} {xs : List α}
    (h : take_many copy_front count b = some (xs, b')) : b'.m_buffer = b.m_buffer := by
  induction count generalizing b xs with
  | zero =>
    cases h
    rfl
  | succ count ih =>
    obtain ⟨⟨x, b1⟩, hone, hrest⟩ := Option.bind_eq_some_iff.mp h
    obtain ⟨⟨ys, b2⟩, hmany, heq⟩ := Option.bind_eq_some_iff.mp hrest
    cases heq
    obtain ⟨⟨n, b3⟩, hdown, hload⟩ := Option.bind_eq_some_iff.mp hone
    obtain ⟨y, -, heq⟩ := Option.bind_eq_some_iff.mp hload
    cases heq
    rw [ih hmany]
    unfold decrement at hdown
    split at hdown
    · cases hdown
    · cases hdown
      rfl

section positions

variable {c : Nat} {b : circular α} {pos : Nat}

theorem Placed.load (h : Placed c b) {n : Nat} (hn : n < slots c) : ∃ x, b.load n = some x := by
  have hlt : n < b.m_buffer.length := by
    rw [h.length]
    exact hn.trans_le (slots_le c)
  exact ⟨b.m_buffer[n], List.getElem?_eq_getElem hlt⟩

/-- The pops go on slot by slot, round the slots that the positions reach. -/
theorem Placed.popped_at (h : Placed c b) (hsize : b.m_size < u64) (k : Nat) :
    ∃ x, b.load ((b.m_start + k) % slots c) = some x ∧
      b.popped_at k = some ((b.m_start + k) % slots c, x) := by
  obtain ⟨x, hx⟩ := h.load (Nat.mod_lt (b.m_start + k) (slots_pos h.pos))
  obtain ⟨xs, b', hmany, h', hempties⟩ := h.take_many turns_copy_front hsize k
  have hbuffer := take_many_copy_buffer hmany
  refine ⟨x, hx, ?_⟩
  unfold circular.load at hx
  unfold circular.popped_at circular.load
  simp only [hmany, h'.decrement, Option.bind_eq_bind, Option.bind_some, hempties.start, hbuffer,
    hx, Option.map_some]

/-- Where `at` does not throw, it takes the remainder of the position alone. -/
theorem Placed.at_ (h : Placed c b) (hpos : pos ≤ b.m_size) :
    b.at_ pos = (b.load ((b.m_start + pos % c) % u64)).map
      fun item => .ok ((b.m_start + pos % c) % u64, item) := by
  have hc := h.pos
  unfold circular.at_
  rw [if_neg (by omega), if_neg (by rw [h.capacity]; omega), h.capacity]

/-- The slot of `at` is the one that is popped where it is one that the positions reach. -/
theorem slot_of_position (hstart : b.m_start < slots c) (hpos : pos < c) (hc' : c < u64) :
    (b.m_start + pos) % u64 < slots c ↔
      (b.m_start + pos) % u64 = (b.m_start + pos) % slots c := by
  have hpositive : 0 < slots c := Nat.zero_lt_of_lt hstart
  constructor
  · intro hlt
    rcases Nat.lt_or_ge (b.m_start + pos) u64 with hsmall | hlarge
    · rw [Nat.mod_eq_of_lt hsmall] at hlt ⊢
      exact (Nat.mod_eq_of_lt hlt).symm
    · have hslots : slots c = memory.u32 := by
        apply Nat.min_eq_right
        have := slots_le_u32 c
        unfold memory.u32 u64 at *
        omega
      rw [hslots] at hstart hlt ⊢
      unfold memory.u32 u64 at *
      omega
  · intro heq
    rw [heq]
    exact Nat.mod_lt _ hpositive

end positions

/-- **A position agrees with the pops just when it is held and its slot does not come
round**, or when it is beyond the one behind the items. -/
theorem a_position_agrees_before_the_buffer_comes_round (c : Nat) (hc : 1 ≤ c) (hc' : c < u64)
    (raw : Nat → α) (moved : α → α) (s : session α)
    (h : transition.Reachable ((sessions c raw moved).guarded (fits c)) s) (pos : Nat) :
    at_agrees c s.circ pos ↔
      (pos < s.circ.size ∧ (s.circ.m_start + pos) % u64 < slots c) ∨ s.circ.size < pos := by
  obtain ⟨hplaced, hsize⟩ := placed_reachable hc hc' h
  unfold at_agrees size
  rcases Nat.lt_trichotomy pos s.circ.m_size with hpos | hpos | hpos
  · have hheld : pos < c := hpos.trans_le hsize
    have hiff := slot_of_position hplaced.start hheld hc'
    obtain ⟨x, hx, hpopped⟩ := hplaced.popped_at (hsize.trans_lt hc') pos
    have hat := hplaced.at_ (Nat.le_of_lt hpos)
    rw [Nat.mod_eq_of_lt hheld] at hat
    constructor
    · rintro ⟨hin, -⟩
      obtain ⟨slot, hslot, -, hread, -⟩ := hin hpos
      rw [hpopped] at hslot
      cases hslot
      rw [hat] at hread
      obtain ⟨y, -, heq⟩ := Option.map_eq_some_iff.mp hread
      simp only [Except.ok.injEq, Prod.mk.injEq] at heq
      exact .inl ⟨hpos, hiff.mpr heq.1⟩
    · intro hcond
      obtain ⟨-, hlt⟩ := hcond.resolve_right (by omega)
      have hslot := hiff.mp hlt
      rw [hslot, hx] at hat
      have hbelow : (s.circ.m_start + pos) % slots c < c :=
        (Nat.mod_lt _ (slots_pos hc)).trans_le (slots_le c)
      exact ⟨fun _ => ⟨_, hpopped, hbelow, hat, hat⟩, fun hle => absurd hle (by omega)⟩
  · have hat := hplaced.at_ (Nat.le_of_eq hpos)
    constructor
    · rintro ⟨-, hout⟩
      obtain ⟨text, hthrow, -⟩ := hout (by omega)
      rw [hat] at hthrow
      obtain ⟨y, -, heq⟩ := Option.map_eq_some_iff.mp hthrow
      cases heq
    · intro hcond
      omega
  · have hthrow : s.circ.at_ pos =
        some (.error "Position out of range [siobuf::ciruclar]") := by
      unfold circular.at_
      rw [if_pos hpos]
    exact iff_of_true ⟨fun hlt => absurd hlt (by omega), fun _ => ⟨_, hthrow, hthrow⟩⟩ (.inr hpos)

/-- The one item of a buffer that starts at its last slot. -/
theorem the_last_slot_agrees :
    ∃ s : session Nat, s.queue = [2] ∧ s.circ.m_start = 1 ∧ at_agrees 2 s.circ 0 := by
  have hreach : transition.Reachable ((sessions 2 (fun _ => 0) id).guarded (fits 2))
      (⟨⟨1, 0, 1, 2, [1, 2]⟩, [2], [1, 2], [1]⟩ : session Nat) := by
    refine ⟨session.start 2 fun _ => 0, [.push_many [1, 2], .pop_front], rfl, ?_⟩
    apply transition.Run.machine_guarded (.nil _)
    decide +kernel
  exact ⟨_, rfl, rfl, (a_position_agrees_before_the_buffer_comes_round 2 (by decide) (by decide) _
    id _ hreach 0).mpr (.inl ⟨by decide, by decide⟩)⟩

/-- The second item of a buffer of two that starts at its last slot is looked for
behind it. -/
theorem the_second_item_is_out_of_the_buffer :
    ∃ s : session Nat, transition.Reachable ((sessions 2 (fun _ => 0) id).guarded (fits 2)) s ∧
      s.queue = [2, 3] ∧ s.circ.at_ 1 = none ∧ ¬ at_agrees 2 s.circ 1 := by
  refine ⟨⟨⟨1, 1, 2, 2, [3, 2]⟩, [2, 3], [1, 2, 3], [1]⟩,
    ⟨session.start 2 fun _ => 0, [.push_many [1, 2], .pop_front, .push_back 3], rfl, ?_⟩, rfl, rfl,
    ?_⟩
  · apply transition.Run.machine_guarded (.nil _)
    decide +kernel
  · rintro ⟨hin, -⟩
    obtain ⟨slot, -, -, hread, -⟩ := hin (by decide)
    cases hread

end strangeio.buffer.circular
