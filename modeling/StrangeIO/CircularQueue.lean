-- The circular buffer beside a queue: while it is not over-filled it is one,
-- oldest item first. A push onto a full buffer does not advance the start, so
-- that it drops the oldest items only where it goes round whole times.
import Mathlib.Data.Nat.ModEq
import StrangeIO.BoundedQueue
import StrangeIO.Circular

namespace strangeio.buffer.circular

variable {α : Type}

/-! ## The slots -/

/-- The number of slots that an `unsigned int` reaches in a buffer of capacity `c`. -/
def slots (c : Nat) : Nat := min c memory.u32

theorem slots_le (c : Nat) : slots c ≤ c := Nat.min_le_left _ _

theorem slots_le_u32 (c : Nat) : slots c ≤ memory.u32 := Nat.min_le_right _ _

theorem slots_eq {c : Nat} (hc : c ≤ memory.u32) : slots c = c := Nat.min_eq_left hc

theorem one_lt_u32 : 1 < memory.u32 := by decide

theorem u32_lt_u64 : memory.u32 < u64 := by decide

theorem slots_pos {c : Nat} (hc : 1 ≤ c) : 0 < slots c :=
  Nat.lt_min.mpr ⟨hc, Nat.zero_lt_of_lt one_lt_u32⟩

/-- The next position wraps at the capacity, or as an `unsigned int` does. -/
theorem next_of_slots {c e : Nat} (h : e < slots c) :
    (e + 1) % memory.u32 % c = (e + 1) % slots c := by
  unfold slots at h ⊢
  by_cases hlast : e + 1 < min c memory.u32
  · rw [Nat.mod_eq_of_lt (by omega : e + 1 < memory.u32), Nat.mod_eq_of_lt (by omega : e + 1 < c),
      Nat.mod_eq_of_lt hlast]
  · have he : e + 1 = min c memory.u32 := by omega
    rw [← he, Nat.mod_self]
    rcases Nat.le_total c memory.u32 with hle | hle
    · have hc : e + 1 = c := by omega
      subst hc
      rcases Nat.lt_or_ge (e + 1) memory.u32 with hlt | hge
      · rw [Nat.mod_eq_of_lt hlt, Nat.mod_self]
      · rw [show e + 1 = memory.u32 by omega, Nat.mod_self, Nat.zero_mod]
    · rw [show e + 1 = memory.u32 by omega, Nat.mod_self, Nat.zero_mod]

/-- The items of a buffer from its front to its back. -/
def contents (b : circular α) : List (Option α) :=
  (List.range b.m_size).map fun i => b.load ((b.m_start + i) % slots b.m_capacity)

/-! ## The items that a buffer holds -/

/-- The buffer of capacity `c` holds the items of `q`, the oldest at its start. -/
structure Holds (c : Nat) (b : circular α) (q : List α) : Prop where
  capacity : b.m_capacity = c
  length : b.m_buffer.length = c
  size : b.m_size = q.length
  room : q.length ≤ slots c
  start : b.m_start < slots c
  ends : b.m_end = (b.m_start + q.length) % slots c
  cells : ∀ i, i < q.length → b.m_buffer[(b.m_start + i) % slots c]? = q[i]?

/-- The items of `w` were stored from the start of the buffer on, round its slots, of which
there stand the last ones. -/
structure Stored (c : Nat) (b : circular α) (w : List α) : Prop where
  capacity : b.m_capacity = c
  length : b.m_buffer.length = c
  size : b.m_size = min w.length c
  start : b.m_start < slots c
  ends : b.m_end = (b.m_start + w.length) % slots c
  cells : ∀ i, i < w.length → w.length ≤ i + slots c →
    b.m_buffer[(b.m_start + i) % slots c]? = w[i]?

theorem slot_inj {c s i j : Nat} (hi : i < c) (hj : j < c) (h : (s + i) % c = (s + j) % c) :
    i = j := by
  have hmod : Nat.ModEq c i j := Nat.ModEq.add_left_cancel' s h
  rwa [Nat.ModEq, Nat.mod_eq_of_lt hi, Nat.mod_eq_of_lt hj] at hmod

/-- Items that are closer to each other than a round stand in slots of their own. -/
theorem slot_ne {c s i j : Nat} (hij : i < j) (hj : j < i + c) : (s + j) % c ≠ (s + i) % c := by
  intro h
  have hmod : Nat.ModEq c i j := (Nat.ModEq.add_left_cancel' s h).symm
  have hdvd : c ∣ j - i := (Nat.modEq_iff_dvd' (Nat.le_of_lt hij)).mp hmod
  have := Nat.le_of_dvd (by omega) hdvd
  omega

theorem holds_new {c : Nat} (hc : 1 ≤ c) (raw : Nat → α) : Holds c (new c raw) [] where
  capacity := rfl
  length := by simp [new]
  size := rfl
  room := Nat.zero_le _
  start := slots_pos hc
  ends := (Nat.zero_mod _).symm
  cells i hi := by cases hi

theorem size_down {n : Nat} (h : n + 1 < u64) : (n + 1 + (u64 - 1)) % u64 = n := by
  unfold u64 at h ⊢
  omega

section stores

variable {c : Nat} {b : circular α} {q w : List α}

theorem Holds.stored (h : Holds c b q) : Stored c b q where
  capacity := h.capacity
  length := h.length
  size := by
    have hroom := h.room
    have hslots := slots_le c
    rw [h.size]
    omega
  start := h.start
  ends := h.ends
  cells i hi _ := h.cells i hi

/-- The buffer holds what was stored, where there was room for it. -/
theorem Stored.holds (h : Stored c b w) (hroom : w.length ≤ slots c) : Holds c b w where
  capacity := h.capacity
  length := h.length
  size := by
    have hslots := slots_le c
    rw [h.size]
    omega
  room := hroom
  start := h.start
  ends := h.ends
  cells i hi := h.cells i hi (by omega)

/-- A buffer that was gone round whole times holds the last items. -/
theorem Stored.holds_last (h : Stored c b w) (hc : c ≤ memory.u32) (hround : c ∣ w.length)
    (hfull : c ≤ w.length) : Holds c b (w.drop (w.length - c)) := by
  have hslots := slots_eq hc
  have hrest : c ∣ w.length - c := Nat.dvd_sub hround (Nat.dvd_refl c)
  obtain ⟨k, hk⟩ := hrest
  have hlength : (w.drop (w.length - c)).length = c := by
    rw [List.length_drop]
    omega
  constructor
  · exact h.capacity
  · exact h.length
  · rw [h.size, hlength]
    omega
  · rw [hlength, hslots]
  · exact h.start
  · have htotal : b.m_start + w.length = b.m_start + c + c * k := by omega
    rw [h.ends, hlength, hslots, htotal, Nat.add_mul_mod_self_left]
  · intro i hi
    rw [hlength] at hi
    have hslot : (b.m_start + i) % slots c = (b.m_start + (w.length - c + i)) % slots c := by
      have hwhole : b.m_start + (w.length - c + i) = b.m_start + i + c * k := by omega
      rw [hslots, hwhole, Nat.add_mul_mod_self_left]
    rw [hslot, h.cells (w.length - c + i) (by omega) (by omega), List.getElem?_drop]

theorem Stored.end_lt (h : Stored c b w) : b.m_end < slots c := by
  rw [h.ends]
  apply Nat.mod_lt
  have := h.start
  omega

/-- The end goes on by one, and the size up to the capacity. -/
theorem Stored.increment (h : Stored c b w) (hwrap : w.length + 1 < u64) :
    b.increment = some (b.m_end,
      { b with m_end := (b.m_end + 1) % slots c, m_size := min (w.length + 1) c }) := by
  have hstart := h.start
  have hslots := slots_le c
  have hsize : (b.m_size + 1) % u64 = min w.length c + 1 := by
    rw [h.size]
    exact Nat.mod_eq_of_lt (by omega)
  have hmin : (if c < min w.length c + 1 then c else min w.length c + 1) =
      min (w.length + 1) c := by
    split <;> omega
  unfold circular.increment
  rw [if_neg (by rw [h.capacity]; omega), h.capacity, hsize, next_of_slots h.end_lt]
  simp only [hmin]

/-- A push stores its item behind the others. -/
theorem Stored.push_back (h : Stored c b w) (hwrap : w.length + 1 < u64) (x : α) :
    ∃ b', b.push_back x = some b' ∧ Stored c b' (w ++ [x]) := by
  have hslots := slots_le c
  have hend : b.m_end < b.m_buffer.length := by
    rw [h.length]
    exact h.end_lt.trans_le hslots
  refine ⟨{ b with
    m_end := (b.m_end + 1) % slots c
    m_size := min (w.length + 1) c
    m_buffer := b.m_buffer.set b.m_end x }, ?_, ?_⟩
  · unfold circular.push_back
    rw [h.increment hwrap]
    simp only [Option.bind_eq_bind, Option.bind_some]
    unfold store
    rw [if_pos hend]
  · constructor
    · exact h.capacity
    · simp [h.length]
    · simp
    · exact h.start
    · simp only [List.length_append, List.length_singleton]
      rw [h.ends, Nat.mod_add_mod, Nat.add_assoc]
    · intro i hi hlast
      simp only [List.length_append, List.length_singleton] at hi hlast
      simp only
      rcases Nat.lt_or_ge i w.length with hlt | hge
      · rw [List.getElem?_set_ne, h.cells i hlt (by omega), List.getElem?_append_left hlt]
        rw [h.ends]
        exact slot_ne hlt (by omega)
      · obtain rfl : i = w.length := by omega
        rw [← h.ends, List.getElem?_set_self hend]
        simp

theorem Stored.push_all (h : Stored c b w) {xs : List α} (hwrap : w.length + xs.length < u64) :
    ∃ b', xs.foldlM (fun b item => b.push_back item) b = some b' ∧ Stored c b' (w ++ xs) := by
  induction xs generalizing b w with
  | nil => exact ⟨b, rfl, by rwa [List.append_nil]⟩
  | cons x xs ih =>
    simp only [List.length_cons] at hwrap
    obtain ⟨b1, hone, h1⟩ := h.push_back (by omega) x
    obtain ⟨b2, hrest, h2⟩ := ih h1 (by simp; omega)
    refine ⟨b2, ?_, ?_⟩
    · rw [List.foldlM_cons, hone]
      exact hrest
    · rwa [List.append_assoc] at h2

end stores

/-- Items have room behind those that are there, or go round the buffer whole times. -/
def comes_round (c n k : Nat) : Prop := n + k ≤ slots c ∨ c ≤ memory.u32 ∧ c ∣ n + k

instance (c n k : Nat) : Decidable (comes_round c n k) := inferInstanceAs (Decidable (_ ∨ _))

section steps

variable {c : Nat} {b : circular α} {q : List α}

/-- The start goes on by one, and the size down. -/
theorem Holds.decrement {x : α} (h : Holds c b (x :: q)) :
    b.decrement = some (b.m_start,
      { b with m_start := (b.m_start + 1) % slots c, m_size := q.length }) := by
  have hstart := h.start
  have hroom := h.room
  have hslots := slots_le c
  have h32 := slots_le_u32 c
  have h64 := u32_lt_u64
  simp only [List.length_cons] at hroom
  unfold circular.decrement
  rw [if_neg (by rw [h.capacity]; omega), h.capacity, next_of_slots hstart, h.size,
    List.length_cons, size_down (by omega)]

/-- The pushes of the queue, where there is room for them or they go round whole times. -/
theorem Holds.push_all (h : Holds c b q) {xs : List α} (hchunk : xs.length < memory.u32)
    (hfits : comes_round c q.length xs.length) :
    ∃ b', xs.foldlM (fun b item => b.push_back item) b = some b' ∧
      Holds c b' (bounded.pushAll c q xs) := by
  have hstart := h.start
  have hroom := h.room
  have hslots := slots_le c
  have h32 := slots_le_u32 c
  have hwrap : q.length + xs.length < u64 := by
    unfold memory.u32 u64 at *
    omega
  obtain ⟨b', hb', hstored⟩ := h.stored.push_all hwrap
  refine ⟨b', hb', ?_⟩
  rcases Nat.lt_or_ge (slots c) (q.length + xs.length) with hover | hroom'
  · -- only whole rounds are left
    obtain ⟨hc, hround⟩ := hfits.resolve_left (by omega)
    rw [slots_eq hc] at hover hroom
    rw [bounded.pushAll_eq_drop (by omega) hroom, ← List.length_append]
    rw [← List.length_append] at hround hover
    exact hstored.holds_last hc hround (by omega)
  · rw [bounded.pushAll_room (by omega)]
    exact hstored.holds (by rwa [List.length_append])

/-- What leaves the buffer is the oldest item. -/
theorem Holds.load_front {x : α} (h : Holds c b (x :: q)) : b.load b.m_start = some x := by
  have hcell := h.cells 0 (by simp)
  rwa [Nat.add_zero, Nat.mod_eq_of_lt h.start] at hcell

/-- A buffer whose start has gone on, and whose live slots are as they were. -/
theorem Holds.drop {x : α} (h : Holds c b (x :: q)) (cells : List α)
    (hlength : cells.length = b.m_buffer.length)
    (hcells : ∀ n, n ≠ b.m_start → cells[n]? = b.m_buffer[n]?) :
    Holds c { b with
      m_start := (b.m_start + 1) % slots c
      m_size := q.length
      m_buffer := cells } q := by
  have hstart := h.start
  have hroom := h.room
  simp only [List.length_cons] at hroom
  constructor
  · exact h.capacity
  · exact hlength.trans h.length
  · rfl
  · omega
  · apply Nat.mod_lt
    omega
  · simp only
    rw [h.ends, List.length_cons, Nat.mod_add_mod]
    congr 1
    omega
  · intro i hi
    have hslot : ((b.m_start + 1) % slots c + i) % slots c =
        (b.m_start + (i + 1)) % slots c := by
      rw [Nat.mod_add_mod]
      congr 1
      omega
    simp only
    rw [hslot, hcells, h.cells (i + 1) (by simpa using hi)]
    · rfl
    · intro he
      have hzero : (b.m_start + (i + 1)) % slots c = (b.m_start + 0) % slots c := by
        rw [he, Nat.add_zero, Nat.mod_eq_of_lt hstart]
      have := slot_inj (by omega) (by omega) hzero
      omega

theorem Holds.copy_front {x : α} (h : Holds c b (x :: q)) :
    ∃ b', b.copy_front = some (x, b') ∧ Holds c b' q := by
  refine ⟨_, ?_, h.drop b.m_buffer rfl fun n _ => rfl⟩
  unfold circular.copy_front
  rw [h.decrement]
  simp only [Option.bind_eq_bind, Option.bind_some]
  have hload : { b with m_start := (b.m_start + 1) % slots c, m_size := q.length }.load b.m_start =
      some x := h.load_front
  rw [hload]
  rfl

theorem Holds.move_front {x : α} (h : Holds c b (x :: q)) (moved : α → α) :
    ∃ b', b.move_front moved = some (x, b') ∧ Holds c b' q := by
  refine ⟨_, ?_, h.drop (b.m_buffer.set b.m_start (moved x)) (by simp)
    fun n hn => List.getElem?_set_ne hn.symm⟩
  unfold circular.move_front
  rw [h.decrement]
  simp only [Option.bind_eq_bind, Option.bind_some]
  have hload : { b with m_start := (b.m_start + 1) % slots c, m_size := q.length }.load b.m_start =
      some x := h.load_front
  rw [hload]
  simp only [Option.bind_some]
  unfold store
  rw [if_pos (by simp only [h.length]; exact h.start.trans_le (slots_le c))]
  rfl

/-- The loop takes the oldest items one by one. -/
theorem Holds.take_many {turn : circular α → Option (α × circular α)}
    (hturn : ∀ {b : circular α} {q : List α} {x : α}, Holds c b (x :: q) →
      ∃ b', turn b = some (x, b') ∧ Holds c b' q)
    (h : Holds c b q) {count : Nat} (hcount : count ≤ q.length) :
    ∃ b', circular.take_many turn count b = some (q.take count, b') ∧
      Holds c b' (q.drop count) := by
  induction count generalizing b q with
  | zero => exact ⟨b, rfl, h⟩
  | succ count ih =>
    match q, h with
    | [], h => simp at hcount
    | x :: q, h =>
      obtain ⟨b1, hone, h1⟩ := hturn h
      obtain ⟨b2, hrest, h2⟩ := ih h1 (by simpa using hcount)
      refine ⟨b2, ?_, h2⟩
      unfold circular.take_many
      rw [hone]
      simp only [Option.bind_eq_bind, Option.bind_some]
      rw [hrest]
      rfl

end steps

end strangeio.buffer.circular
