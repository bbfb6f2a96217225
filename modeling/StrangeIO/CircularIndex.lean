-- The positions of the circular buffer over whole runs of calls: the size and
-- the end stay in step with the start until a call takes more than there is,
-- or pushes more than there is room for.
import StrangeIO.CircularLaws

namespace strangeio.buffer.circular

variable {α : Type}

/-! ## The positions -/

/-- The positions of a buffer of capacity `c` agree. -/
structure Indexed (c : Nat) (b : circular α) : Prop where
  capacity : b.m_capacity = c
  size : b.m_size ≤ c
  start : b.m_start < c
  end_lt : b.m_end < c
  ends : b.m_end = (b.m_start + b.m_size) % c

/-- The positions are among those that an `unsigned int` reaches. -/
structure Placed (c : Nat) (b : circular α) : Prop where
  capacity : b.m_capacity = c
  length : b.m_buffer.length = c
  start : b.m_start < slots c
  ends : b.m_end < slots c

/-- From `b` to `b'`, `k` items were pushed. -/
structure Fills (c k : Nat) (b b' : circular α) : Prop where
  start : b'.m_start = b.m_start
  ends : b'.m_end = (b.m_end + k) % slots c
  size : b'.m_size = min (b.m_size + k) c

/-- From `b` to `b'`, `k` items were taken, with a size that wraps. -/
structure Empties (c k : Nat) (b b' : circular α) : Prop where
  start : b'.m_start = (b.m_start + k) % slots c
  ends : b'.m_end = b.m_end
  wraps : b'.m_size < u64
  size : (b'.m_size + k) % u64 = b.m_size

theorem placed_new {c : Nat} (hc : 1 ≤ c) (raw : Nat → α) : Placed c (new c raw) where
  capacity := rfl
  length := by simp [new]
  start := slots_pos hc
  ends := slots_pos hc

section steps

variable {c : Nat} {b : circular α}

theorem Placed.pos (h : Placed c b) : 0 < c := by
  have := h.start
  have := slots_le c
  omega

theorem Placed.increment (h : Placed c b) (hsize : b.m_size ≤ c) (hwrap : b.m_size + 1 < u64) :
    b.increment = some (b.m_end,
      { b with m_end := (b.m_end + 1) % slots c, m_size := min (b.m_size + 1) c }) := by
  have hpos := h.pos
  have hmin : (if c < b.m_size + 1 then c else b.m_size + 1) = min (b.m_size + 1) c := by
    split
    · omega
    · omega
  unfold circular.increment
  rw [if_neg (by rw [h.capacity]; omega), h.capacity, Nat.mod_eq_of_lt hwrap,
    next_of_slots h.ends]
  simp only [hmin]

theorem Placed.decrement (h : Placed c b) :
    b.decrement = some (b.m_start,
      { b with m_start := (b.m_start + 1) % slots c, m_size := (b.m_size + (u64 - 1)) % u64 }) := by
  have hpos := h.pos
  unfold circular.decrement
  rw [if_neg (by rw [h.capacity]; omega), h.capacity, next_of_slots h.start]

theorem Placed.push_back (h : Placed c b) (hsize : b.m_size ≤ c) (hwrap : b.m_size + 1 < u64)
    (x : α) : ∃ b', b.push_back x = some b' ∧ Placed c b' ∧ Fills c 1 b b' := by
  have hend : b.m_end < b.m_buffer.length := by
    rw [h.length]
    exact h.ends.trans_le (slots_le c)
  refine ⟨{ b with
    m_end := (b.m_end + 1) % slots c
    m_size := min (b.m_size + 1) c
    m_buffer := b.m_buffer.set b.m_end x }, ?_, ?_, ⟨rfl, rfl, rfl⟩⟩
  · unfold circular.push_back
    rw [h.increment hsize hwrap]
    simp only [Option.bind_eq_bind, Option.bind_some]
    unfold store
    rw [if_pos hend]
  · refine ⟨h.capacity, by simp [h.length], h.start, ?_⟩
    exact Nat.mod_lt _ (slots_pos h.pos)

theorem Fills.trans {j k : Nat} {b1 b2 : circular α} (h : Fills c j b b1) (g : Fills c k b1 b2) :
    Fills c (j + k) b b2 := by
  refine ⟨g.start.trans h.start, ?_, ?_⟩
  · rw [g.ends, h.ends, Nat.mod_add_mod, Nat.add_assoc]
  · rw [g.size, h.size]
    omega

theorem Placed.push_all (h : Placed c b) (hsize : b.m_size ≤ c) {xs : List α}
    (hwrap : b.m_size + xs.length < u64) :
    ∃ b', xs.foldlM (fun b item => b.push_back item) b = some b' ∧ Placed c b' ∧
      Fills c xs.length b b' := by
  induction xs generalizing b with
  | nil =>
    refine ⟨b, rfl, h, rfl, ?_, ?_⟩
    · exact (Nat.mod_eq_of_lt h.ends).symm
    · exact (Nat.min_eq_left hsize).symm
  | cons x xs ih =>
    simp only [List.length_cons] at hwrap
    obtain ⟨b1, hone, h1, hfill⟩ := h.push_back hsize (by omega) x
    have hsize1 := hfill.size
    obtain ⟨b2, hrest, h2, hfills⟩ := ih h1 (by omega) (by omega)
    refine ⟨b2, ?_, h2, ?_⟩
    · rw [List.foldlM_cons, hone]
      exact hrest
    · rw [List.length_cons, Nat.add_comm]
      exact hfill.trans hfills

/-- One turn down: the size wraps below zero. -/
theorem empties_one (cells : List α) (hsize : b.m_size < u64) :
    Empties c 1 b { b with
      m_start := (b.m_start + 1) % slots c
      m_size := (b.m_size + (u64 - 1)) % u64
      m_buffer := cells } := by
  refine ⟨rfl, rfl, Nat.mod_lt _ (by decide), ?_⟩
  unfold u64 at hsize ⊢
  simp only
  omega

theorem Empties.trans {j k : Nat} {b1 b2 : circular α} (h : Empties c j b b1)
    (g : Empties c k b1 b2) : Empties c (j + k) b b2 := by
  refine ⟨?_, g.ends.trans h.ends, g.wraps, ?_⟩
  · rw [g.start, h.start, Nat.mod_add_mod, Nat.add_assoc]
  · have h1 := h.size
    have h2 := g.size
    unfold u64 at h1 h2 ⊢
    omega

/-- Where nothing is done, nothing is taken. -/
theorem Placed.stays (h : Placed c b) (hsize : b.m_size < u64) : Empties c 0 b b :=
  ⟨(Nat.mod_eq_of_lt h.start).symm, rfl, hsize, Nat.mod_eq_of_lt hsize⟩

/-- A turn of a loop that takes items. -/
def Turns (c : Nat) (turn : circular α → Option (α × circular α)) : Prop :=
  ∀ b, Placed c b → b.m_size < u64 →
    ∃ x b', turn b = some (x, b') ∧ Placed c b' ∧ Empties c 1 b b'

theorem turns_copy_front : Turns c (α := α) copy_front := by
  intro b h hsize
  have hlt : b.m_start < b.m_buffer.length := by
    rw [h.length]
    exact h.start.trans_le (slots_le c)
  refine ⟨b.m_buffer[b.m_start], _, ?_, ?_, empties_one b.m_buffer hsize⟩
  · unfold circular.copy_front
    rw [h.decrement]
    simp [load, hlt]
  · exact ⟨h.capacity, h.length, Nat.mod_lt _ (slots_pos h.pos), h.ends⟩

theorem turns_move_front (moved : α → α) : Turns c (move_front moved) := by
  intro b h hsize
  have hlt : b.m_start < b.m_buffer.length := by
    rw [h.length]
    exact h.start.trans_le (slots_le c)
  refine ⟨b.m_buffer[b.m_start], _, ?_, ?_,
    empties_one (b.m_buffer.set b.m_start (moved b.m_buffer[b.m_start])) hsize⟩
  · unfold circular.move_front
    rw [h.decrement]
    simp [load, store, hlt]
  · exact ⟨h.capacity, by simp [h.length], Nat.mod_lt _ (slots_pos h.pos), h.ends⟩

theorem Placed.take_many {turn : circular α → Option (α × circular α)} (hturn : Turns c turn)
    (h : Placed c b) (hsize : b.m_size < u64) (count : Nat) :
    ∃ xs b', circular.take_many turn count b = some (xs, b') ∧ Placed c b' ∧
      Empties c count b b' := by
  induction count generalizing b with
  | zero => exact ⟨[], b, rfl, h, h.stays hsize⟩
  | succ count ih =>
    obtain ⟨x, b1, hone, h1, hempty⟩ := hturn b h hsize
    obtain ⟨xs, b2, hrest, h2, hempties⟩ := ih h1 hempty.wraps
    refine ⟨x :: xs, b2, ?_, h2, ?_⟩
    · unfold circular.take_many
      rw [hone]
      simp [hrest]
    · rw [Nat.add_comm]
      exact hempty.trans hempties

end steps

/-! ## The calls -/

/-- The items that a call takes, held or not. -/
def taken (b : circular α) : call α → Nat
  | .move_front => 1
  | o => if b.m_size = 0 then 0 else o.count

theorem taken_le_count (b : circular α) (o : call α) : b.taken o ≤ o.count := by
  cases o <;> simp [taken, call.count] <;> split <;> simp

/-- What a call does to the positions. -/
inductive Moves (c : Nat) (b b' : circular α) (o : call α) : Prop
  | pushes : b.taken o = 0 → o.pushed.length < memory.u32 → Fills c o.pushed.length b b' →
      Moves c b b' o
  | takes : o.pushed = [] → b.taken o < memory.u32 → Empties c (b.taken o) b b' → Moves c b b' o
  | clears : b.taken o = 0 → o.pushed = [] → b' = b.clear → Moves c b b' o

section calls

variable {c : Nat} {b : circular α}

theorem Placed.many {turn : circular α → Option (α × circular α)} (hturn : Turns c turn)
    (h : Placed c b) (hsize : b.m_size < u64) {count : Nat} {xs : List α} {b' : circular α}
    (hb' : b.many turn count = some (xs, b')) :
    Placed c b' ∧ (if b.m_size = 0 then 0 else count) < memory.u32 ∧
      Empties c (if b.m_size = 0 then 0 else count) b b' := by
  unfold circular.many at hb'
  split at hb'
  · rename_i hzero
    cases hb'
    rw [if_pos hzero]
    exact ⟨h, Nat.zero_lt_of_lt one_lt_u32, h.stays hsize⟩
  · rename_i hsome
    rw [if_neg hsome]
    split at hb'
    · rename_i hcount
      obtain ⟨_, b1, hb1, h1, hempty⟩ := h.take_many hturn hsize count
      cases hb'.symm.trans hb1
      exact ⟨h1, hcount, hempty⟩
    · cases hb'

theorem Placed.pop_front (h : Placed c b) (hsize : b.m_size < u64) {b' : circular α}
    (hb' : b.pop_front = some b') :
    Placed c b' ∧ Empties c (if b.m_size = 0 then 0 else 1) b b' := by
  unfold circular.pop_front at hb'
  split at hb'
  · rename_i hzero
    cases hb'
    rw [if_pos hzero]
    exact ⟨h, h.stays hsize⟩
  · rename_i hsome
    rw [h.decrement] at hb'
    cases hb'
    rw [if_neg hsome]
    exact ⟨⟨h.capacity, h.length, Nat.mod_lt _ (slots_pos h.pos), h.ends⟩,
      empties_one b.m_buffer hsize⟩

/-- What each call does to the positions, where the size is not about to wrap. -/
theorem Placed.perform (h : Placed c b) (hsize : b.m_size ≤ c) {moved : α → α} {o : call α}
    (h64 : b.m_size < u64)
    (hwrap : o.pushed.length < memory.u32 → b.m_size + o.pushed.length < u64) {a : answer α}
    {b' : circular α} (hb' : b.perform moved o = some (a, b')) :
    Placed c b' ∧ Moves c b b' o := by
  have hzero : 0 < memory.u32 := Nat.zero_lt_of_lt one_lt_u32
  have hnone : ∀ {o : call α}, o.count = 0 → o ≠ .move_front → b.taken o = 0 := by
    intro o hcount hmove
    cases o <;> simp_all [taken]
  have hstays : ∀ {o : call α}, o.pushed = [] → b.taken o = 0 → Moves c b b o := by
    intro o hpushed htaken
    refine .takes hpushed ?_ ?_
    · rw [htaken]
      exact hzero
    · rw [htaken]
      exact h.stays h64
  cases o with
  | push_back item =>
    obtain ⟨b1, hb1, h1, hfill⟩ := h.push_back hsize (hwrap one_lt_u32) item
    simp [circular.perform, hb1] at hb'
    obtain ⟨-, rfl⟩ := hb'
    exact ⟨h1, .pushes (hnone rfl (by simp)) one_lt_u32 hfill⟩
  | push_many items =>
    simp only [circular.perform, circular.push_many] at hb'
    split at hb'
    · rename_i hcount
      have hroom : b.m_size + items.length < u64 := hwrap hcount
      obtain ⟨b1, hb1, h1, hfills⟩ := h.push_all hsize hroom
      simp [hb1] at hb'
      obtain ⟨-, rfl⟩ := hb'
      exact ⟨h1, .pushes (hnone rfl (by simp)) hcount hfills⟩
    · cases hb'
  | front =>
    obtain ⟨x, -, heq⟩ := Option.map_eq_some_iff.mp hb'
    cases heq
    exact ⟨h, hstays rfl (hnone rfl (by simp))⟩
  | pop_front =>
    obtain ⟨b1, hpop, heq⟩ := Option.map_eq_some_iff.mp hb'
    cases heq
    obtain ⟨h1, hempty⟩ := h.pop_front h64 hpop
    refine ⟨h1, .takes rfl ?_ hempty⟩
    exact (taken_le_count b .pop_front).trans_lt one_lt_u32
  | pop_many count =>
    obtain ⟨⟨xs, b1⟩, hmany, heq⟩ := Option.map_eq_some_iff.mp hb'
    cases heq
    obtain ⟨h1, hcount, hempty⟩ := h.many turns_copy_front h64 hmany
    exact ⟨h1, .takes rfl hcount hempty⟩
  | move_front =>
    obtain ⟨x, b1, hb1, h1, hempty⟩ := turns_move_front moved b h h64
    simp [circular.perform, hb1] at hb'
    obtain ⟨-, rfl⟩ := hb'
    exact ⟨h1, .takes rfl one_lt_u32 hempty⟩
  | move_many count =>
    obtain ⟨⟨xs, b1⟩, hmany, heq⟩ := Option.map_eq_some_iff.mp hb'
    cases heq
    obtain ⟨h1, hcount, hempty⟩ := h.many (turns_move_front moved) h64 hmany
    exact ⟨h1, .takes rfl hcount hempty⟩
  | size =>
    cases hb'
    exact ⟨h, hstays rfl (hnone rfl (by simp))⟩
  | empty =>
    cases hb'
    exact ⟨h, hstays rfl (hnone rfl (by simp))⟩
  | clear =>
    cases hb'
    exact ⟨⟨h.capacity, h.length, slots_pos h.pos, slots_pos h.pos⟩,
      .clears (hnone rfl (by simp)) rfl rfl⟩

end calls

/-! ## Which calls keep the positions -/

/-- The call takes no more than the buffer holds, and pushes no more than there
is room for, but for whole rounds of it; a buffer with more slots than an
`unsigned int` counts is filled in its first round only. -/
def keeps (c : Nat) (b : circular α) (o : call α) : Prop :=
  b.taken o ≤ b.m_size ∧
    if c ≤ memory.u32 then
      b.m_size + o.pushed.length ≤ c ∨ c ∣ b.m_size + o.pushed.length
    else b.m_start + b.m_size + o.pushed.length < memory.u32

instance (c : Nat) (b : circular α) (o : call α) : Decidable (keeps c b o) :=
  inferInstanceAs (Decidable (_ ∧ _))

/-- A buffer with more slots than the positions reach has not come round. -/
def first_round (c : Nat) (b : circular α) : Prop :=
  memory.u32 < c → b.m_start + b.m_size < memory.u32

theorem mod_of_lt_twice {n c : Nat} (h : n < 2 * c) : n % c = n ∨ c ≤ n ∧ n % c = n - c := by
  rcases Nat.lt_or_ge n c with hlt | hge
  · exact .inl (Nat.mod_eq_of_lt hlt)
  · refine .inr ⟨hge, ?_⟩
    rw [Nat.mod_eq_sub_mod hge, Nat.mod_eq_of_lt (by omega)]

section kept

variable {c : Nat} {b b' : circular α} {k : Nat}

theorem Placed.indexed_iff (h : Placed c b) :
    Indexed c b ↔ b.m_size ≤ c ∧ b.m_end = (b.m_start + b.m_size) % c := by
  have hslots := slots_le c
  constructor
  · intro hb
    exact ⟨hb.size, hb.ends⟩
  · rintro ⟨hsize, hends⟩
    exact ⟨h.capacity, hsize, h.start.trans_le hslots, h.ends.trans_le hslots, hends⟩

/-- A push keeps the positions of a small buffer where it has room, or ends where the
buffer started. -/
theorem Fills.indexed_iff (h : Fills c k b b') (hb : Indexed c b) (hb' : Placed c b')
    (hc : c ≤ memory.u32) : Indexed c b' ↔ b.m_size + k ≤ c ∨ c ∣ b.m_size + k := by
  have hslots : slots c = c := Nat.min_eq_left hc
  have hends : b'.m_end = (b.m_start + (b.m_size + k)) % c := by
    rw [h.ends, hslots, hb.ends, Nat.mod_add_mod, Nat.add_assoc]
  have hsize : b'.m_size ≤ c := h.size ▸ Nat.min_le_right _ _
  rw [hb'.indexed_iff, and_iff_right hsize, hends, h.start, h.size]
  rcases Nat.le_total (b.m_size + k) c with hroom | hfull
  · rw [Nat.min_eq_left hroom]
    exact iff_of_true rfl (.inl hroom)
  · rw [Nat.min_eq_right hfull]
    have hround : (b.m_start + (b.m_size + k)) % c = (b.m_start + c) % c ↔ c ∣ b.m_size + k := by
      rw [Nat.add_mod_right]
      constructor
      · intro he
        exact Nat.modEq_zero_iff_dvd.mp (Nat.ModEq.add_left_cancel' b.m_start he)
      · intro hdvd
        exact (Nat.modEq_zero_iff_dvd.mpr hdvd).add_left b.m_start
    rw [hround]
    constructor
    · exact .inr
    · rintro (hroom | hdvd)
      · exact ⟨1, by omega⟩
      · exact hdvd

/-- A push keeps the positions of a large buffer where they do not come round. -/
theorem Fills.indexed_large (h : Fills c k b b') (hb : Indexed c b) (hb' : Placed c b')
    (hc : memory.u32 < c) (hk : k < memory.u32)
    (hround : b.m_start + b.m_size < memory.u32) :
    (Indexed c b' ↔ b.m_start + b.m_size + k < memory.u32) ∧
      (Indexed c b' → b'.m_start + b'.m_size < memory.u32) := by
  have hslots : slots c = memory.u32 := Nat.min_eq_right (Nat.le_of_lt hc)
  have hsum : b.m_end = b.m_start + b.m_size := by
    rw [hb.ends]
    exact Nat.mod_eq_of_lt (hround.trans hc)
  have hstart := h.start
  have hends := h.ends
  have hsize := h.size
  have hplaced := hb'.start
  have htwice := mod_of_lt_twice (n := b'.m_start + b'.m_size) (c := c) (by omega)
  rw [hb'.indexed_iff]
  rw [hslots] at hends hplaced
  unfold memory.u32 at *
  omega

/-- A call that takes items keeps the positions where it takes no more than there are. -/
theorem Empties.indexed_iff (h : Empties c k b b') (hb : Indexed c b) (hb' : Placed c b')
    (hc' : c < u64) (hk : k < memory.u32) (hround : first_round c b) :
    (Indexed c b' ↔ k ≤ b.m_size) ∧ (Indexed c b' → first_round c b') := by
  have hstart := h.start
  have hends := h.ends.trans hb.ends
  have hwraps := h.wraps
  have hsize := h.size
  have hroom := hb.size
  have hplaced := hb'.start
  unfold first_round at hround ⊢
  rw [hb'.indexed_iff]
  rcases Nat.lt_or_ge memory.u32 c with hc | hc
  · have hslots : slots c = memory.u32 := Nat.min_eq_right (Nat.le_of_lt hc)
    have hsum := Nat.mod_eq_of_lt ((hround hc).trans hc)
    rw [hslots] at hstart hplaced
    have htwice : b'.m_size ≤ c → _ := fun hle =>
      mod_of_lt_twice (n := b'.m_start + b'.m_size) (c := c) (by omega)
    rw [hsum] at hends
    unfold memory.u32 u64 at *
    omega
  · have hslots : slots c = c := Nat.min_eq_left hc
    rw [hslots] at hstart
    constructor
    · constructor
      · rintro ⟨hle, -⟩
        unfold memory.u32 u64 at *
        omega
      · intro hk
        have hdown : b'.m_size = b.m_size - k := by
          unfold u64 at *
          omega
        refine ⟨by omega, ?_⟩
        rw [hends, hstart, hdown, Nat.mod_add_mod]
        congr 1
        omega
    · intro _ hlt
      omega

/-- A call keeps the positions just when it is one that does. -/
theorem Moves.indexed_iff {o : call α} (h : Moves c b b' o) (hb : Indexed c b)
    (hb' : Placed c b') (hc' : c < u64) (hround : first_round c b) :
    (Indexed c b' ↔ keeps c b o) ∧ (Indexed c b' → first_round c b') := by
  have hroom := hb.size
  unfold keeps
  cases h with
  | pushes htaken hcount hfills =>
    rw [htaken, and_iff_right (Nat.zero_le _)]
    by_cases hc : c ≤ memory.u32
    · rw [if_pos hc]
      exact ⟨hfills.indexed_iff hb hb' hc, fun _ hlt => absurd hlt (by omega)⟩
    · rw [if_neg hc]
      have hc : memory.u32 < c := by omega
      obtain ⟨hiff, hkept⟩ := hfills.indexed_large hb hb' hc hcount (hround hc)
      exact ⟨hiff, fun hi _ => hkept hi⟩
  | takes hpushed hcount hempties =>
    obtain ⟨hiff, hkept⟩ := hempties.indexed_iff hb hb' hc' hcount hround
    refine ⟨hiff.trans (and_iff_left ?_).symm, hkept⟩
    rw [hpushed]
    split
    · exact .inl hroom
    · exact hround (by omega)
  | clears htaken hpushed heq =>
    have hzero : Indexed c b' := by
      rw [hb'.indexed_iff, heq]
      simp [clear]
    refine ⟨iff_of_true hzero ⟨by omega, ?_⟩, fun _ hlt => ?_⟩
    · rw [hpushed]
      split
      · exact .inl hroom
      · exact hround (by omega)
    · rw [heq]
      exact Nat.zero_lt_of_lt one_lt_u32

end kept

/-! ## Whole runs -/

/-- The calls on a new buffer. -/
def calls (c : Nat) (raw : Nat → α) (moved : α → α) : transition.System (circular α) (call α) :=
  transition.machine (· = new c raw) fun b o => (b.perform moved o).map Prod.snd

/-- **The size and the positions agree throughout a run just when no call in it takes
more than there is, or pushes past the room that there is.** -/
theorem the_positions_agree_until_a_call_overruns (c : Nat) (hc : 1 ≤ c) (hc' : c < u64)
    (raw : Nat → α) (moved : α → α) :
    Indexed c (new c raw) ∧ ∀ os b,
      transition.Run ((calls c raw moved).within (Indexed c)) (new c raw) os b ↔
        transition.Run ((calls c raw moved).guarded (keeps c)) (new c raw) os b := by
  have hplaced := placed_new hc raw
  have hindexed : Indexed c (new c raw) := by
    rw [hplaced.indexed_iff]
    simp [new]
  refine ⟨hindexed, fun os b => ?_⟩
  apply transition.run_within_iff
    (I := fun b => Placed c b ∧ (Indexed c b → first_round c b)) ?_
    ⟨hplaced, fun _ _ => Nat.zero_lt_of_lt one_lt_u32⟩ hindexed
  rintro s o t ⟨hs, hround⟩ hi hst
  obtain ⟨⟨a, t⟩, hcall, rfl⟩ := Option.map_eq_some_iff.mp hst
  have hwrap : s.m_size + memory.u32 < u64 := by
    have hsize := hi.size
    have hround := hround hi
    unfold first_round at hround
    unfold memory.u32 u64 at *
    omega
  obtain ⟨ht, hmoves⟩ := hs.perform hi.size (by omega) (by omega) hcall
  obtain ⟨hiff, hkept⟩ := hmoves.indexed_iff hi ht hc' (hround hi)
  exact ⟨⟨ht, hkept⟩, hiff⟩

/-- Two items through a buffer of two, and one more. -/
theorem three_items_keep_the_positions :
    ∃ b : circular Nat, b.m_start = 1 ∧ b.m_end = 1 ∧ b.m_size = 2 ∧
      transition.Run ((calls 2 (fun _ => 0) id).within (Indexed 2)) (new 2 fun _ => 0)
        [.push_many [1, 2], .pop_front, .push_back 3] b := by
  refine ⟨⟨1, 1, 2, 2, [3, 2]⟩, rfl, rfl, rfl, ?_⟩
  have hlaw := the_positions_agree_until_a_call_overruns 2 (by decide) (by decide) (fun _ => 0) id
  apply (hlaw.2 _ _).mpr
  apply transition.Run.machine_guarded (.nil _)
  decide +kernel

/-- Two items popped off a buffer that holds one: the size wraps below zero. -/
theorem popping_two_of_one_wraps_the_size :
    ∃ b : circular Nat, transition.Reachable (calls 2 (fun _ => 0) id) b ∧
      b.m_size = u64 - 1 ∧ ¬ Indexed 2 b := by
  refine ⟨⟨0, 1, u64 - 1, 2, [1, 0]⟩,
    ⟨new 2 fun _ => 0, [.push_back 1, .pop_many 2], rfl, ?_⟩, rfl, ?_⟩
  · apply transition.Run.machine (.nil _)
    decide +kernel
  · intro h
    exact absurd h.size (by decide)

/-! ## Sessions that fit -/

/-- A call that fits keeps the positions where an `unsigned int` reaches, and the size
within the capacity. -/
theorem Placed.fits {c : Nat} (hc' : c < u64) {s t : session α} {moved : α → α} {o : call α}
    (h : Placed c s.circ) (hsize : s.circ.m_size ≤ c) (hfits : circular.fits c s o)
    (ht : s.step c moved o = some t) : Placed c t.circ ∧ t.circ.m_size ≤ c := by
  obtain ⟨⟨a, b'⟩, hcall, heq⟩ := Option.bind_eq_some_iff.mp ht
  cases heq
  obtain ⟨hcount, hroom⟩ := hfits
  have htaken := taken_le_count s.circ o
  unfold size at hcount hroom
  obtain ⟨hb', hmoves⟩ := h.perform hsize (by omega) (by omega) hcall
  refine ⟨hb', ?_⟩
  cases hmoves with
  | pushes _ _ hfills =>
    have := hfills.size
    simp only
    omega
  | takes _ _ hempties =>
    have hwraps := hempties.wraps
    have hdown := hempties.size
    unfold u64 at *
    simp only
    omega
  | clears _ _ heq =>
    rw [heq]
    exact Nat.zero_le c

theorem placed_reachable {c : Nat} (hc : 1 ≤ c) (hc' : c < u64) {raw : Nat → α} {moved : α → α}
    {s : session α}
    (h : transition.Reachable ((sessions c raw moved).guarded (circular.fits c)) s) :
    Placed c s.circ ∧ s.circ.m_size ≤ c := by
  refine h.keeps (P := fun s => Placed c s.circ ∧ s.circ.m_size ≤ c) ?_ ?_
  · rintro s rfl
    exact ⟨placed_new hc raw, Nat.zero_le c⟩
  · rintro s o t ⟨hs, hsize⟩ ⟨hfits, ht⟩
    exact hs.fits hc' hsize hfits ht

end strangeio.buffer.circular
