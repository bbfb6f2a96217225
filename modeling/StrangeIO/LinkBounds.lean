-- The ids of inputs and outputs as component/linkable.cpp checks them: eight
-- accessors, each with a bound of its own, over two vectors. An id has 32 bits,
-- and a call may index a vector past its end.
import Mathlib.Data.Int.Lemmas
import StrangeIO.CachePtr
import StrangeIO.Linkable

namespace strangeio.component

variable {ι κ R α : Type}

/-! ## The counts -/

namespace linkable

/-- It goes up by one with each output that is added. -/
def m_num_outputs (x : linkable ι) : Nat := x.m_outputs.length % memory.u32

def m_num_inputs (x : linkable ι) : Nat := x.m_inputs.length % memory.u32

theorem num_outputs_add (x : linkable ι) (label : String) :
    (x.add_output label).m_num_outputs = memory.add32 x.m_num_outputs 1 ∧
      (x.add_input label).m_num_outputs = x.m_num_outputs := by
  simp [m_num_outputs, memory.add32, add_output, add_input]

theorem num_inputs_add (x : linkable ι) (label : String) :
    (x.add_input label).m_num_inputs = memory.add32 x.m_num_inputs 1 ∧
      (x.add_output label).m_num_inputs = x.m_num_inputs := by
  simp [m_num_inputs, memory.add32, add_output, add_input]

end linkable

namespace bounds

open memory (cache_ptr Objects)

/-! ## The accessors -/

/-- What a call does that has no result: it indexes a vector past its end, or
goes through a null pointer. -/
inductive fault where
  | past_the_end
  | null
deriving DecidableEq, Repr

/-- `xs[id]`. A negative index is past the end of every vector. -/
def index (xs : List α) (id : Int) : Except fault α :=
  if id < 0 then .error .past_the_end
  else
    match xs[id.toNat]? with
    | some x => .ok x
    | none => .error .past_the_end

/-- An accessor: it turns some ids away, and indexes its vector with the others. -/
def guarded_index (refuses : Prop) [Decidable refuses] (failure : R) (xs : List α) (id : Int)
    (found : α → Except fault R) : Except fault R :=
  if refuses then .ok failure
  else
    match index xs id with
    | .ok x => found x
    | .error e => .error e

/-- The call down a line: to which input of which unit, and the objects that
the samples are one of. -/
structure line_call (ι κ : Type) where
  unit : ι
  line : Nat
  objects : Objects κ

/-- What `feed_out` and `fill_out` do with their output. -/
def send (objects : ι → Objects κ) (out : plug ι) : Except fault (Bool × Option (line_call ι κ)) :=
  if !out.connected then .ok (false, none)
  else
    match out.to_in with
    | none => .error .null
    | some (v, k) => .ok (true, some { unit := v, line := k, objects := objects v })

section
variable [DecidableEq ι] (s : links ι) (u : ι) (id : BitVec 32)

def connect (input : Option (ι × Nat)) : Except fault (Bool × links ι) :=
  guarded_index ((s u).m_num_outputs ≤ id.toNat ∨ input = none) (false, s)
    (s u).m_outputs id.toInt fun _ =>
      match input with
      | none => .error .null
      | some (v, k) =>
        .ok
          (true, (s.set_out u id.toNat { to_in := some (v, k), connected := true }).set_in v k true)

def disconnect : Except fault (links ι) :=
  guarded_index ((s u).m_num_inputs ≤ id.toNat) s (s u).m_outputs id.toInt fun out =>
    match out.to_in with
    | none => .error .null
    | some (v, k) =>
      .ok ((s.set_in v k false).set_out u id.toNat { to_in := none, connected := false })

end

section
variable (s : links ι) (u : ι) (id : BitVec 32)

/-- The input that the pointer points to, if it is not null. -/
def get_input : Except fault (Option Nat) :=
  guarded_index ((s u).m_num_inputs ≤ id.toNat) none (s u).m_inputs id.toInt
    fun _ => .ok (some id.toNat)

def get_output : Except fault (Option Nat) :=
  guarded_index ((s u).m_num_outputs ≤ id.toNat) none (s u).m_outputs id.toInt
    fun _ => .ok (some id.toNat)

/-- The samples are at `this`. The unit at the other end becomes their owner. -/
def feed_out (handle : ι → rhandle) (this : Nat) (m : Objects κ) :
    Except fault (Bool × Option (line_call ι κ)) :=
  guarded_index ((s u).m_num_outputs ≤ id.toNat) (false, none) (s u).m_outputs id.toInt
    (send fun v => cache_ptr.set_owner this (handle v) m)

def fill_out (m : Objects κ) : Except fault (Bool × Option (line_call ι κ)) :=
  guarded_index ((s u).m_num_outputs ≤ id.toNat) (false, none) (s u).m_outputs id.toInt
    (send fun _ => m)

/-- The id is an `unsigned int`, here and in `output_conncted`. -/
def input_connected : Except fault Bool :=
  guarded_index ((s u).m_num_inputs < id.toNat) false (s u).m_inputs id.toNat
    fun input => .ok input.connected

def output_conncted : Except fault Bool :=
  guarded_index ((s u).m_num_outputs < id.toNat) false (s u).m_outputs id.toNat
    fun out => .ok out.connected

end

/-! ## What a right bound is -/

/-- The id of an entry. -/
def Inside (xs : List α) (id : Int) : Prop := 0 ≤ id ∧ id < xs.length

instance (xs : List α) (id : Int) : Decidable (Inside xs id) :=
  inferInstanceAs (Decidable (0 ≤ id ∧ id < xs.length))

/-- An accessor indexes its vector only below the size, and answers an id
outside it with its failure. -/
structure Keeps (inside : Prop) (failure : R) (r : Except fault R) : Prop where
  below : inside → r ≠ .error .past_the_end
  outside : ¬ inside → r = .ok failure

theorem index_inside {xs : List α} {id : Int} (h : Inside xs id) : ∃ x, index xs id = .ok x := by
  obtain ⟨h0, h1⟩ := h
  have hx := List.getElem?_eq_getElem (l := xs) (i := id.toNat) (by omega)
  refine ⟨xs[id.toNat], ?_⟩
  unfold index
  rw [if_neg (by omega), hx]

theorem index_outside {xs : List α} {id : Int} (h : ¬ Inside xs id) :
    index xs id = .error .past_the_end := by
  unfold index
  split
  · rfl
  · rename_i h0
    have hlen : xs.length ≤ id.toNat := by
      unfold Inside at h
      omega
    rw [List.getElem?_eq_none hlen]

/-- An accessor keeps to its vector just when it turns the id away or the id is
that of an entry. -/
theorem keeps_guarded_index {refuses : Prop} [Decidable refuses] {failure : R} {xs : List α}
    {id : Int} {found : α → Except fault R} (hfound : ∀ x, found x ≠ .error .past_the_end) :
    Keeps (Inside xs id) failure (guarded_index refuses failure xs id found) ↔
      refuses ∨ Inside xs id := by
  unfold guarded_index
  by_cases hr : refuses
  · rw [if_pos hr]
    exact iff_of_true ⟨fun _ h => (by cases h), fun _ => rfl⟩ (.inl hr)
  rw [if_neg hr]
  by_cases hin : Inside xs id
  · obtain ⟨x, hx⟩ := index_inside hin
    rw [hx]
    exact iff_of_true ⟨fun _ => hfound x, fun h => absurd hin h⟩ (.inr hin)
  · rw [index_outside hin]
    refine iff_of_false (fun h => ?_) (by simp [hr, hin])
    cases h.outside hin

theorem send_ne (objects : ι → Objects κ) (out : plug ι) :
    send objects out ≠ .error .past_the_end := by
  unfold send
  split
  · simp
  · split <;> simp

/-! ## The bounds -/

theorem toInt_eq_toNat {id : BitVec 32} (h : 0 ≤ id.toInt) : id.toInt = id.toNat := by
  rw [BitVec.toInt_eq_toNat_cond] at h ⊢
  split at h
  · rename_i hlt
    rw [if_pos hlt]
  · have := id.isLt
    omega

theorem toInt_nonneg {id : BitVec 32} (h : id.toNat < 2147483648) : 0 ≤ id.toInt := by
  rw [BitVec.toInt_eq_toNat_cond, if_pos (by omega)]
  omega

/-- The count of a vector, taken for an unsigned id, stops all ids outside the
vector but a negative one. -/
theorem stops_iff (xs : List α) (id : BitVec 32) :
    xs.length % memory.u32 ≤ id.toNat ∨ Inside xs id.toInt ↔
      xs.length % memory.u32 ≤ id.toNat ∨ 0 ≤ id.toInt := by
  have hle := Nat.mod_le xs.length memory.u32
  constructor
  · rintro (h | h)
    · exact .inl h
    · exact .inr h.1
  · rintro (h | h)
    · exact .inl h
    · have heq := toInt_eq_toNat h
      rcases Nat.lt_or_ge id.toNat (xs.length % memory.u32) with hlt | hge
      · exact .inr ⟨h, by omega⟩
      · exact .inl hge

/-- The same bound with `>` for `>=` lets through the size of the vector. -/
theorem stops_above_iff (xs : List α) (id : BitVec 32) :
    xs.length % memory.u32 < id.toNat ∨ Inside xs id.toNat ↔ id.toNat ≠ xs.length := by
  have hle := Nat.mod_le xs.length memory.u32
  have hid : id.toNat < memory.u32 := id.isLt
  unfold Inside
  constructor
  · rintro (h | h) heq
    · rw [heq] at hid
      rw [Nat.mod_eq_of_lt hid] at h
      omega
    · omega
  · intro hne
    rcases Nat.lt_or_ge (xs.length % memory.u32) id.toNat with hlt | hge
    · exact .inl hlt
    · exact .inr (by omega)

/-- When the eight accessors keep to their vectors: those that test an `int`
against their own vector, but for a negative id; `disconnect`, which tests the
inputs, where it turns the id away or there is such an output; the two that test with `>`,
but for the size. -/
theorem link_ids_are_checked [DecidableEq ι] (s : links ι) (u : ι) (id : BitVec 32)
    (input : Option (ι × Nat)) (handle : ι → rhandle) (this : Nat) (m : Objects κ) :
    (Keeps (Inside (s u).m_outputs id.toInt) (false, s) (connect s u id input) ↔
      input = none ∨ (s u).m_num_outputs ≤ id.toNat ∨ 0 ≤ id.toInt) ∧
    (Keeps (Inside (s u).m_outputs id.toInt) s (disconnect s u id) ↔
      (s u).m_num_inputs ≤ id.toNat ∨ Inside (s u).m_outputs id.toInt) ∧
    (Keeps (Inside (s u).m_inputs id.toInt) none (get_input s u id) ↔
      (s u).m_num_inputs ≤ id.toNat ∨ 0 ≤ id.toInt) ∧
    (Keeps (Inside (s u).m_outputs id.toInt) none (get_output s u id) ↔
      (s u).m_num_outputs ≤ id.toNat ∨ 0 ≤ id.toInt) ∧
    (Keeps (Inside (s u).m_outputs id.toInt) (false, none) (feed_out s u id handle this m) ↔
      (s u).m_num_outputs ≤ id.toNat ∨ 0 ≤ id.toInt) ∧
    (Keeps (Inside (s u).m_outputs id.toInt) (false, none) (fill_out s u id m) ↔
      (s u).m_num_outputs ≤ id.toNat ∨ 0 ≤ id.toInt) ∧
    (Keeps (Inside (s u).m_inputs id.toNat) false (input_connected s u id) ↔
      id.toNat ≠ (s u).m_inputs.length) ∧
    (Keeps (Inside (s u).m_outputs id.toNat) false (output_conncted s u id) ↔
      id.toNat ≠ (s u).m_outputs.length) := by
  refine ⟨?_, ?_, ?_, ?_, ?_, ?_, ?_, ?_⟩
  · refine (keeps_guarded_index fun _ => ?_).trans ?_
    · cases input <;> simp
    · rw [or_right_comm, or_comm]
      exact or_congr_right (stops_iff _ id)
  · refine keeps_guarded_index fun out => ?_
    cases out.to_in <;> simp
  · exact (keeps_guarded_index fun _ => by simp).trans (stops_iff _ id)
  · exact (keeps_guarded_index fun _ => by simp).trans (stops_iff _ id)
  · exact (keeps_guarded_index (send_ne _)).trans (stops_iff _ id)
  · exact (keeps_guarded_index (send_ne _)).trans (stops_iff _ id)
  · exact (keeps_guarded_index fun _ => by simp).trans (stops_above_iff _ id)
  · exact (keeps_guarded_index fun _ => by simp).trans (stops_above_iff _ id)

/-- A unit with one input and no output: `disconnect` indexes the outputs that
it does not have, and `input_connected` the input after its last. -/
theorem a_unit_without_outputs :
    ∃ (s : links Unit) (u : Unit), (∃ id, ¬ Keeps (Inside (s u).m_outputs id.toInt) s
      (disconnect s u id)) ∧ ∃ id, ¬ Keeps (Inside (s u).m_inputs id.toNat) false
        (input_connected s u id) := by
  refine ⟨fun _ => linkable.make ["audio_in"] [], (), ⟨0, fun h => ?_⟩, ⟨1, fun h => ?_⟩⟩
  · cases h.outside (by decide)
  · cases h.outside (by decide)

/-! ## The units of the program -/

section
variable [DecidableEq ι] {s : links ι} {u : ι} {id : BitVec 32}

/-- A unit with no more inputs than outputs has an output for each id that
`disconnect` lets through. -/
theorem keeps_disconnect_of_le (h : (s u).m_inputs.length ≤ (s u).m_outputs.length)
    (hin : (s u).m_inputs.length ≤ 2147483648) :
    Keeps (Inside (s u).m_outputs id.toInt) s (disconnect s u id) := by
  refine (keeps_guarded_index fun out => ?_).mpr ?_
  · cases out.to_in <;> simp
  · have hle := Nat.mod_le (s u).m_inputs.length memory.u32
    rcases Nat.lt_or_ge id.toNat (s u).m_num_inputs with hlt | hge
    · unfold linkable.m_num_inputs at hlt
      have h0 : 0 ≤ id.toInt := toInt_nonneg (by omega)
      have heq := toInt_eq_toNat h0
      exact .inr ⟨h0, by omega⟩
    · exact .inl hge

theorem uint_toInt (id : BitVec 32) : uint id.toInt = id.toNat := by
  have hid := id.isLt
  have hemod : id.toInt % (4294967296 : Int) = id.toNat := by
    rw [BitVec.toInt_eq_toNat_cond]
    split <;> omega
  exact congrArg Int.toNat hemod

theorem count_eq {n : Nat} (h : n ≤ 2147483648) : n % memory.u32 = n :=
  Nat.mod_eq_of_lt (by simp only [memory.u32]; omega)

theorem index_toInt (xs : List α) (h : id.toNat < 2147483648) :
    index xs id.toInt = xs[id.toNat]?.elim (.error .past_the_end) .ok := by
  have h0 := toInt_nonneg h
  unfold index
  rw [if_neg (by omega), toInt_eq_toNat h0, Int.toNat_natCast]
  cases xs[id.toNat]? <;> rfl

/-- With no more than 2^31 outputs, `connect` is what it is on whole numbers. -/
theorem connect_eq (h : (s u).m_outputs.length ≤ 2147483648) (input : Option (ι × Nat)) :
    connect s u id input = .ok (s.connect u id.toInt input) := by
  have hnum : (s u).m_num_outputs = (s u).m_outputs.length := count_eq h
  unfold connect links.connect guarded_index
  rw [hnum, uint_toInt]
  by_cases hle : (s u).m_outputs.length ≤ id.toNat
  · rw [if_pos (.inl hle), if_pos hle]
  · rw [if_neg hle, index_toInt _ (by omega), List.getElem?_eq_getElem (by omega)]
    cases input with
    | none => rw [if_pos (.inr rfl)]
    | some dest => simp [hle]

theorem disconnect_eq (h : (s u).m_inputs.length ≤ 2147483648) :
    (disconnect s u id).toOption = s.disconnect u id.toInt := by
  have hnum : (s u).m_num_inputs = (s u).m_inputs.length := count_eq h
  unfold disconnect links.disconnect guarded_index
  rw [hnum, uint_toInt]
  by_cases hle : (s u).m_inputs.length ≤ id.toNat
  · rw [if_pos hle, if_pos hle]
    rfl
  · rw [if_neg hle, if_neg hle, index_toInt _ (by omega)]
    cases (s u).m_outputs[id.toNat]? with
    | none => rfl
    | some out =>
      simp only [Option.elim]
      cases out.to_in <;> rfl

omit [DecidableEq ι] in
theorem get_input_eq (h : (s u).m_inputs.length ≤ 2147483648) :
    get_input s u id = .ok ((s u).get_input id.toInt) := by
  have hnum : (s u).m_num_inputs = (s u).m_inputs.length := count_eq h
  unfold get_input linkable.get_input guarded_index
  rw [hnum, uint_toInt]
  by_cases hle : (s u).m_inputs.length ≤ id.toNat
  · rw [if_pos hle, if_pos hle]
  · rw [if_neg hle, if_neg hle, index_toInt _ (by omega), List.getElem?_eq_getElem (by omega)]
    rfl

end

end bounds

end strangeio.component
