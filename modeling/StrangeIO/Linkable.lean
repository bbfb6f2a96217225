-- The inputs and outputs of the units and the links between them, as
-- component/linkable.cpp has them. The id of an input or an output is its
-- place in its list.
import StrangeIO.Unit

namespace strangeio.component

/-- The link going into a unit. -/
structure LinkIn where
  label : String
  connected : Bool
deriving DecidableEq, Repr

/-- An output with the label that it goes by. -/
structure plug (ι : Type) extends LinkOut ι where
  label : String
deriving DecidableEq

structure linkable (ι : Type) where
  m_inputs : List LinkIn
  m_outputs : List (plug ι)
deriving DecidableEq

/-- An `int` where an `unsigned int` is expected. -/
def uint (id : Int) : Nat := (id.emod memory.u32).toNat

namespace linkable

variable {ι : Type}

def add_output (x : linkable ι) (label : String) : linkable ι :=
  { x with m_outputs := x.m_outputs ++ [{ to_in := none, connected := false, label := label }] }

def add_input (x : linkable ι) (label : String) : linkable ι :=
  { x with m_inputs := x.m_inputs ++ [{ label := label, connected := false }] }

/-- A unit as its constructor leaves it, with its inputs and outputs. -/
def make (ins outs : List String) : linkable ι :=
  outs.foldl (fun x label => x.add_output label)
    (ins.foldl (fun x label => x.add_input label) ⟨[], []⟩)

def has_input (label : String) (x : linkable ι) : Int :=
  match x.m_inputs.findIdx? fun input => input.label = label with
  | some id => id
  | none => -1

def has_output (label : String) (x : linkable ι) : Int :=
  match x.m_outputs.findIdx? fun out => out.label = label with
  | some id => id
  | none => -1

/-- The input that the pointer points to, if it is not null. -/
def get_input (id : Int) (x : linkable ι) : Option Nat :=
  if x.m_inputs.length ≤ uint id then none else some (uint id)

end linkable

/-! ## A unit as built -/

namespace linkable

variable {ι : Type}

/-- None of its ends is linked. -/
def Loose (x : linkable ι) : Prop :=
  (∀ out ∈ x.m_outputs, out.toLinkOut = { to_in := none, connected := false }) ∧
    ∀ input ∈ x.m_inputs, input.connected = false

theorem loose_add_output {x : linkable ι} (h : x.Loose) (label : String) :
    (x.add_output label).Loose := by
  refine ⟨?_, h.2⟩
  intro out hout
  rcases List.mem_append.mp hout with hout | hout
  · exact h.1 out hout
  · rw [List.mem_singleton.mp hout]

theorem loose_add_input {x : linkable ι} (h : x.Loose) (label : String) :
    (x.add_input label).Loose := by
  refine ⟨h.1, ?_⟩
  intro input hinput
  rcases List.mem_append.mp hinput with hinput | hinput
  · exact h.2 input hinput
  · rw [List.mem_singleton.mp hinput]

theorem loose_make (ins outs : List String) : (make ins outs : linkable ι).Loose := by
  have hnew : (⟨[], []⟩ : linkable ι).Loose := by simp [Loose]
  have hins := List.foldlRecOn ins (fun x label => x.add_input label) hnew
    fun x hx label _ => loose_add_input hx label
  exact List.foldlRecOn outs (fun x label => x.add_output label) hins
    fun x hx label _ => loose_add_output hx label

end linkable

/-! ## The links of all units -/

/-- A change of one entry that keeps a field keeps it in the list. -/
theorem map_modify_same {α β : Type} {f : α → α} {g : α → β} (h : ∀ x, g (f x) = g x)
    (xs : List α) (i : Nat) : (xs.modify i f).map g = xs.map g := by
  apply List.ext_getElem?
  intro j
  simp only [List.getElem?_map, List.getElem?_modify]
  cases xs[j]? with
  | none => rfl
  | some x =>
    apply congrArg some
    split
    · exact h x
    · rfl

/-- The units, each with its inputs and outputs. -/
abbrev links (ι : Type) := ι → linkable ι

namespace links

variable {ι : Type} [DecidableEq ι]

def set_out (s : links ι) (u : ι) (id : Nat) (l : LinkOut ι) : links ι :=
  Function.update s u
    { s u with m_outputs := (s u).m_outputs.modify id fun out => { out with toLinkOut := l } }

def set_in (s : links ι) (v : ι) (id : Nat) (b : Bool) : links ι :=
  Function.update s v
    { s v with m_inputs := (s v).m_inputs.modify id fun input => { input with connected := b } }

/-- `connect` of the unit `u`, with the input that the pointer points to. The count of the
outputs is a whole number, as the `int` is up to 2^31 of them. -/
def connect (s : links ι) (u : ι) (id : Int) (input : Option (ι × Nat)) : Bool × links ι :=
  if (s u).m_outputs.length ≤ uint id then (false, s)
  else
    match input with
    | none => (false, s)
    | some (v, k) =>
      (true, (s.set_out u (uint id) { to_in := some (v, k), connected := true }).set_in v k true)

/-- `disconnect` of the unit `u`. It compares the id with the number of the
inputs. There is no state after a write past the outputs or through a null pointer. -/
def disconnect (s : links ι) (u : ι) (id : Int) : Option (links ι) :=
  if (s u).m_inputs.length ≤ uint id then some s
  else
    match (s u).m_outputs[uint id]? with
    | none => none
    | some out =>
      match out.to_in with
      | none => none
      | some (v, k) =>
        some ((s.set_in v k false).set_out u (uint id) { to_in := none, connected := false })

/-! ## What is read of them -/

/-- The link of an output, if there is such an output. -/
def out (s : links ι) (u : ι) (id : Nat) : Option (LinkOut ι) :=
  (s u).m_outputs[id]?.map plug.toLinkOut

/-- The flag of an input, if there is such an input. -/
def inp (s : links ι) (v : ι) (id : Nat) : Option Bool :=
  (s v).m_inputs[id]?.map LinkIn.connected

variable {s : links ι} {u v w : ι} {i j k : Nat}

@[simp] theorem set_out_inp (s : links ι) (u : ι) (i : Nat) (l : LinkOut ι) :
    (s.set_out u i l).inp = s.inp := by
  funext w k
  unfold inp set_out
  by_cases hw : w = u
  · subst hw
    rw [Function.update_self]
  · rw [Function.update_of_ne hw]

@[simp] theorem set_in_out (s : links ι) (v : ι) (k : Nat) (b : Bool) :
    (s.set_in v k b).out = s.out := by
  funext w i
  unfold out set_in
  by_cases hw : w = v
  · subst hw
    rw [Function.update_self]
  · rw [Function.update_of_ne hw]

theorem set_out_out (s : links ι) (u w : ι) (i j : Nat) (l : LinkOut ι) :
    (s.set_out u i l).out w j =
      if w = u ∧ j = i then (s.out w j).map fun _ => l else s.out w j := by
  unfold out set_out
  by_cases hw : w = u
  · subst hw
    rw [Function.update_self]
    by_cases hj : j = i
    · subst hj
      simp
      rfl
    · simp [hj, Ne.symm hj]
  · simp [hw]

theorem set_in_inp (s : links ι) (v w : ι) (k j : Nat) (b : Bool) :
    (s.set_in v k b).inp w j =
      if w = v ∧ j = k then (s.inp w j).map fun _ => b else s.inp w j := by
  unfold inp set_in
  by_cases hw : w = v
  · subst hw
    rw [Function.update_self]
    by_cases hj : j = k
    · subst hj
      simp
      rfl
    · simp [hj, Ne.symm hj]
  · simp [hw]

theorem set_in_set_out_out (s : links ι) (u v : ι) (i k : Nat) (b : Bool) (l : LinkOut ι) :
    ((s.set_in v k b).set_out u i l).out = (s.set_out u i l).out := by
  funext w j
  rw [set_out_out, set_out_out, set_in_out]

theorem set_out_set_in_inp (s : links ι) (u v : ι) (i k : Nat) (b : Bool) (l : LinkOut ι) :
    ((s.set_out u i l).set_in v k b).inp = (s.set_in v k b).inp := by
  funext w j
  rw [set_in_inp, set_in_inp, set_out_inp]

omit [DecidableEq ι] in
/-- The pointers that `get_input` gives point to inputs. -/
theorem inp_of_get_input {id : Int} (h : (s v).get_input id = some k) :
    ∃ b, s.inp v k = some b := by
  unfold linkable.get_input at h
  split at h
  · cases h
  · cases h
    exact ⟨_, by unfold inp; rw [List.getElem?_eq_getElem (by omega)]; rfl⟩

/-! ## What the calls do -/

/-- A call of `connect` is turned away, or it links an output that there is. -/
theorem connect_cases (s : links ι) (u : ι) (id : Int) (input : Option (ι × Nat)) :
    ((s.out u (uint id) = none ∨ input = none) ∧ s.connect u id input = (false, s)) ∨
      ∃ l v k, s.out u (uint id) = some l ∧ input = some (v, k) ∧ s.connect u id input =
        (true, (s.set_out u (uint id) { to_in := some (v, k), connected := true }).set_in
          v k true) := by
  unfold connect
  split
  · rename_i hle
    refine .inl ⟨.inl ?_, rfl⟩
    unfold out
    rw [List.getElem?_eq_none hle]
    rfl
  · rename_i hlt
    cases input with
    | none => exact .inl ⟨.inr rfl, rfl⟩
    | some dest =>
      have hout := List.getElem?_eq_getElem (l := (s u).m_outputs) (i := uint id) (by omega)
      exact .inr ⟨_, dest.1, dest.2, congrArg (Option.map plug.toLinkOut) hout, rfl, rfl⟩

/-- A call of `disconnect` is turned away, or it unlinks an output that is
linked, or it is undefined: past the outputs, or on an output that is not linked. -/
theorem disconnect_cases (s : links ι) (u : ι) (id : Int) :
    ((s u).m_inputs.length ≤ uint id ∧ s.disconnect u id = some s) ∨
    (uint id < (s u).m_inputs.length ∧ (∀ l, s.out u (uint id) = some l → l.to_in = none) ∧
      s.disconnect u id = none) ∨
    (uint id < (s u).m_inputs.length ∧ ∃ l v k, s.out u (uint id) = some l ∧
      l.to_in = some (v, k) ∧ s.disconnect u id =
        some ((s.set_in v k false).set_out u (uint id) { to_in := none, connected := false })) := by
  unfold disconnect
  split
  · rename_i hle
    exact .inl ⟨hle, rfl⟩
  · rename_i hlt
    have hlt : uint id < (s u).m_inputs.length := by omega
    unfold out
    cases (s u).m_outputs[uint id]? with
    | none => exact .inr (.inl ⟨hlt, fun l h => (by cases h), rfl⟩)
    | some o =>
      cases ho : o.to_in with
      | none =>
        refine .inr (.inl ⟨hlt, ?_, by simp only [ho]⟩)
        intro l h
        cases h
        exact ho
      | some dest => exact .inr (.inr ⟨hlt, _, dest.1, dest.2, rfl, ho, by simp only [ho]⟩)

end links

end strangeio.component
