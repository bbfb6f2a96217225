-- The mount of the rack: its units by label, its mainlines by name, and the
-- links between the units, as component/mount.cpp has them. A map is the
-- function that finds a key in it.
import StrangeIO.Linkable

namespace strangeio.component

variable {ι : Type} [DecidableEq ι]

/-- A mainline that is not connected maps to null. `m_links` holds the inputs
and outputs of all units, mounted or not. -/
structure mount (ι : Type) where
  m_mainlines : String → Option (Option ι)
  m_mounted : String → Option ι
  m_raw_mainlines : List ι
  m_links : links ι

namespace mount

/-- An empty mount, and the units that there are. -/
def new (l : links ι) : mount ι where
  m_mainlines _ := none
  m_mounted _ := none
  m_raw_mainlines := []
  m_links := l

def get_unit (m : mount ι) (label : String) : Option ι := m.m_mounted label

def has_unit (m : mount ι) (label : String) : Bool := (m.m_mounted label).isSome

/-- An `insert` of a key that is there changes nothing: the unit is dropped. -/
def add_unit (m : mount ι) (u : ι) (ulabel : String) : mount ι :=
  if m.has_unit ulabel then m
  else { m with m_mounted := Function.update m.m_mounted ulabel (some u) }

def clear_units (m : mount ι) : mount ι := { m with m_mounted := fun _ => none }

def add_mainline (m : mount ι) (name : String) : mount ι :=
  if (m.m_mainlines name).isSome then m
  else { m with m_mainlines := Function.update m.m_mainlines name (some none) }

def connect_mainline (m : mount ι) (mainline unit : String) : Bool × mount ι :=
  match m.m_mainlines mainline with
  | none => (false, m)
  | some _ =>
    match m.get_unit unit with
    | none => (false, m)
    | some u =>
      (true, { m with
        m_mainlines := Function.update m.m_mainlines mainline (some (some u))
        m_raw_mainlines := m.m_raw_mainlines ++ [u] })

def connect_units (m : mount ι) (source out dest input : String) : Bool × mount ι :=
  match m.get_unit source, m.get_unit dest with
  | some u, some v =>
    let output_id := (m.m_links u).has_output out
    let input_id := (m.m_links v).has_input input
    if output_id < 0 ∨ input_id < 0 then (false, m)
    else
      let link_in := ((m.m_links v).get_input input_id).map fun k => (v, k)
      let r := m.m_links.connect u output_id link_in
      (r.1, { m with m_links := r.2 })
  | _, _ => (false, m)

/-! ## The calls -/

inductive mount_call (ι : Type) where
  | add_unit (u : ι) (ulabel : String)
  | clear_units
  | add_mainline (name : String)
  | connect_mainline (mainline unit : String)
  | connect_units (source out dest input : String)

def perform (m : mount ι) : mount_call ι → mount ι
  | .add_unit u ulabel => m.add_unit u ulabel
  | .clear_units => m.clear_units
  | .add_mainline name => m.add_mainline name
  | .connect_mainline mainline unit => (m.connect_mainline mainline unit).2
  | .connect_units source out dest input => (m.connect_units source out dest input).2

/-! ## What the calls do -/

omit [DecidableEq ι] in
theorem add_mainline_frame (m : mount ι) (name : String) :
    (m.add_mainline name).m_mounted = m.m_mounted ∧ (m.add_mainline name).m_links = m.m_links := by
  unfold add_mainline
  split
  · exact ⟨rfl, rfl⟩
  · exact ⟨rfl, rfl⟩

omit [DecidableEq ι] in
/-- The mainline is declared then, beside those that were before. -/
theorem add_mainline_isSome (m : mount ι) (name other : String) :
    ((m.add_mainline name).m_mainlines other).isSome ↔
      other = name ∨ (m.m_mainlines other).isSome := by
  unfold add_mainline
  split
  · rename_i hthere
    refine (or_iff_right_of_imp ?_).symm
    rintro rfl
    exact hthere
  · by_cases hname : other = name
    · subst hname
      simp
    · simp [hname]

omit [DecidableEq ι] in
/-- A mainline is connected to a mounted unit, or nothing changes. -/
theorem connect_mainline_cases (m : mount ι) (mainline unit : String) :
    ((m.m_mainlines mainline = none ∨ m.m_mounted unit = none) ∧
      m.connect_mainline mainline unit = (false, m)) ∨
    ∃ line u, m.m_mainlines mainline = some line ∧ m.m_mounted unit = some u ∧
      m.connect_mainline mainline unit = (true, { m with
        m_mainlines := Function.update m.m_mainlines mainline (some (some u))
        m_raw_mainlines := m.m_raw_mainlines ++ [u] }) := by
  unfold connect_mainline get_unit
  cases hline : m.m_mainlines mainline with
  | none => exact .inl ⟨.inl rfl, rfl⟩
  | some line =>
    cases hu : m.m_mounted unit with
    | none => exact .inl ⟨.inr rfl, rfl⟩
    | some u => exact .inr ⟨line, u, rfl, rfl, rfl⟩

/-- Two units are linked, or nothing changes. -/
theorem connect_units_cases (m : mount ι) (source out dest input : String) :
    m.connect_units source out dest input = (false, m) ∨
    ∃ u v i k l, m.m_mounted source = some u ∧ m.m_mounted dest = some v ∧
      m.m_links.out u i = some l ∧ m.connect_units source out dest input = (true, { m with
        m_links := (m.m_links.set_out u i { to_in := some (v, k), connected := true }).set_in v k
          true }) := by
  unfold connect_units get_unit
  cases hu : m.m_mounted source with
  | none => exact .inl rfl
  | some u =>
    cases hv : m.m_mounted dest with
    | none => exact .inl rfl
    | some v =>
      simp only
      split
      · exact .inl rfl
      · obtain ⟨-, heq⟩ | ⟨l, v', k, hl, hin, heq⟩ := m.m_links.connect_cases u
          ((m.m_links u).has_output out)
          (((m.m_links v).get_input ((m.m_links v).has_input input)).map fun k => (v, k))
        · rw [heq]
          exact .inl rfl
        · rw [heq]
          obtain ⟨k', -, hk'⟩ := Option.map_eq_some_iff.mp hin
          obtain ⟨rfl, rfl⟩ := Prod.mk.inj hk'
          exact .inr ⟨u, v, _, k', l, rfl, rfl, hl, rfl⟩

end mount

end strangeio.component
