-- How a description is assembled: its mainlines and controllers first, then
-- its links in their order, each after its target is loaded and mounted
-- (config/assembler.cpp, midi/midi_handler.cpp). The results of the
-- connections are not looked at. Where there is no description of a unit,
-- the bare `throw` ends the program: then there is no state.
import StrangeIO.Document
import StrangeIO.Mount

namespace strangeio

variable {ι : Type} [DecidableEq ι]

/-! ## The midi devices -/

namespace midi

/-- A handler is a method of a unit that the unit exports under a name. -/
structure device (ι : Type) where
  m_port_name : String
  m_alias : String
  m_led_on : UInt8
  m_led_off : UInt8
  m_bindings : Int → Option (ι × String)

inductive led_mode where
  | steady
  | blink
  | off
deriving DecidableEq, Repr

structure led_state where
  device : String
  mode : led_mode
  code : Int
  value : UInt8
deriving DecidableEq, Repr

structure midi_handler (ι : Type) where
  m_devices : List (device ι)
  m_led_map : String → Option (Int → Option led_state)

/-- An `insert` of a key that is there changes nothing. -/
def insert {K V : Type} [DecidableEq K] (key : K) (v : V) (m : K → Option V) : K → Option V :=
  if (m key).isSome then m else Function.update m key (some v)

def device.add_binding (code : Int) (func : ι × String) (dev : device ι) : device ι :=
  { dev with m_bindings := insert code func dev.m_bindings }

namespace midi_handler

def add_device (h : midi_handler ι) (port name : String) : midi_handler ι :=
  { h with m_devices := h.m_devices ++ [⟨port, name, 0, 0, fun _ => none⟩] }

/-- A change of the device that `get` finds. -/
def on_device (h : midi_handler ι) (label : String) (f : device ι → device ι) : midi_handler ι :=
  { h with m_devices :=
    h.m_devices.modify (h.m_devices.findIdx fun dev => dev.m_alias = label) f }

def add_binding (h : midi_handler ι) (module_ : String) (code : Int) (func : ι × String) :
    midi_handler ι :=
  { h with m_devices := h.m_devices.map fun dev =>
    if dev.m_alias = module_ then dev.add_binding code func else dev }

def add_led (h : midi_handler ι) (unit : String) (state : Int) (led : led_state) :
    midi_handler ι :=
  match h.m_led_map unit with
  | none => { h with
      m_led_map := Function.update h.m_led_map unit (some (insert state led fun _ => none)) }
  | some map => { h with
      m_led_map := Function.update h.m_led_map unit (some (insert state led map)) }

end midi_handler

end midi

namespace config

open component (mount)
open midi (midi_handler)

/-! ## The assembler -/

/-- The units that can be loaded, by model, label and library; the label that
a unit goes by, and what it exports. -/
structure unit_factory (ι : Type) where
  load : String → String → String → Option ι
  ulabel : ι → String
  midi_handlers : ι → List String
  midi_leds : ι → List (String × Int)

/-- The rack as it is put together. -/
structure assembly (ι : Type) where
  mount : mount ι
  handler : midi_handler ι

def assemble_mainlines (desc : description) (sys : assembly ι) : assembly ι :=
  desc.setup.mainlines.foldl
    (fun sys mainline => { sys with mount := sys.mount.add_mainline mainline }) sys

def assemble_device (sys : assembly ι) (controller : s_controller) : assembly ι :=
  let handler := sys.handler.add_device controller.port controller.label
  { sys with handler := handler.on_device controller.label fun dev =>
    { dev with m_led_on := controller.led_on, m_led_off := controller.led_off } }

def assemble_devices (desc : description) (sys : assembly ι) : assembly ι :=
  desc.midi.controllers.foldl assemble_device sys

/-- There is none where the source throws. -/
def unit_description (desc : description) (label : String) : Option s_unit :=
  desc.setup.units.find? fun u => u.label = label

section assemble

variable (f : unit_factory ι) (desc : description)

def assemble_bindings (sys : assembly ι) (u : ι) : Option (assembly ι) := do
  let ud ← unit_description desc (f.ulabel u)
  let handler := ud.bindings.foldl
    (fun handler binding =>
      if binding.name ∈ f.midi_handlers u then
        handler.add_binding binding.module_ binding.code (u, binding.name)
      else handler)
    sys.handler
  some { sys with handler }

def led_mode_of (mode : String) : midi.led_mode :=
  if mode = "blink" then .blink else if mode = "off" then .off else .steady

def assemble_leds (sys : assembly ι) (u : ι) : Option (assembly ι) := do
  let ud ← unit_description desc (f.ulabel u)
  let handler := ud.leds.foldl
    (fun handler led =>
      match (f.midi_leds u).lookup led.state with
      | some state =>
        handler.add_led (f.ulabel u) state ⟨led.device, led_mode_of led.mode, led.code, led.value⟩
      | none => handler)
    sys.handler
  some { sys with handler }

/-- A unit without handlers has no bindings. -/
def controllable (u : ι) : Bool := (f.midi_handlers u).length ≠ 0

def check_unit (sys : assembly ι) (label : String) : Option (assembly ι) := do
  let ud ← unit_description desc label
  if sys.mount.has_unit ud.label then some sys
  else
    match f.load ud.unit ud.label ud.library with
    | none => some sys
    | some u =>
      (if controllable f u then assemble_bindings f desc sys u else some sys).bind fun sys =>
        (assemble_leds f desc sys u).map fun sys =>
          { sys with mount := sys.mount.add_unit u (f.ulabel u) }

def connect_link (m : mount ι) (link : s_link) : Bool × mount ι :=
  if link.from_label = "rack" then m.connect_mainline link.plug link.to_label
  else m.connect_units link.from_label link.plug link.to_label link.jack

def assemble_link (sys : assembly ι) (link : s_link) : Option (assembly ι) := do
  let sys ← check_unit f desc sys link.to_label
  some { sys with mount := (connect_link sys.mount link).2 }

def assemble_daisychains (sys : assembly ι) : Option (assembly ι) :=
  desc.setup.daisychains.foldlM (assemble_link f desc) sys

def assemble (sys : assembly ι) : Option (assembly ι) :=
  assemble_daisychains f desc (assemble_devices desc (assemble_mainlines desc sys))

end assemble

/-! ## What the assembly of a link does to the mount -/

section laws

variable {f : unit_factory ι} {desc : description}

/-- A unit goes by the label that it is loaded under. -/
def unit_factory.Labelled (f : unit_factory ι) : Prop :=
  ∀ model label library u, f.load model label library = some u → f.ulabel u = label

omit [DecidableEq ι] in
theorem unit_description_label {label : String} {ud : s_unit}
    (h : unit_description desc label = some ud) : ud.label = label := by
  have := List.find?_some h
  simpa using this

omit [DecidableEq ι] in
theorem unit_description_isSome (label : String) :
    (unit_description desc label).isSome = true ↔ label ∈ desc.setup.units.map s_unit.label := by
  unfold unit_description
  rw [List.find?_isSome]
  simp

omit [DecidableEq ι] in
theorem assemble_bindings_mount {sys sys' : assembly ι} {u : ι}
    (h : assemble_bindings f desc sys u = some sys') : sys'.mount = sys.mount := by
  obtain ⟨ud, -, hud⟩ := Option.bind_eq_some_iff.mp h
  cases hud
  rfl

omit [DecidableEq ι] in
theorem assemble_leds_mount {sys sys' : assembly ι} {u : ι}
    (h : assemble_leds f desc sys u = some sys') : sys'.mount = sys.mount := by
  obtain ⟨ud, -, hud⟩ := Option.bind_eq_some_iff.mp h
  cases hud
  rfl

omit [DecidableEq ι] in
/-- The bindings and the leds of a unit that is described can be assembled. -/
theorem assemble_unit_some {label : String} {ud : s_unit} {u : ι} (sys : assembly ι)
    (hud : unit_description desc label = some ud) (hu : f.ulabel u = label) :
    ∃ sys1 sys2, (if controllable f u then assemble_bindings f desc sys u else some sys) =
      some sys1 ∧ assemble_leds f desc sys1 u = some sys2 ∧ sys2.mount = sys.mount := by
  rw [← hu] at hud
  have hbindings : ∃ sys1,
      (if controllable f u then assemble_bindings f desc sys u else some sys) = some sys1 := by
    split
    · exact ⟨_, Option.bind_eq_some_iff.mpr ⟨ud, hud, rfl⟩⟩
    · exact ⟨sys, rfl⟩
  obtain ⟨sys1, h1⟩ := hbindings
  have hmount : sys1.mount = sys.mount := by
    split at h1
    · exact assemble_bindings_mount h1
    · cases h1
      rfl
  have hleds : assemble_leds f desc sys1 u = some _ :=
    Option.bind_eq_some_iff.mpr ⟨ud, hud, rfl⟩
  exact ⟨sys1, _, h1, hleds, (assemble_leds_mount hleds).trans hmount⟩

/-- The unit that a description stands for, when it can be loaded. -/
def loaded (f : unit_factory ι) (ud : s_unit) : Option ι := f.load ud.unit ud.label ud.library

/-- The mount after a unit is looked for: it is mounted unless it is there or
cannot be loaded. -/
def mount_unit (f : unit_factory ι) (ud : s_unit) (m : mount ι) : mount ι :=
  match loaded f ud with
  | none => m
  | some u => m.add_unit u ud.label

omit [DecidableEq ι] in
/-- A unit that is not described ends the program, and no other does. -/
theorem check_unit_cases (hf : f.Labelled) (sys : assembly ι) (label : String) :
    (unit_description desc label = none ∧ check_unit f desc sys label = none) ∨
    ∃ ud sys', unit_description desc label = some ud ∧
      check_unit f desc sys label = some sys' ∧ sys'.mount = mount_unit f ud sys.mount := by
  unfold check_unit
  cases hud : unit_description desc label with
  | none => exact .inl ⟨rfl, rfl⟩
  | some ud =>
    have hlabel := unit_description_label hud
    refine .inr ⟨ud, ?_⟩
    simp only [Option.bind_eq_bind, Option.bind_some]
    unfold mount_unit loaded
    split
    · rename_i hhas
      refine ⟨sys, trivial, rfl, ?_⟩
      split
      · rfl
      · rename_i u _
        unfold component.mount.add_unit
        rw [if_pos hhas]
    · cases hload : f.load ud.unit ud.label ud.library with
      | none => exact ⟨sys, trivial, rfl, rfl⟩
      | some u =>
        have hu := hf _ _ _ _ hload
        obtain ⟨sys1, sys2, h1, h2, hmount⟩ :=
          assemble_unit_some sys hud (hu.trans hlabel)
        simp only
        refine ⟨{ sys2 with mount := sys2.mount.add_unit u (f.ulabel u) }, trivial, ?_, ?_⟩
        · rw [h1, Option.bind_some, h2]
          rfl
        · rw [hmount, hu]

end laws

end config

end strangeio
