-- The configuration documents and the descriptions that are made of them
-- (config/document.cpp, config/description.hpp). The text of a document is
-- picojson's: here is what it hands over. A map is in the order of its keys.
import Mathlib.Data.String.Basic
import StrangeIO.KeyOrder

namespace strangeio.config

/-! ## The data of picojson -/

inductive value (N : Type) where
  | null
  | boolean (b : Bool)
  | number (x : N)
  | string (s : String)
  | array (vs : List (value N))
  | object (entries : List (String × value N))

inductive json_type where
  | number
  | string
  | array
  | object
deriving DecidableEq, Repr

/-- The errors that picojson throws: a key is asked of what is no object, or a
value is taken as what it is not. -/
inductive type_error where
  | no_object
  | mismatch (type : json_type)
deriving DecidableEq, Repr

/-- What a number becomes as an `int` and as a `uint8_t`. -/
structure casts (N : Type) where
  to_int : N → Int
  to_uint8 : N → UInt8

namespace value

variable {N : Type}

def is_null : value N → Bool
  | .null => true
  | _ => false

/-- A key that is missing gives null. -/
def get (v : value N) (key : String) : Except type_error (value N) :=
  match v with
  | .object entries => .ok ((entries.lookup key).getD .null)
  | _ => .error .no_object

def get_double : value N → Except type_error N
  | .number x => .ok x
  | _ => .error (.mismatch .number)

def get_string : value N → Except type_error String
  | .string s => .ok s
  | _ => .error (.mismatch .string)

def get_array : value N → Except type_error (List (value N))
  | .array vs => .ok vs
  | _ => .error (.mismatch .array)

def get_object : value N → Except type_error (List (String × value N))
  | .object entries => .ok entries
  | _ => .error (.mismatch .object)

/-- Every object in it has its keys in order, each once. -/
inductive Ordered : value N → Prop
  | null : Ordered .null
  | boolean (b : Bool) : Ordered (.boolean b)
  | number (x : N) : Ordered (.number x)
  | string (s : String) : Ordered (.string s)
  | array {vs : List (value N)} : (∀ v ∈ vs, Ordered v) → Ordered (.array vs)
  | object {entries : List (String × value N)} : key_order.Ordered entries →
      (∀ e ∈ entries, Ordered e.2) → Ordered (.object entries)

end value

/-- A value as picojson makes it of a text. -/
structure json (N : Type) where
  root : value N
  ordered : root.Ordered

/-! ## The descriptions -/

structure s_link where
  from_label : String
  plug : String
  to_label : String
  jack : String
deriving DecidableEq, Repr

structure s_config where
  type : String
  value : String
deriving DecidableEq, Repr

structure s_binding where
  name : String
  module_ : String
  code : Int
deriving DecidableEq, Repr

structure s_leds where
  state : String
  device : String
  mode : String
  code : Int
  value : UInt8
deriving DecidableEq, Repr

structure s_unit where
  label : String := ""
  unit : String := ""
  library : String := ""
  configs : List s_config := []
  bindings : List s_binding := []
  leds : List s_leds := []
deriving DecidableEq, Repr

structure s_setup where
  mainlines : List String := []
  daisychains : List s_link := []
  units : List s_unit := []
deriving DecidableEq, Repr

structure s_controller where
  label : String
  port : String
  led_on : UInt8
  led_off : UInt8
deriving DecidableEq, Repr

structure s_midi where
  controllers : List s_controller := []
deriving DecidableEq, Repr

/-- A plain integer of a description that is not written yet is `none`. -/
structure s_threading where
  num_workers : Option Int := none
deriving DecidableEq, Repr

structure s_linux_sys where
  policy : String := ""
  priority : Option Int := none
  affinity : Option Int := none
deriving DecidableEq, Repr

structure s_system where
  threads : s_threading := {}
  linux_sys : s_linux_sys := {}
deriving DecidableEq, Repr

structure description where
  system : s_system := {}
  midi : s_midi := {}
  setup : s_setup := {}
deriving DecidableEq, Repr

/-! ## The parts of a unit -/

section parse

variable {N : Type} (c : casts N)

def parse_binding (unit : s_unit) (bit : String × value N) : Except type_error s_unit := do
  let module_ ← bit.2.get "module"
  let code ← bit.2.get "code"
  if module_.is_null || code.is_null then .ok unit
  else do
    let module_ ← module_.get_string
    let code ← code.get_double
    let binding : s_binding := ⟨bit.1, module_, c.to_int code⟩
    .ok { unit with bindings := unit.bindings ++ [binding] }

def parse_bindings (unit : s_unit) (v : value N) : Except type_error s_unit := do
  (← v.get_object).foldlM (parse_binding c) unit

def parse_led (unit : s_unit) (bit : String × value N) : Except type_error s_unit := do
  let module_ ← bit.2.get "module"
  let code ← bit.2.get "code"
  let mode ← bit.2.get "mode"
  if module_.is_null || code.is_null || mode.is_null then .ok unit
  else do
    let module_ ← module_.get_string
    let code ← code.get_double
    let value ← (← bit.2.get "value").get_double
    let mode ← mode.get_string
    let led : s_leds := ⟨bit.1, module_, mode, c.to_int code, c.to_uint8 value⟩
    .ok { unit with leds := unit.leds ++ [led] }

def parse_leds (unit : s_unit) (v : value N) : Except type_error s_unit := do
  (← v.get_object).foldlM (parse_led c) unit

def parse_config (unit : s_unit) (it : String × value N) : Except type_error s_unit := do
  .ok { unit with configs := unit.configs ++ [{ type := it.1, value := ← it.2.get_string }] }

/-- What a key that may be missing adds. -/
def parse_key {α : Type} (v : value N) (key : String) (x : α)
    (parse : value N → Except type_error α) : Except type_error α := do
  let cv ← v.get key
  if cv.is_null then .ok x else parse cv

/-- The first definition of a label is the one that counts. -/
def parse_unit (label : String) (v : value N) (setup : s_setup) : Except type_error s_setup :=
  if setup.units.any (·.label = label) then .ok setup
  else do
    let unit : s_unit := { label }
    let unit ← parse_key v "library" unit fun cv => do
      .ok { unit with library := ← cv.get_string }
    let unit ← parse_key v "unit" unit fun cv => do .ok { unit with unit := ← cv.get_string }
    let unit ← parse_key v "bindings" unit (parse_bindings c unit)
    let unit ← parse_key v "leds" unit (parse_leds c unit)
    let unit ← parse_key v "config" unit fun cv => do (← cv.get_object).foldlM parse_config unit
    .ok { setup with units := setup.units ++ [unit] }

/-! ## The sections -/

def parse_mainline (setup : s_setup) (mit : value N) : Except type_error s_setup := do
  let plug ← (← mit.get "plug").get_string
  .ok { setup with mainlines := setup.mainlines ++ [plug] }

/-- A link, and its target's definition where the rack element `v` has one. -/
def parse_daisychain (v : value N) (setup : s_setup) (it : value N) :
    Except type_error s_setup := do
  let fm ← (← it.get "from").get_string
  let pl ← (← it.get "plug").get_string
  let target ← (← it.get "to").get_string
  let jk ← (← it.get "jack").get_string
  let link : s_link := ⟨fm, pl, target, jk⟩
  let setup := { setup with daisychains := setup.daisychains ++ [link] }
  let uv ← v.get target
  if uv.is_null then .ok setup else parse_unit c target uv setup

def parse_rack (v : value N) (setup : s_setup) : Except type_error s_setup := do
  let mlines ← (← v.get "mainlines").get_array
  let setup ← mlines.foldlM parse_mainline setup
  (← (← v.get "daisychains").get_array).foldlM (parse_daisychain c v) setup

def parse_syslinux (v : value N) (l : s_linux_sys) : Except type_error s_linux_sys := do
  let l ← parse_key v "sched_policy" l fun cv => do .ok { l with policy := ← cv.get_string }
  let l ← parse_key v "sched_priority" l fun cv => do
    .ok { l with priority := some (c.to_int (← cv.get_double)) }
  parse_key v "cpu_affinity" { l with affinity := some (-1) } fun cv => do
    .ok { l with affinity := some (c.to_int (← cv.get_double)) }

/-- A controller, or none when it has no port. -/
def parse_controller (label : String) (details : value N) :
    Except type_error (Option s_controller) := do
  let dv ← details.get "port"
  if dv.is_null then .ok none
  else do
    let port ← dv.get_string
    let led_on ← parse_key details "led_on" 0 fun dv => do .ok (c.to_uint8 (← dv.get_double))
    let led_off ← parse_key details "led_off" 0 fun dv => do .ok (c.to_uint8 (← dv.get_double))
    .ok (some ⟨label, port, led_on, led_off⟩)

/-- The controllers up to one without a port: with it `parse_document` returns,
which the flag says. -/
def parse_controllers : List (String × value N) → s_midi → Except type_error (Bool × s_midi)
  | [], midi => .ok (false, midi)
  | mit :: rest, midi => do
    match ← parse_controller c mit.1 mit.2 with
    | none => .ok (true, midi)
    | some controller =>
      parse_controllers rest { midi with controllers := midi.controllers ++ [controller] }

/-! ## A document -/

inductive element_type where
  | root
  | system
deriving DecidableEq, Repr

/-- One entry of the object that `parse_document` goes through, which calls
itself as `recurse`. The flag says that it returns. -/
def parse_entry (recurse : value N → description → Except type_error description)
    (element : element_type) (i : String × value N) (d : description) :
    Except type_error (Bool × description) := do
  if i.1 = "system" ∧ element = .root then .ok (false, ← recurse i.2 d)
  else if i.1 = "rack" ∧ element = .root then
    .ok (false, { d with setup := ← parse_rack c i.2 d.setup })
  else if i.1 = "midi" ∧ element = .root then
    let (returns, midi) ← parse_controllers c (← i.2.get_object) d.midi
    .ok (returns, { d with midi })
  else if i.1 = "threads" ∧ element = .system then
    let threads ← parse_key i.2 "workers" d.system.threads fun cv => do
      .ok { num_workers := some (c.to_int (← cv.get_double)) }
    .ok (true, { d with system := { d.system with threads } })
  else if i.1 = "linux" ∧ element = .system then
    let linux_sys ← parse_syslinux c i.2 d.system.linux_sys
    .ok (false, { d with system := { d.system with linux_sys } })
  else .ok (false, d)

def parse_entries (recurse : value N → description → Except type_error description)
    (element : element_type) :
    List (String × value N) → description → Except type_error description
  | [], d => .ok d
  | i :: rest, d => do
    let (returns, d) ← parse_entry c recurse element i d
    if returns then .ok d else parse_entries recurse element rest d

/-- What is not an object is passed over. -/
def parse_level (recurse : value N → description → Except type_error description)
    (element : element_type) (v : value N) (d : description) : Except type_error description :=
  match v with
  | .object obj => parse_entries c recurse element obj d
  | _ => .ok d

/-- The function calls itself for the system element of the root only. -/
def parse_document (element : element_type) :
    value N → description → Except type_error description :=
  match element with
  | .system => parse_level c (fun _ d => .ok d) .system
  | .root => parse_level c (parse_level c (fun _ d => .ok d) .system) .root

/-- A description before the document is parsed, as far as it is written. -/
def fresh : description :=
  { system := { linux_sys := { policy := "SCHED_OTHER", priority := some 0 } } }

/-- What `load` writes. What it leaves, the memory has: that is `load_into`. -/
def load (doc : json N) : Except type_error description :=
  parse_document c .root doc.root fresh

/-- The plain integers of a new description, as the memory has them. -/
structure contents where
  num_workers : Int
  priority : Int
  affinity : Int

/-- `new description`. -/
def description.new (g : contents) : description :=
  { system :=
    { threads := { num_workers := some g.num_workers }
      linux_sys := { policy := "", priority := some g.priority, affinity := some g.affinity } } }

/-- A description before the document is parsed. -/
def description.loading (g : contents) : description :=
  let d := description.new g
  let linux_sys := { d.system.linux_sys with policy := "SCHED_OTHER", priority := some 0 }
  { d with system := { d.system with linux_sys } }

/-- `load`, with the description that it allocates. -/
def load_into (g : contents) (doc : json N) : Except type_error description :=
  parse_document c .root doc.root (description.loading g)

end parse

end strangeio.config
