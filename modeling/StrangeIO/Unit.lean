-- Units and their links, and the passes of a sync and of a cycle down the
-- lines (component/unit.cpp and the units of spec/). A pass goes as deep as
-- its fuel: `none` is a pass that did not end in it.
import Mathlib.Logic.Function.Basic
import StrangeIO.CacheManager
import StrangeIO.Profile

namespace strangeio.component

open strangeio.memory (cache_manager)

variable {ι : Type} [DecidableEq ι]

/-! ## The data -/

/-- An output: the unit and the input that it is linked to. -/
structure LinkOut (ι : Type) where
  to_in : Option (ι × Nat)
  connected : Bool
deriving DecidableEq

/-- The class of a unit: `unit` itself, or a class of spec/ with its own `sync_line`. -/
inductive unit_class where
  | unit
  | mainline
  | combine
  | dispatch
deriving DecidableEq, Repr

/-- `m_rack` says whether the unit is mounted. `m_input_state` is there in a
combine only. -/
structure unit (ι : Type) where
  m_class : unit_class := .unit
  m_outputs : List (LinkOut ι) := []
  m_unit_profile : sync_profile := {}
  m_line_profile : sync_profile := {}
  m_global_profile : sync_profile := {}
  m_upstream : Bool := false
  m_cstate : component_state := .inactive
  m_rack : Bool := true
  m_input_state : List Bool := []
deriving DecidableEq

/-- A call of a method that a unit overrides. -/
inductive call (ι : Type) where
  | resync (u : ι) (flags : sync_flag)
  | cycle (u : ι)
  | init (u : ι)
deriving DecidableEq

/-- The kinds of sync that a pass performs. -/
inductive sync_type where
  | upstream
  | glob_sync
  | downstream
  | sync_duration
deriving DecidableEq, Repr

/-- The rack with its units. `calls`, `asked` and `performed` record what
happened: the calls of the units, the syncs they asked for, and the syncs. -/
structure rack (ι : Type) where
  units : ι → unit ι
  m_raw_mainlines : List ι
  m_global_profile : sync_profile
  m_cache : Option cache_manager
  m_resync : Bool
  m_resync_flags : sync_flag
  m_cycle_queue : Int
  calls : List (call ι)
  asked : List (ι × sync_flag)
  performed : List sync_type

/-- What a unit may ask of the rack in a method that it overrides. -/
inductive request where
  | trigger_sync (flags : sync_flag)
  | trigger_cycle
deriving DecidableEq

/-- The methods that the units override, which may depend on all that went
before, and the address that the cache is built at. -/
structure environment (ι : Type) where
  resync : ι → sync_flag → rack ι → List request
  cycle : ι → rack ι → cycle_state × List request
  init : ι → rack ι → cycle_state × List request
  raw : Nat

/-- Units whose own methods ask for nothing. -/
def environment.quiet : environment ι where
  resync _ _ _ := []
  cycle _ _ := (.complete, [])
  init _ _ := (.complete, [])
  raw := 0

/-! ## The rack -/

/-- A new rack, with its units mounted and linked. -/
def rack.new (units : ι → unit ι) (mainlines : List ι) : rack ι where
  units := units
  m_raw_mainlines := mainlines
  m_global_profile := {}
  m_cache := none
  m_resync := false
  m_resync_flags := 0
  m_cycle_queue := 0
  calls := []
  asked := []
  performed := []

def rack.modify (r : rack ι) (u : ι) (f : unit ι → unit ι) : rack ι :=
  { r with units := Function.update r.units u (f (r.units u)) }

def rack.trigger_sync (r : rack ι) (flags : sync_flag) : rack ι :=
  { r with m_resync_flags := r.m_resync_flags ||| flags, m_resync := true }

/-- The increment of an atomic `int` wraps. -/
def rack.trigger_cycle (r : rack ι) : rack ι :=
  { r with m_cycle_queue := strangeio.memory.int32 (r.m_cycle_queue + 1) }

/-! ## The requests of a unit -/

namespace unit

def register_metric (type : profile_metric) (value : Int) (x : unit ι) : unit ι :=
  { x with m_unit_profile := component.register_metric .exact type value x.m_unit_profile }

def set_profile (profile : sync_profile) (x : unit ι) : unit ι :=
  { x with m_unit_profile := profile }

def set_upstream (b : Bool) (x : unit ι) : unit ι := { x with m_upstream := b }

def trigger_sync (u : ι) (flags : sync_flag) (r : rack ι) : rack ι :=
  let r :=
    if flags.has sync_flags.upstream then r.modify u (unit.set_upstream true) else r
  if (r.units u).m_rack then
    { r.trigger_sync flags with asked := r.asked ++ [(u, flags)] }
  else r

/-- The unit does not look whether it is mounted: `m_rack` may not be null here. -/
def trigger_cycle (r : rack ι) : rack ι := r.trigger_cycle

def perform (u : ι) (r : rack ι) : request → rack ι
  | .trigger_sync flags => trigger_sync u flags r
  | .trigger_cycle => trigger_cycle r

def resync (env : environment ι) (u : ι) (flags : sync_flag) (r : rack ι) : rack ι :=
  (env.resync u flags r).foldl (perform u) { r with calls := r.calls ++ [.resync u flags] }

end unit

/-! ## The sync of a line -/

/-- A pass on from a unit, with the profile that it threads by reference. -/
abbrev Pass (ι : Type) := sync_profile × rack ι

/-- `sync_line` of the units that a unit is linked to. -/
def continue_sync
    (sync_line : ι → sync_profile → sync_flag → Nat → rack ι → Option (Pass ι)) (u : ι)
    (profile : sync_profile) (flags : sync_flag) (r : rack ι) : Option (Pass ι) :=
  (r.units u).m_outputs.foldlM
    (fun pass out =>
      match out.connected, out.to_in with
      | true, some (v, id) => sync_line v pass.1 flags id pass.2
      | _, _ => some pass)
    (profile, r)

section classes

variable (env : environment ι)
  (continue_sync : ι → sync_profile → sync_flag → rack ι → Option (Pass ι))

/-- The fields that a unit takes over from a global sync. -/
def record_global (profile : sync_profile) (x : unit ι) : unit ι :=
  { x with m_global_profile := { x.m_global_profile with
      fs := profile.fs
      channels := profile.channels
      period := profile.period
      state := profile.state
      bpm := profile.bpm
      fill := profile.fill } }

def unit.sync_line (u : ι) (profile : sync_profile) (flags : sync_flag) (_line : Nat)
    (r : rack ι) : Option (Pass ι) :=
  if flags.has sync_flags.glob_sync then do
    let profile := apply_unit_profile (r.units u).m_unit_profile profile
    let profile :=
      if profile.state = line_state.flushing.toInt then
        { profile with state := line_state.active.toInt }
      else profile
    let (profile, r) ← continue_sync u profile flags r
    some (profile, unit.resync env u flags (r.modify u (record_global profile)))
  else if flags.has sync_flags.upstream then
    if (r.units u).m_upstream then do
      -- the unit asked for the sync: its own profile goes on, by reference
      let r := r.modify u (unit.set_upstream false)
      let r := unit.resync env u flags r
      let (own, r) ← continue_sync u (r.units u).m_unit_profile flags r
      some (profile, r.modify u (unit.set_profile own))
    else
      let r := r.modify u (unit.register_metric .state profile.state)
      continue_sync u profile flags r
  else do
    let (profile, flags) :=
      if flags.has sync_flags.source then (profile, flags ^^^ sync_flags.source)
      else (apply_unit_profile (r.units u).m_unit_profile profile, flags)
    let (profile, r) ← continue_sync u profile flags r
    some (profile, unit.resync env u flags r)

def mainline.sync_line (u : ι) (profile : sync_profile) (flags : sync_flag) (line : Nat)
    (r : rack ι) : Option (Pass ι) :=
  if flags.has sync_flags.upstream then
    let r :=
      if (r.units u).m_upstream then
        unit.resync env u flags (r.modify u (unit.set_upstream false))
      else r
    continue_sync u { profile with state := (r.units u).m_unit_profile.state } flags r
  else unit.sync_line env continue_sync u profile flags line r

def combine.set_input (line : Nat) (b : Bool) (x : unit ι) : unit ι :=
  { x with m_input_state := x.m_input_state.set line b }

def combine.all_inactive (x : unit ι) : Bool := x.m_input_state.all (!·)

def combine.sync_line (u : ι) (profile : sync_profile) (flags : sync_flag) (line : Nat)
    (r : rack ι) : Option (Pass ι) :=
  if flags.has sync_flags.upstream then
    if profile.state = line_state.active.toInt then
      let r := r.modify u (combine.set_input line true)
      if (r.units u).m_global_profile.state = line_state.inactive.toInt then
        let r := r.modify u (unit.register_metric .state line_state.active.toInt)
        continue_sync u profile flags r
      else some (profile, r)
    else
      let r := r.modify u (combine.set_input line false)
      if (r.units u).m_global_profile.state = line_state.active.toInt then
        if combine.all_inactive (r.units u) then
          let r := r.modify u (unit.register_metric .state line_state.inactive.toInt)
          continue_sync u profile flags r
        else some (profile, r)
      else some (profile, r)
  else unit.sync_line env continue_sync u profile flags line r

/-- What a dispatch does to the profile before it takes part as a unit does. -/
def dispatch.override (x : unit ι) (flags : sync_flag) (profile : sync_profile) : sync_profile :=
  let profile :=
    if profile.state = line_state.flushing.toInt then profile
    else { profile with state := x.m_unit_profile.state }
  if flags.has sync_flags.glob_sync then { profile with period := x.m_unit_profile.period }
  else profile

/-- An upstream sync ends at a dispatch. -/
def dispatch.sync_line (u : ι) (profile : sync_profile) (flags : sync_flag) (line : Nat)
    (r : rack ι) : Option (Pass ι) :=
  if flags.has sync_flags.upstream then
    if profile.state = (r.units u).m_global_profile.state then some (profile, r)
    else
      let r := r.modify u (unit.register_metric .state profile.state)
      let r := unit.trigger_sync u sync_flags.glob_sync r
      if profile.state = line_state.active.toInt then some (profile, unit.trigger_cycle r)
      else some (profile, r)
  else
    unit.sync_line env continue_sync u (dispatch.override (r.units u) flags profile) flags line r

/-- The virtual call. -/
def dispatch_sync_line (u : ι) (profile : sync_profile) (flags : sync_flag) (line : Nat)
    (r : rack ι) : Option (Pass ι) :=
  match (r.units u).m_class with
  | .unit => unit.sync_line env continue_sync u profile flags line r
  | .mainline => mainline.sync_line env continue_sync u profile flags line r
  | .combine => combine.sync_line env continue_sync u profile flags line r
  | .dispatch => dispatch.sync_line env continue_sync u profile flags line r

end classes

/-- `sync_line` of the unit `u`, as deep as the fuel goes. -/
def sync_line (env : environment ι) :
    Nat → ι → sync_profile → sync_flag → Nat → rack ι → Option (Pass ι)
  | 0, _, _, _, _, _ => none
  | fuel + 1, u, profile, flags, line, r =>
    dispatch_sync_line env (continue_sync (sync_line env fuel)) u profile flags line r

/-! ## The cycle of a line -/

def start_line (x : unit ι) : unit ι :=
  { x with m_line_profile := { x.m_line_profile with
      state := line_state.active.toInt
      period := 0
      drift := 0 } }

/-- The unit's own part of a cycle. -/
def cycle_unit (env : environment ι) (fuel : Nat) (u : ι) (type : cycle_type) (r : rack ι) :
    Option (cycle_state × rack ι) :=
  match type with
  | .ac =>
    if (r.units u).m_line_profile.state = line_state.flushing.toInt then some (.complete, r)
    else
      let (state, requests) := env.cycle u r
      some (state, requests.foldl (unit.perform u) { r with calls := r.calls ++ [.cycle u] })
  | .sync => do
    let r := r.modify u start_line
    let (profile, r) ← sync_line env fuel u (r.units u).m_line_profile sync_flags.source 0 r
    some (.complete, r.modify u fun x => { x with m_line_profile := profile })
  | .warmup =>
    if (r.units u).m_cstate = .active then some (.complete, r)
    else
      let (state, requests) := env.init u r
      let r := requests.foldl (unit.perform u) { r with calls := r.calls ++ [.init u] }
      if state = .complete then
        some (state, r.modify u fun x => { x with m_cstate := .active })
      else some (state, r)

/-- `cycle_line`. What the units further down report is not looked at. -/
def cycle_line (env : environment ι) :
    Nat → ι → cycle_type → rack ι → Option (cycle_state × rack ι)
  | 0, _, _, _ => none
  | fuel + 1, u, type, r => do
    let (state, r) ← cycle_unit env (fuel + 1) u type r
    if state ≠ .complete then some (state, r)
    else
      let r ← (r.units u).m_outputs.foldlM
        (fun r out =>
          match out.connected, out.to_in with
          | true, some (v, _) => (cycle_line env fuel v type r).map (·.2)
          | _, _ => some r)
        r
      some (state, r)

end strangeio.component
