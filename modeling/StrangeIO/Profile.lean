-- The profiles and the flags of a sync, as component/component.hpp has them,
-- and what one unit registers and applies (component/unit.cpp).
import Mathlib.Algebra.Field.Rat

namespace strangeio.component

inductive line_state where
  | inactive
  | active
  | flushing
deriving DecidableEq, Repr

/-- `(int) line_state::..`. -/
def line_state.toInt : line_state → Int
  | .inactive => 0
  | .active => 1
  | .flushing => 2

inductive cycle_type where
  | warmup
  | sync
  | ac
deriving DecidableEq, Repr

inductive cycle_state where
  | complete
  | partial_
  | error
  | empty
deriving DecidableEq, Repr

inductive component_state where
  | inactive
  | active
deriving DecidableEq, Repr

inductive profile_metric where
  | latency
  | channels
  | period
  | fs
  | drift
  | state
  | bpm
  | fill
deriving DecidableEq, Repr

/-! ## Flags -/

/-- The 32 bits of an `int`. -/
abbrev sync_flag := BitVec 32

namespace sync_flags

def source : sync_flag := 1
def sync_duration : sync_flag := 2
def glob_sync : sync_flag := 4
def upstream : sync_flag := 8
def downstream : sync_flag := 16

end sync_flags

/-- `flags & flag`, as a condition. -/
def sync_flag.has (flags flag : sync_flag) : Bool := flags &&& flag != 0

namespace sync_flag

theorem has_twoPow (flags : sync_flag) (k : Nat) (hk : k < 32) :
    flags.has (BitVec.twoPow 32 k) = flags.getLsbD k := by
  unfold has
  rw [BitVec.and_twoPow]
  cases flags.getLsbD k with
  | false => simp
  | true =>
    simp only [if_true, bne_iff_ne, ne_eq]
    intro h
    have := congrArg (·.getLsbD k) h
    simp [hk] at this

theorem has_sync_duration (flags : sync_flag) :
    flags.has sync_flags.sync_duration = flags.getLsbD 1 := has_twoPow flags 1 (by decide)

theorem has_glob_sync (flags : sync_flag) :
    flags.has sync_flags.glob_sync = flags.getLsbD 2 := has_twoPow flags 2 (by decide)

theorem has_upstream (flags : sync_flag) :
    flags.has sync_flags.upstream = flags.getLsbD 3 := has_twoPow flags 3 (by decide)

theorem has_downstream (flags : sync_flag) :
    flags.has sync_flags.downstream = flags.getLsbD 4 := has_twoPow flags 4 (by decide)

end sync_flag

/-! ## Profiles -/

/-- The drift is a `float`, of which the type says how exact it is: that of a plain profile is
a rational number. The state is the number of a `line_state`. -/
structure sync_profile (F : Type := Rat) [OfNat F 0] where
  latency : Int := 0
  channels : Int := 0
  period : Int := 0
  fs : Int := 0
  bpm : Int := 0
  drift : F := 0
  jumps : Int := 0
  state : Int := 0
  fill : Int := 0
deriving DecidableEq

/-- What the code does with a `float`: `(float) value`, the quotient, and the number that it
is, unless it is infinite or not a number. -/
structure floats (F : Type) where
  of_int : Int → F
  div : F → F → F
  value : F → Option Rat

/-- Floats that are exact. -/
def floats.exact : floats Rat where
  of_int value := value
  div x y := x / y
  value := some

/-- `register_metric` with an integer. The case of `bpm` falls through to `fill`. -/
def register_metric {F : Type} [OfNat F 0] (c : floats F) (type : profile_metric) (value : Int)
    (p : sync_profile F) : sync_profile F :=
  match type with
  | .latency => { p with latency := value }
  | .channels => { p with channels := value }
  | .period => { p with period := value }
  | .fs => { p with fs := value }
  | .drift => { p with drift := c.div (c.of_int value) (c.of_int 100) }
  | .state => { p with state := value }
  | .bpm => { p with bpm := value, fill := value }
  | .fill => { p with fill := value }

/-- The drift after a unit that drifts itself. -/
def shift_drift (drift unit_drift : Rat) : Rat :=
  if unit_drift = 0 then drift
  else if 0 < drift then drift + drift * unit_drift
  else if drift < 0 then drift + drift * (-1) * unit_drift
  else unit_drift

/-- What a unit with the profile `unit_profile` does to the profile of its line. -/
def apply_unit_profile (unit_profile profile : sync_profile) : sync_profile where
  latency := profile.latency + unit_profile.latency
  channels := if 0 < unit_profile.channels then unit_profile.channels else profile.channels
  period :=
    if 0 < unit_profile.period ∧ profile.period < unit_profile.period then unit_profile.period
    else profile.period
  fs := if 0 < unit_profile.fs then unit_profile.fs else profile.fs
  bpm := if 0 < unit_profile.bpm then unit_profile.bpm else profile.bpm
  drift := shift_drift profile.drift unit_profile.drift
  jumps := profile.jumps + 1
  state :=
    if unit_profile.state = line_state.flushing.toInt then unit_profile.state else profile.state
  fill :=
    if 0 < unit_profile.fill ∧ profile.fill < unit_profile.fill then unit_profile.fill
    else profile.fill

end strangeio.component
