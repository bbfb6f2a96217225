-- The cycles and the syncs of a rack over its mainlines
-- (component/backend.cpp), and the sync pass of the rack loop
-- (component/rack.cpp).
import StrangeIO.Unit

namespace strangeio.component

variable {ι : Type} [DecidableEq ι]

namespace backend

def cycle (env : environment ι) (fuel : Nat) (type : cycle_type) (r : rack ι) :
    Option (cycle_state × rack ι) :=
  r.m_raw_mainlines.foldlM (fun s u => cycle_line env fuel u type s.2) (.empty, r)

/-- `sync` with a profile, which all mainlines share by reference. -/
def sync_profile (env : environment ι) (fuel : Nat) (profile : component.sync_profile)
    (flags : sync_flag) (r : rack ι) : Option (Pass ι) :=
  r.m_raw_mainlines.foldlM (fun pass u => sync_line env fuel u pass.1 flags 0 pass.2) (profile, r)

def profile_sync (env : environment ι) (fuel : Nat) (r : rack ι) : Option (rack ι) := do
  let (_, r) ← cycle env fuel .sync r
  some { r with performed := r.performed ++ [.sync_duration] }

/-- A mainline that is declared but not connected is a null pointer here. -/
def profile_line (env : environment ι) (fuel : Nat) (m_mainlines : String → Option (Option ι))
    (profile : component.sync_profile) (mainline : String) (r : rack ι) :
    Option (Bool × Pass ι) :=
  match m_mainlines mainline with
  | none => some (false, profile, r)
  | some none => none
  | some (some u) => (sync_line env fuel u profile 0 0 r).map (true, ·)

end backend

/-- `resync` of the rack: it builds the cache once. The block size is an
`int` that becomes `unsigned`. -/
def rack.resync (env : environment ι) (r : rack ι) : rack ι :=
  match r.m_cache with
  | none => r
  | some c =>
    if 0 < c.m_block_size then r
    else
      let size := (r.m_global_profile.period * 2 * r.m_global_profile.channels).emod memory.u32
      { r with m_cache := some (c.build_cache env.raw size.toNat) }

namespace backend

/-- The upstream part of a sync: every mainline gets a copy of the profile. -/
def sync_upstream (env : environment ι) (fuel : Nat) (flags : sync_flag) (r : rack ι) :
    Option (rack ι) :=
  r.m_raw_mainlines.foldlM
    (fun r u => (sync_line env fuel u r.m_global_profile flags 0 r).map (·.2)) r

/-- What a sync does before its last cycle, when it does not return early. -/
def sync_lines (env : environment ι) (fuel : Nat) (flags : sync_flag) (r : rack ι) :
    Option (rack ι) :=
  if flags.has sync_flags.glob_sync then do
    let (profile, r) ← sync_profile env fuel r.m_global_profile flags r
    let r := rack.resync env { r with m_global_profile := profile }
    some { r with performed := r.performed ++ [.glob_sync] }
  else if flags.has sync_flags.upstream then do
    let r ← sync_upstream env fuel flags r
    some { r with performed := r.performed ++ [.upstream] }
  else some r

/-- The cycle that a downstream sync adds in front. -/
def sync_downstream (env : environment ι) (fuel : Nat) (flags : sync_flag) (r : rack ι) :
    Option (rack ι) :=
  if flags.has sync_flags.downstream then do
    let (_, r) ← cycle env fuel .sync r
    some { r with performed := r.performed ++ [.downstream] }
  else some r

def sync (env : environment ι) (fuel : Nat) (flags : sync_flag) (r : rack ι) :
    Option (rack ι) := do
  let r ← sync_downstream env fuel flags r
  if flags.has sync_flags.sync_duration then profile_sync env fuel r
  else
    let r ← sync_lines env fuel flags r
    let (_, r) ← cycle env fuel .sync r
    some r

end backend

/-! ## The sync pass -/

/-- The upstream sync of a pass, which comes first. -/
def rack.upstream_sync (env : environment ι) (fuel : Nat) (r : rack ι) : Option (rack ι) :=
  if r.m_resync_flags.has sync_flags.upstream then do
    let r ← backend.sync env fuel sync_flags.upstream r
    some { r with m_resync_flags := r.m_resync_flags ^^^ sync_flags.upstream }
  else some r

/-- The sync pass of the rack loop, after a cycle. -/
def rack.sync_pass (env : environment ι) (fuel : Nat) (r : rack ι) : Option (rack ι) :=
  if r.m_resync then
    if r.m_resync_flags ≠ 0 then do
      let r ← rack.upstream_sync env fuel r
      let r ← backend.sync env fuel r.m_resync_flags r
      some { r with m_resync_flags := 0, m_resync := false }
    else do
      let (_, r) ← backend.cycle env fuel .sync r
      some { r with m_resync := false }
  else some r

end strangeio.component
