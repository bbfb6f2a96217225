-- The profile of a unit after the metrics that it registers (component/unit.cpp), with
-- integers and with floats. `none` is what the language leaves undefined.
import Mathlib.Data.List.Infix
import Mathlib.Data.List.Induction
import StrangeIO.Unit

namespace strangeio.component

variable {F : Type} [OfNat F 0] (c : floats F)

/-- `(int) value` cuts the fraction off, and is undefined beyond the range of an `int`. -/
def floats.to_int (value : F) : Option Int := do
  let x ← c.value value
  let n := x.num.tdiv x.den
  if -2147483648 ≤ n ∧ n < 2147483648 then some n else none

/-- `register_metric` with a float. -/
def register_metric_float (type : profile_metric) (value : F) (p : sync_profile F) :
    Option (sync_profile F) :=
  match type with
  | .latency => (c.to_int value).map fun n => { p with latency := n }
  | .channels => (c.to_int value).map fun n => { p with channels := n }
  | .period => (c.to_int value).map fun n => { p with period := n }
  | .fs => (c.to_int value).map fun n => { p with fs := n }
  | .drift => some { p with drift := value }
  | .state => (c.to_int value).map fun n => { p with state := n }
  | .bpm => (c.to_int value).map fun n => { p with bpm := n }
  | .fill => (c.to_int value).map fun n => { p with fill := n }

/-- What a metric is registered with, which selects the overload. -/
inductive metric_value (F : Type) where
  | int (value : Int)
  | float (value : F)
deriving DecidableEq

abbrev metric_call (F : Type) := profile_metric × metric_value F

def register (p : sync_profile F) : metric_call F → Option (sync_profile F)
  | (type, .int value) => some (register_metric c type value p)
  | (type, .float value) => register_metric_float c type value p

/-- The profile of a unit that made the calls, and no others. -/
def profile_after (calls : List (metric_call F)) : Option (sync_profile F) :=
  calls.foldlM (register c) {}

/-! ## The last value of a metric -/

def sync_profile.metric (p : sync_profile F) : profile_metric → metric_value F
  | .latency => .int p.latency
  | .channels => .int p.channels
  | .period => .int p.period
  | .fs => .int p.fs
  | .drift => .float p.drift
  | .state => .int p.state
  | .bpm => .int p.bpm
  | .fill => .int p.fill

/-- The value of the last call for the metric. -/
def last_registered (calls : List (metric_call F)) (m : profile_metric) :
    Option (metric_value F) :=
  (calls.reverse.find? fun call => decide (call.1 = m)).map Prod.snd

/-- The field has the value that was registered for the metric: an integer drift is a
percentage, and a float for another metric is a whole number. -/
def metric_value.held (m : profile_metric) (registered field : metric_value F) : Prop :=
  match registered with
  | .int value =>
    if m = .drift then field = .float (c.div (c.of_int value) (c.of_int 100))
    else field = .int value
  | .float value =>
    if m = .drift then field = .float value
    else ∃ n : Int, field = .int n ∧ c.value value = some (n : Rat)

/-- The profile has what was registered last, and each call changed its own metric only. -/
structure HoldsLast (calls : List (metric_call F)) (p : sync_profile F) : Prop where
  last : ∀ m value, last_registered calls m = some value → value.held c m (p.metric m)
  initial : ∀ m, last_registered calls m = none → p.metric m = ({} : sync_profile F).metric m
  frame : ∀ pre call q q', pre ++ [call] <+: calls → profile_after c pre = some q →
    profile_after c (pre ++ [call]) = some q' → ∀ m, m ≠ call.1 → q'.metric m = q.metric m
  jumps : p.jumps = 0

/-- What the field of a metric becomes. -/
def metric_value.stored (m : profile_metric) : metric_value F → Option (metric_value F)
  | .int value =>
    some (if m = .drift then .float (c.div (c.of_int value) (c.of_int 100)) else .int value)
  | .float value => if m = .drift then some (.float value) else (c.to_int value).map .int

/-- What the field of a metric is after the calls, where each changes its own only. -/
def last_stored (calls : List (metric_call F)) (m : profile_metric) : Option (metric_value F) :=
  match last_registered calls m with
  | some value => value.stored c m
  | none => some (({} : sync_profile F).metric m)

/-- An integer for the beats is also one for the fill, so that it has to be the one that is
there; and what is registered for a metric of integers is an integer. -/
structure Registers (calls : List (metric_call F)) : Prop where
  beats : ∀ pre value, pre ++ [(.bpm, .int value)] <+: calls →
    last_stored c pre .fill = some (.int value)
  in_range : ∀ m value, (m, .float value) ∈ calls → m ≠ .drift → ∃ n, c.to_int value = some n
  whole : ∀ m value, last_registered calls m = some (.float value) → m ≠ .drift →
    ∃ n : Int, c.value value = some (n : Rat)

omit [OfNat F 0] in
theorem last_registered_snoc (calls : List (metric_call F)) (call : metric_call F)
    (m : profile_metric) :
    last_registered (calls ++ [call]) m =
      if call.1 = m then some call.2 else last_registered calls m := by
  unfold last_registered
  rw [List.reverse_append]
  simp only [List.reverse_singleton, List.singleton_append, List.find?_cons]
  by_cases hm : call.1 = m
  · simp [hm]
  · simp [hm]

theorem last_stored_snoc (calls : List (metric_call F)) (call : metric_call F)
    (m : profile_metric) :
    last_stored c (calls ++ [call]) m =
      if call.1 = m then call.2.stored c m else last_stored c calls m := by
  unfold last_stored
  rw [last_registered_snoc]
  by_cases hm : call.1 = m
  · rw [if_pos hm, if_pos hm]
  · rw [if_neg hm, if_neg hm]

omit [OfNat F 0] in
theorem to_int_of_whole {value : F} {k n : Int} (hk : c.value value = some (k : Rat))
    (hn : c.to_int value = some n) : n = k := by
  unfold floats.to_int at hn
  rw [hk] at hn
  simp only [Option.bind_eq_bind, Option.bind_some, Rat.num_intCast, Rat.den_intCast,
    Nat.cast_one, Int.tdiv_one] at hn
  split at hn
  · exact (Option.some.inj hn).symm
  · cases hn

omit [OfNat F 0] in
/-- A value that is stored is held where it is no fraction. -/
theorem held_of_stored {m : profile_metric} {registered field : metric_value F}
    (h : registered.stored c m = some field) :
    registered.held c m field ↔
      ∀ value, registered = .float value → m ≠ .drift →
        ∃ n : Int, c.value value = some (n : Rat) := by
  cases registered with
  | int value =>
    have hfield := (Option.some.inj h).symm
    refine iff_of_true ?_ (fun _ heq => by cases heq)
    by_cases hm : m = .drift
    · simpa [metric_value.held, hm] using hfield
    · simpa [metric_value.held, hm] using hfield
  | float value =>
    by_cases hm : m = .drift
    · have hfield : metric_value.float value = field := by simpa [metric_value.stored, hm] using h
      refine iff_of_true ?_ (fun _ _ hne => absurd hm hne)
      simp [metric_value.held, hm, hfield]
    · obtain ⟨n, hn, rfl⟩ : ∃ n, c.to_int value = some n ∧ metric_value.int n = field := by
        simpa [metric_value.stored, hm] using h
      constructor
      · intro hheld value' hvalue _
        cases hvalue
        obtain ⟨k, -, hk⟩ : ∃ k : Int, (.int n : metric_value F) = .int k ∧
            c.value value = some (k : Rat) := by
          simpa [metric_value.held, hm] using hheld
        exact ⟨k, hk⟩
      · intro hall
        obtain ⟨k, hk⟩ := hall value rfl hm
        obtain rfl := to_int_of_whole c hk hn
        simp only [metric_value.held, if_neg hm]
        exact ⟨n, rfl, hk⟩

/-! ## One call -/

theorem profile_after_snoc (calls : List (metric_call F)) (call : metric_call F) :
    profile_after c (calls ++ [call]) = (profile_after c calls).bind (register c · call) := by
  unfold profile_after
  rw [List.foldlM_append]
  congr 1
  funext p
  simp

variable {c}

theorem register_own {p p' : sync_profile F} {call : metric_call F}
    (h : register c p call = some p') : call.2.stored c call.1 = some (p'.metric call.1) := by
  obtain ⟨type, value⟩ := call
  cases value with
  | int value =>
    cases h
    cases type <;> rfl
  | float value =>
    cases type with
    | drift =>
      cases h
      rfl
    | _ =>
      obtain ⟨n, hn, rfl⟩ := Option.map_eq_some_iff.mp h
      simp [metric_value.stored, hn, sync_profile.metric]

/-- Both overloads agree on what they leave, but for the fill under the beats. -/
theorem register_other {p p' : sync_profile F} {call : metric_call F}
    (h : register c p call = some p') {m : profile_metric} (hm : m ≠ call.1)
    (hbeats : m = .fill → ∀ value, call ≠ (.bpm, .int value)) : p'.metric m = p.metric m := by
  obtain ⟨type, value⟩ := call
  cases value with
  | int value =>
    cases h
    cases type with
    | bpm =>
      cases m with
      | fill => exact absurd rfl (hbeats rfl value)
      | bpm => exact absurd rfl hm
      | _ => rfl
    | _ =>
      cases m <;> first | rfl | exact absurd rfl hm
  | float value =>
    cases type with
    | drift =>
      cases h
      cases m <;> first | rfl | exact absurd rfl hm
    | _ =>
      obtain ⟨n, -, rfl⟩ := Option.map_eq_some_iff.mp h
      cases m <;> first | rfl | exact absurd rfl hm

theorem register_beats {p p' : sync_profile F} {value : Int}
    (h : register c p (.bpm, .int value) = some p') : p'.metric .fill = .int value := by
  cases h
  rfl

theorem register_jumps {p p' : sync_profile F} {call : metric_call F}
    (h : register c p call = some p') : p'.jumps = p.jumps := by
  obtain ⟨type, value⟩ := call
  cases value with
  | int value =>
    cases h
    cases type <;> rfl
  | float value =>
    cases type with
    | drift =>
      cases h
      rfl
    | _ =>
      obtain ⟨n, -, rfl⟩ := Option.map_eq_some_iff.mp h
      rfl

/-- A call ends where an integer can be made of its value. -/
theorem register_ends (p : sync_profile F) {call : metric_call F}
    (h : ∀ value, call.2 = .float value → call.1 ≠ .drift → ∃ n, c.to_int value = some n) :
    ∃ p', register c p call = some p' := by
  obtain ⟨type, value⟩ := call
  cases value with
  | int value => exact ⟨_, rfl⟩
  | float value =>
    cases type with
    | drift => exact ⟨_, rfl⟩
    | _ =>
      obtain ⟨n, hn⟩ := h value rfl profile_metric.noConfusion
      simp only [register, register_metric_float, hn, Option.map_some]
      exact ⟨_, rfl⟩

/-! ## All calls -/

theorem jumps_after {calls : List (metric_call F)} {p : sync_profile F}
    (h : profile_after c calls = some p) : p.jumps = 0 := by
  induction calls using List.reverseRecOn generalizing p with
  | nil =>
    cases h
    rfl
  | append_singleton calls call ih =>
    rw [profile_after_snoc] at h
    obtain ⟨q, hq, hp⟩ := Option.bind_eq_some_iff.mp h
    rw [register_jumps hp, ih hq]

/-- What a prefix of the calls made is there before the others. -/
theorem profile_of_prefix {pre calls : List (metric_call F)} (hpre : pre <+: calls)
    {p : sync_profile F} (h : profile_after c calls = some p) :
    ∃ q, profile_after c pre = some q := by
  obtain ⟨post, rfl⟩ := hpre
  unfold profile_after at h
  rw [List.foldlM_append] at h
  obtain ⟨q, hq, -⟩ := Option.bind_eq_some_iff.mp h
  exact ⟨q, hq⟩

/-- When every call changes its own metric only, the last value is there. -/
theorem last_of_frame {calls : List (metric_call F)}
    (h : ∀ pre call q q', pre ++ [call] <+: calls → profile_after c pre = some q →
      profile_after c (pre ++ [call]) = some q' → ∀ m, m ≠ call.1 → q'.metric m = q.metric m)
    {p : sync_profile F} (hp : profile_after c calls = some p) (m : profile_metric) :
    last_stored c calls m = some (p.metric m) := by
  induction calls using List.reverseRecOn generalizing p with
  | nil =>
    cases hp
    rfl
  | append_singleton calls call ih =>
    have ih := fun {p} => ih (p := p) fun pre call' q q' hpre =>
      h pre call' q q' (hpre.trans (List.prefix_append _ _))
    have hsnoc := hp
    rw [profile_after_snoc] at hsnoc
    obtain ⟨q, hq, hcall⟩ := Option.bind_eq_some_iff.mp hsnoc
    rw [last_stored_snoc]
    split
    · rename_i hm
      subst hm
      exact register_own hcall
    · rename_i hm
      rw [h calls call q p List.prefix_rfl hq hp m (Ne.symm hm)]
      exact ih hq

theorem Registers.init {calls : List (metric_call F)} {call : metric_call F}
    (h : ∀ pre value, pre ++ [(.bpm, .int value)] <+: calls ++ [call] →
      last_stored c pre .fill = some (.int value)) :
    ∀ pre value, pre ++ [(.bpm, .int value)] <+: calls →
      last_stored c pre .fill = some (.int value) :=
  fun pre value hpre => h pre value (hpre.trans (List.prefix_append _ _))

theorem frame_of_beats {calls : List (metric_call F)}
    (h : ∀ pre value, pre ++ [(.bpm, .int value)] <+: calls →
      last_stored c pre .fill = some (.int value))
    {pre : List (metric_call F)} {call : metric_call F} {q q' : sync_profile F}
    (hpre : pre ++ [call] <+: calls) (hq : profile_after c pre = some q)
    (hq' : profile_after c (pre ++ [call]) = some q') {m : profile_metric} (hm : m ≠ call.1) :
    q'.metric m = q.metric m := by
  induction calls using List.reverseRecOn generalizing pre call q q' m with
  | nil => simp at hpre
  | append_singleton calls call' ih =>
    rcases List.prefix_concat_iff.mp hpre with heq | hpre'
    · obtain ⟨rfl, rfl⟩ := List.append_singleton_inj.mp heq
      have hcall := hq'
      rw [profile_after_snoc, hq, Option.bind_some] at hcall
      by_cases hbeats : m = .fill ∧ ∃ value, call = (.bpm, .int value)
      · -- the fill is there already
        obtain ⟨rfl, value, rfl⟩ := hbeats
        have hlast := last_of_frame
          (fun pre' call q q' hpre hq hq' m hm => ih (Registers.init h) hpre hq hq' hm) hq .fill
        rw [h pre value List.prefix_rfl] at hlast
        rw [register_beats hcall]
        exact Option.some.inj hlast
      · exact register_other hcall hm fun hfill value hcall => hbeats ⟨hfill, value, hcall⟩
    · exact ih (Registers.init h) hpre' hq hq' hm

/-- The calls end where each value can be stored. -/
theorem profile_ends {calls : List (metric_call F)}
    (h : ∀ m value, (m, .float value) ∈ calls → m ≠ .drift → ∃ n, c.to_int value = some n) :
    ∃ p, profile_after c calls = some p := by
  induction calls using List.reverseRecOn with
  | nil => exact ⟨{}, rfl⟩
  | append_singleton calls call ih =>
    obtain ⟨p, hp⟩ := ih fun m value hmem => h m value (List.mem_append_left _ hmem)
    rw [profile_after_snoc, hp, Option.bind_some]
    apply register_ends
    intro value hvalue
    refine h call.1 value (List.mem_append_right _ ?_)
    rw [← hvalue]
    exact List.mem_singleton_self call

theorem in_range_of_profile {calls : List (metric_call F)} {p : sync_profile F}
    (h : profile_after c calls = some p) {m : profile_metric} {value : F}
    (hmem : (m, .float value) ∈ calls) (hm : m ≠ .drift) : ∃ n, c.to_int value = some n := by
  obtain ⟨pre, post, rfl⟩ := List.append_of_mem hmem
  have hpre : pre ++ [(m, .float value)] <+: pre ++ (m, .float value) :: post := ⟨post, by simp⟩
  obtain ⟨q, hq⟩ := profile_of_prefix hpre h
  rw [profile_after_snoc] at hq
  obtain ⟨q', -, hcall⟩ := Option.bind_eq_some_iff.mp hq
  have hstored := register_own hcall
  simp only [metric_value.stored, if_neg hm] at hstored
  obtain ⟨n, hn, -⟩ := Option.map_eq_some_iff.mp hstored
  exact ⟨n, hn⟩

/-- What is stored last is what was registered last. -/
theorem last_stored_of_registered {calls : List (metric_call F)} {m : profile_metric}
    {value : metric_value F} (h : last_registered calls m = some value) :
    last_stored c calls m = value.stored c m := by
  unfold last_stored
  rw [h]

theorem registers_of_holds {calls : List (metric_call F)} {p : sync_profile F}
    (hp : profile_after c calls = some p) (h : HoldsLast c calls p) : Registers c calls := by
  have hlast := last_of_frame h.frame hp
  refine ⟨?_, fun m value => in_range_of_profile hp, ?_⟩
  · intro pre value hpre
    obtain ⟨q', hq'⟩ := profile_of_prefix hpre hp
    have hpre' : pre <+: calls := (List.prefix_append _ _).trans hpre
    have hcall := hq'
    rw [profile_after_snoc] at hcall
    obtain ⟨q, hq, hcall⟩ := Option.bind_eq_some_iff.mp hcall
    have hfill := last_of_frame
      (fun pre' call q q' hcall => h.frame pre' call q q' (hcall.trans hpre')) hq .fill
    rw [hfill, ← h.frame pre _ q q' hpre hq hq' .fill profile_metric.noConfusion,
      register_beats hcall]
  · intro m value hvalue hm
    have hstored := hlast m
    rw [last_stored_of_registered hvalue] at hstored
    exact (held_of_stored c hstored).mp (h.last m _ hvalue) value rfl hm

theorem holds_of_registers {calls : List (metric_call F)} (h : Registers c calls) :
    ∃ p, profile_after c calls = some p ∧ HoldsLast c calls p := by
  obtain ⟨p, hp⟩ := profile_ends h.in_range
  have hframe : ∀ pre call q q', pre ++ [call] <+: calls → profile_after c pre = some q →
      profile_after c (pre ++ [call]) = some q' → ∀ m, m ≠ call.1 → q'.metric m = q.metric m :=
    fun _ _ _ _ hpre hq hq' _ hm => frame_of_beats h.beats hpre hq hq' hm
  have hlast := last_of_frame hframe hp
  refine ⟨p, hp, ?_, ?_, hframe, jumps_after hp⟩
  · intro m value hvalue
    have hstored := hlast m
    rw [last_stored_of_registered hvalue] at hstored
    rw [held_of_stored c hstored]
    rintro value rfl hm
    exact h.whole m value hvalue hm
  · intro m hnone
    have hstored := hlast m
    unfold last_stored at hstored
    rw [hnone] at hstored
    exact (Option.some.inj hstored).symm

variable (c)

/-- **The profile has the last value of each metric, and each call changes its own metric only,
just when what is registered for a metric of integers is an integer**, and every integer that is
registered for the beats is the one registered last for the fill: the case of `bpm` falls
through. -/
theorem metrics_hold_if_the_beats_are_the_fill (calls : List (metric_call F)) :
    (∃ p, profile_after c calls = some p ∧ HoldsLast c calls p) ↔ Registers c calls := by
  constructor
  · rintro ⟨p, hp, h⟩
    exact registers_of_holds hp h
  · exact holds_of_registers

/-- 120 beats fill the buffer. -/
theorem beats_fill : ¬ ∀ calls : List (metric_call Rat),
    ∃ p, profile_after .exact calls = some p ∧ HoldsLast .exact calls p := by
  intro hall
  obtain ⟨p, hp, h⟩ := hall [(.bpm, .int 120)]
  cases hp
  exact absurd (h.initial .fill rfl) (by decide)

/-! ## The unit -/

variable {ι : Type}

def unit.register (x : unit ι) (call : metric_call Rat) : Option (unit ι) :=
  (component.register .exact x.m_unit_profile call).map fun p => { x with m_unit_profile := p }

theorem register_metric_unit (type : profile_metric) (value : Int) (x : unit ι) :
    x.register (type, .int value) = some (unit.register_metric type value x) := rfl

/-- A new unit has the profile of its calls. -/
theorem unit_profile_after (calls : List (metric_call Rat)) (x : unit ι)
    (hx : x.m_unit_profile = {}) :
    calls.foldlM unit.register x =
      (profile_after .exact calls).map fun p => { x with m_unit_profile := p } := by
  induction calls using List.reverseRecOn with
  | nil =>
    change some x = some { x with m_unit_profile := {} }
    rw [← hx]
  | append_singleton calls call ih =>
    rw [List.foldlM_append, ih, profile_after_snoc]
    cases profile_after .exact calls with
    | none => rfl
    | some p => simp [unit.register]

end strangeio.component
