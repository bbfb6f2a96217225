-- When the units agree with their rack after a global sync: a unit records the
-- profile as the sync leaves it for the last time, so that no unit that is
-- entered later may register anything new (component/unit.cpp).
import StrangeIO.GlobalSync

namespace strangeio.component

variable {ι : Type}

/-! ## What the units register -/

def positive (n : Int) : Option Int := if 0 < n then some n else none

/-- What the units register for a metric, in order: what is positive counts. -/
def registered_by (r : rack ι) (metric : sync_profile → Int) (us : List ι) : List Int :=
  us.filterMap fun u => positive (metric (r.units u).m_unit_profile)

/-- The state that a unit sets: a dispatch sets its own, and a line that is flushed is active. -/
def set_state (x : unit ι) : Option Int :=
  if x.m_unit_profile.state = line_state.flushing.toInt then some line_state.active.toInt
  else if x.m_class = .dispatch then some x.m_unit_profile.state
  else none

/-- The state that the rack starts with, and those that units set. No unit sets one
while the rack is flushing, which ends with the first. -/
def states (r : rack ι) (us : List ι) : List Int :=
  if r.m_global_profile.state = line_state.flushing.toInt then
    line_state.active.toInt :: us.tail.filterMap fun u => set_state (r.units u)
  else r.m_global_profile.state :: us.filterMap fun u => set_state (r.units u)

/-- The periods that count among those of the units, behind those of `ps`: a dispatch has its
own in place of all before it. -/
def periods (r : rack ι) (ps : List Int) (us : List ι) : List Int :=
  us.foldl
    (fun ps u =>
      if (r.units u).m_class = .dispatch then [(r.units u).m_unit_profile.period]
      else ps ++ (positive (r.units u).m_unit_profile.period).toList)
    ps

/-- The last value is the one that was last before it. -/
def KeepsLast (before after : List Int) : Prop := ∀ x ∈ after.getLast?, before.getLast? = some x

/-- No value is higher than all before it. -/
def NoneHigher (before after : List Int) : Prop := ∀ x ∈ after, ∃ y ∈ before, x ≤ y

/-- The units of `after`, entered after those of `before`, register nothing new: no other sample
rate, channels or beats (the last that is registered counts), no larger period or fill, and
no dispatch among them has another state or period. -/
structure NothingNew (r : rack ι) (before after : List ι) : Prop where
  fs : KeepsLast (r.m_global_profile.fs :: registered_by r (·.fs) before)
    (registered_by r (·.fs) after)
  channels : KeepsLast (r.m_global_profile.channels :: registered_by r (·.channels) before)
    (registered_by r (·.channels) after)
  bpm : KeepsLast (r.m_global_profile.bpm :: registered_by r (·.bpm) before)
    (registered_by r (·.bpm) after)
  state : KeepsLast (states r before) (after.filterMap fun u => set_state (r.units u))
  fill : NoneHigher (r.m_global_profile.fill :: registered_by r (·.fill) before)
    (registered_by r (·.fill) after)
  period : NoneHigher (periods r [r.m_global_profile.period] before) (periods r [] after)
  dispatch : (∃ u ∈ after, (r.units u).m_class = .dispatch) →
    NoneHigher (periods r [] after) (periods r [r.m_global_profile.period] before)

section registers

variable (r : rack ι)

/-- The profile after the units in turn. -/
def through (us : List ι) (p : sync_profile) : sync_profile :=
  us.foldl (fun p u => entered (r.units u) p) p

theorem through_snoc (us : List ι) (u : ι) (p : sync_profile) :
    through r (us ++ [u]) p = entered (r.units u) (through r us p) := by
  unfold through
  rw [List.foldl_append]
  rfl

/-- A field that units set is what was set last. -/
theorem through_last (field : sync_profile → Int) {set : ι → Option Int} {I : sync_profile → Prop}
    (hset : ∀ u p, I p → field (entered (r.units u) p) = (set u).getD (field p))
    (hkeep : ∀ u p, I (entered (r.units u) p)) {p : sync_profile} (hp : I p) (us : List ι) :
    I (through r us p) ∧
      (field p :: us.filterMap set).getLast? = some (field (through r us p)) := by
  induction us using List.reverseRecOn with
  | nil => exact ⟨hp, rfl⟩
  | append_singleton us u ih =>
    rw [through_snoc, hset u _ ih.1, List.filterMap_append, ← List.cons_append,
      List.getLast?_append, ih.2]
    refine ⟨hkeep u _, ?_⟩
    cases hu : set u with
    | none => simp [hu]
    | some x => simp [hu]

/-- The highest value. -/
def Highest (xs : List Int) (x : Int) : Prop := x ∈ xs ∧ ∀ y ∈ xs, y ≤ x

theorem Highest.unique {xs : List Int} {x y : Int} (hx : Highest xs x) (hy : Highest xs y) :
    x = y := Int.le_antisymm (hy.2 x hx.1) (hx.2 y hy.1)

theorem Highest.snoc {xs : List Int} {x : Int} (h : Highest xs x) (y : Option Int) :
    Highest (xs ++ y.toList) (max x (y.getD x)) := by
  cases y with
  | none => simpa using h
  | some y =>
    refine ⟨?_, ?_⟩
    · rcases Int.le_total x y with hle | hle
      · simp [Int.max_eq_right hle]
      · simp [Int.max_eq_left hle, h.1]
    · intro z hz
      rcases List.mem_append.mp hz with hz | hz
      · exact (h.2 z hz).trans (Int.le_max_left _ _)
      · obtain rfl : z = y := by simpa using hz
        exact Int.le_max_right _ _

/-- A field that units raise is the highest value that there was. -/
theorem through_highest (field : sync_profile → Int) {raise : ι → Option Int}
    (hraise : ∀ u p, field (entered (r.units u) p) = max (field p) ((raise u).getD (field p)))
    (p : sync_profile) (us : List ι) :
    Highest (field p :: us.filterMap raise) (field (through r us p)) := by
  induction us using List.reverseRecOn with
  | nil => exact ⟨List.mem_singleton_self _, by simp [through]⟩
  | append_singleton us u ih =>
    have hsnoc := ih.snoc (raise u)
    rw [through_snoc, hraise, List.filterMap_append, ← List.cons_append]
    cases hu : raise u with
    | none => simpa [hu] using hsnoc
    | some x => simpa [hu] using hsnoc

/-! ## One unit -/

/-- A dispatch changes the state and the period alone. -/
theorem overridden_field (field : sync_profile → Int)
    (hfield : ∀ p s n, field { p with state := s, period := n } = field p) (x : unit ι)
    (p : sync_profile) : field (overridden x p) = field p := by
  have hglob : sync_flags.glob_sync.has sync_flags.glob_sync = true := by decide
  unfold overridden
  split
  · unfold dispatch.override
    simp only [hglob, if_true]
    split
    · exact hfield p p.state x.m_unit_profile.period
    · exact hfield p x.m_unit_profile.state x.m_unit_profile.period
  · rfl

theorem positive_getD (n m : Int) : (positive n).getD m = if 0 < n then n else m := by
  unfold positive
  split
  · rfl
  · rfl

theorem max_positive (n m : Int) :
    max m ((positive n).getD m) = if 0 < n ∧ m < n then n else m := by
  rw [positive_getD]
  split_ifs <;> omega

theorem entered_fs (x : unit ι) (p : sync_profile) :
    (entered x p).fs = (positive x.m_unit_profile.fs).getD p.fs := by
  rw [entered_eq, positive_getD, ← overridden_field (·.fs) (fun _ _ _ => rfl) x p]
  rfl

theorem entered_channels (x : unit ι) (p : sync_profile) :
    (entered x p).channels = (positive x.m_unit_profile.channels).getD p.channels := by
  rw [entered_eq, positive_getD, ← overridden_field (·.channels) (fun _ _ _ => rfl) x p]
  rfl

theorem entered_bpm (x : unit ι) (p : sync_profile) :
    (entered x p).bpm = (positive x.m_unit_profile.bpm).getD p.bpm := by
  rw [entered_eq, positive_getD, ← overridden_field (·.bpm) (fun _ _ _ => rfl) x p]
  rfl

theorem entered_fill (x : unit ι) (p : sync_profile) :
    (entered x p).fill = max p.fill ((positive x.m_unit_profile.fill).getD p.fill) := by
  rw [entered_eq, max_positive, ← overridden_field (·.fill) (fun _ _ _ => rfl) x p]
  rfl

theorem entered_period (x : unit ι) (p : sync_profile) :
    (entered x p).period =
      if x.m_class = .dispatch then x.m_unit_profile.period
      else max p.period ((positive x.m_unit_profile.period).getD p.period) := by
  have hperiod := overridden_period x p
  rw [entered_eq, max_positive]
  change (if 0 < x.m_unit_profile.period ∧ (overridden x p).period < x.m_unit_profile.period
    then x.m_unit_profile.period else (overridden x p).period) = _
  rw [hperiod]
  split_ifs <;> omega

/-- The first unit makes a rack that is flushing an active one. -/
theorem entered_flushing (x : unit ι) {p : sync_profile}
    (h : p.state = line_state.flushing.toInt) :
    (entered x p).state = line_state.active.toInt := by
  have hstate : (overridden x p).state = line_state.flushing.toInt := by
    unfold overridden dispatch.override
    simp only [h, if_true]
    split_ifs <;> first | rfl | exact h
  rw [entered_state_eq, hstate]
  simp

theorem entered_state (x : unit ι) {p : sync_profile}
    (h : p.state ≠ line_state.flushing.toInt) :
    (entered x p).state = (set_state x).getD p.state := by
  have hstate := overridden_state (x := x) h
  rw [entered_state_eq, hstate]
  unfold set_state
  by_cases hflush : x.m_unit_profile.state = line_state.flushing.toInt
  · rw [if_pos hflush, if_pos hflush]
    rfl
  · rw [if_neg hflush, if_neg hflush]
    by_cases hclass : x.m_class = .dispatch
    · rw [if_pos hclass, if_pos hclass, if_neg hflush]
      rfl
    · rw [if_neg hclass, if_neg hclass, if_neg h]
      rfl

/-! ## Units that register nothing new -/

theorem states_last (us : List ι)
    (h : us ≠ [] ∨ r.m_global_profile.state ≠ line_state.flushing.toInt) :
    (states r us).getLast? = some (through r us r.m_global_profile).state := by
  have hrest : ∀ (us : List ι) (p : sync_profile), p.state ≠ line_state.flushing.toInt →
      (p.state :: us.filterMap fun u => set_state (r.units u)).getLast? =
        some (through r us p).state :=
    fun us p hp => (through_last r (·.state)
      (I := fun p => p.state ≠ line_state.flushing.toInt) (fun u p hp => entered_state _ hp)
      (fun u p => entered_not_flushing _ p) hp us).2
  unfold states
  split
  · rename_i hflush
    cases us with
    | nil => exact absurd hflush (h.resolve_left fun hne => hne rfl)
    | cons u us =>
      have hfirst := entered_flushing (r.units u) hflush
      have := hrest us (entered (r.units u) r.m_global_profile) (entered_not_flushing _ _)
      rw [hfirst] at this
      exact this
  · rename_i hstate
    exact hrest us r.m_global_profile hstate

theorem states_append {before : List ι} (h : before ≠ []) (after : List ι) :
    states r (before ++ after) =
      states r before ++ after.filterMap fun u => set_state (r.units u) := by
  unfold states
  split
  · rw [List.tail_append_of_ne_nil h, List.filterMap_append]
    rfl
  · rw [List.filterMap_append]
    rfl

theorem through_periods {ps : List Int} {p : sync_profile} (h : Highest ps p.period)
    (us : List ι) : Highest (periods r ps us) (through r us p).period := by
  induction us generalizing ps p with
  | nil => exact h
  | cons u us ih =>
    apply ih
    rw [entered_period]
    by_cases hu : (r.units u).m_class = .dispatch
    · simp only [hu, if_true]
      exact ⟨List.mem_singleton_self _, by simp⟩
    · simp only [hu, if_false]
      exact h.snoc _

/-- A dispatch among the units makes the periods before them count no more. -/
theorem periods_split (ps : List Int) (us : List ι) :
    periods r ps us =
      if ∃ u ∈ us, (r.units u).m_class = .dispatch then periods r [] us
      else ps ++ periods r [] us := by
  induction us using List.reverseRecOn with
  | nil => simp [periods]
  | append_singleton us u ih =>
    have hsnoc : ∀ ps, periods r ps (us ++ [u]) =
        if (r.units u).m_class = .dispatch then [(r.units u).m_unit_profile.period]
        else periods r ps us ++ (positive (r.units u).m_unit_profile.period).toList := by
      intro ps
      unfold periods
      rw [List.foldl_append]
      rfl
    rw [hsnoc, hsnoc, ih]
    by_cases hu : (r.units u).m_class = .dispatch
    · simp [hu]
    · by_cases hus : ∃ v ∈ us, (r.units v).m_class = .dispatch
      · have hmem : ∃ v ∈ us ++ [u], (r.units v).m_class = .dispatch := by
          obtain ⟨v, hv, hclass⟩ := hus
          exact ⟨v, List.mem_append_left _ hv, hclass⟩
        rw [if_neg hu, if_neg hu, if_pos hus, if_pos hmem]
      · have hmem : ¬ ∃ v ∈ us ++ [u], (r.units v).m_class = .dispatch := by
          rintro ⟨v, hv, hclass⟩
          rcases List.mem_append.mp hv with hv | hv
          · exact hus ⟨v, hv, hclass⟩
          · exact hu (List.mem_singleton.mp hv ▸ hclass)
        rw [if_neg hu, if_neg hu, if_neg hus, if_neg hmem, List.append_assoc]

end registers

theorem keeps_last_iff {before after : List Int} {x y : Int} (hx : before.getLast? = some x)
    (hy : (before ++ after).getLast? = some y) : y = x ↔ KeepsLast before after := by
  unfold KeepsLast
  rw [List.getLast?_append, hx] at hy
  cases hz : after.getLast? with
  | none =>
    rw [hz] at hy
    simpa [eq_comm] using hy
  | some z =>
    rw [hz] at hy
    obtain rfl : z = y := by simpa using hy
    simp [hx, eq_comm]

theorem none_higher_iff {before after : List Int} {x y : Int} (hx : Highest before x)
    (hy : Highest (before ++ after) y) : y = x ↔ NoneHigher before after := by
  constructor
  · rintro rfl z hz
    exact ⟨y, hx.1, hy.2 z (List.mem_append_right _ hz)⟩
  · intro h
    refine Int.le_antisymm ?_ (hy.2 x (List.mem_append_left _ hx.1))
    rcases List.mem_append.mp hy.1 with hmem | hmem
    · exact hx.2 y hmem
    · obtain ⟨z, hz, hle⟩ := h y hmem
      exact hle.trans (hx.2 z hz)

theorem same_highest_iff {before after : List Int} {x y : Int} (hx : Highest before x)
    (hy : Highest after y) : y = x ↔ NoneHigher before after ∧ NoneHigher after before := by
  constructor
  · rintro rfl
    exact ⟨fun z hz => ⟨y, hx.1, hy.2 z hz⟩, fun z hz => ⟨y, hy.1, hx.2 z hz⟩⟩
  · rintro ⟨hafter, hbefore⟩
    obtain ⟨z, hz, hyz⟩ := hafter y hy.1
    obtain ⟨w, hw, hxw⟩ := hbefore x hx.1
    exact Int.le_antisymm (hyz.trans (hx.2 z hz)) (hxw.trans (hy.2 w hw))

section

variable (r : rack ι) {before after : List ι}

variable (before after) in
theorem same_last_iff (metric : sync_profile → Int)
    (hset : ∀ u p, metric (entered (r.units u) p) =
      (positive (metric (r.units u).m_unit_profile)).getD (metric p)) :
    metric (through r (before ++ after) r.m_global_profile) =
        metric (through r before r.m_global_profile) ↔
      KeepsLast (metric r.m_global_profile :: registered_by r metric before)
        (registered_by r metric after) := by
  have hlast := fun us => (through_last r metric (I := fun _ => True)
    (fun u p _ => hset u p) (fun _ _ => trivial) (p := r.m_global_profile) trivial us).2
  refine keeps_last_iff (hlast before) ?_
  have hwhole := hlast (before ++ after)
  rw [List.filterMap_append] at hwhole
  exact hwhole

/-- No unit registers nothing. -/
theorem nothing_new_nil (before : List ι) : NothingNew r before [] where
  fs _ hx := by cases hx
  channels _ hx := by cases hx
  bpm _ hx := by cases hx
  state _ hx := by cases hx
  fill _ hx := by cases hx
  period _ hx := by cases hx
  dispatch := by rintro ⟨u, hu, -⟩; cases hu

/-- The fields of the profile stay as they are just where the units register nothing new. -/
theorem nothing_new_iff (h : before ≠ []) :
    globals (through r (before ++ after) r.m_global_profile) =
        globals (through r before r.m_global_profile) ↔ NothingNew r before after := by
  have hfs := same_last_iff r before after (·.fs)
    fun u p => entered_fs (r.units u) p
  have hchannels := same_last_iff r before after (·.channels)
    fun u p => entered_channels (r.units u) p
  have hbpm := same_last_iff r before after (·.bpm)
    fun u p => entered_bpm (r.units u) p
  have hstate := keeps_last_iff (states_last r before (.inl h))
    (states_append r h after ▸
      states_last r (before ++ after) (.inl (List.append_ne_nil_of_left_ne_nil h after)))
  have hfill := none_higher_iff
    (through_highest r (·.fill) (fun u p => entered_fill (r.units u) p)
      r.m_global_profile before)
    (by
      have hwhole := through_highest r (·.fill)
        (fun u p => entered_fill (r.units u) p) r.m_global_profile (before ++ after)
      rwa [List.filterMap_append] at hwhole)
  have hstart : Highest [r.m_global_profile.period] r.m_global_profile.period :=
    ⟨List.mem_singleton_self _, by simp⟩
  have hbefore := through_periods r hstart before
  have hwhole := through_periods r hbefore after
  have hthrough : through r after (through r before r.m_global_profile) =
      through r (before ++ after) r.m_global_profile := by
    unfold through
    rw [List.foldl_append]
  rw [hthrough, periods_split] at hwhole
  have hperiod : (through r (before ++ after) r.m_global_profile).period =
      (through r before r.m_global_profile).period ↔
      NoneHigher (periods r [r.m_global_profile.period] before) (periods r [] after) ∧
        ((∃ u ∈ after, (r.units u).m_class = .dispatch) →
          NoneHigher (periods r [] after) (periods r [r.m_global_profile.period] before)) := by
    by_cases hdispatch : ∃ u ∈ after, (r.units u).m_class = .dispatch
    · rw [if_pos hdispatch] at hwhole
      rw [same_highest_iff hbefore hwhole]
      simp only [hdispatch, forall_const]
    · rw [if_neg hdispatch] at hwhole
      rw [none_higher_iff hbefore hwhole]
      simp only [hdispatch, false_implies, and_true]
  simp only [globals, Prod.mk.injEq, hfs, hchannels, hbpm, hstate, hfill, hperiod]
  constructor
  · rintro ⟨h1, h2, ⟨h3, h4⟩, h5, h6, h7⟩
    exact ⟨h1, h2, h6, h5, h7, h3, h4⟩
  · rintro ⟨h1, h2, h3, h4, h5, h6, h7⟩
    exact ⟨h1, h2, ⟨h6, h7⟩, h4, h3, h5⟩

end

/-! ## After a global sync -/

variable [DecidableEq ι]

/-- Every unit below a mainline has recorded the fields of the rack's profile. -/
def agrees (r r' : rack ι) : Prop :=
  ∀ u ∈ r.m_raw_mainlines, ∀ v, Relation.ReflTransGen (walk.Edge r.succ) u v →
    globals (r'.units v).m_global_profile = globals r'.m_global_profile

/-- Whenever the walk over the lines leaves a unit for the last time, the units that it enters
after that register nothing new. -/
def settles [Fintype ι] (r : rack ι) : Prop :=
  ∀ v before after,
    walk.tour r.succ (Fintype.card ι) r.m_raw_mainlines = before ++ .leave v :: after →
      .leave v ∉ after → NothingNew r (walk.entries before) (walk.entries after)

omit [DecidableEq ι] in
theorem carried_through (r : rack ι) (es : List (walk.Visit ι)) (p : sync_profile) :
    carried r es p = through r (walk.entries es) p := walk.carry_entries _ es p

/-- After a global sync every unit below a mainline has the fields of the
rack's profile, exactly when the walk over the lines settles. -/
theorem a_global_sync_agrees_when_the_walk_settles [Fintype ι] (env : environment ι) (r : rack ι)
    (fuel : Nat) (h : walk.Acyclic r.succ) (hfuel : Fintype.card ι ≤ fuel) :
    ∃ r', backend.sync env fuel sync_flags.glob_sync r = some r' ∧ (agrees r r' ↔ settles r) := by
  have hcard : r.within (Fintype.card ι) := within_of_acyclic h le_rfl
  obtain ⟨r', hr'⟩ := (sync_ends env sync_flags.glob_sync).mpr (within_of_acyclic h hfuel)
  refine ⟨r', hr', ?_⟩
  obtain ⟨hunits, hprofile⟩ := sync_glob_recorded hr'
  have hstart : Frame env true false r ((r.m_global_profile, r) : Pass ι).2 := Frame.refl _ _ _ r
  rw [walk.tour_stable hcard hfuel] at hunits hprofile
  -- a unit agrees just when nothing new comes after its last leave
  have hunit : ∀ v before after,
      walk.tour r.succ (Fintype.card ι) r.m_raw_mainlines = before ++ .leave v :: after →
      .leave v ∉ after →
      (globals (r'.units v).m_global_profile = globals r'.m_global_profile ↔
        NothingNew r (walk.entries before) (walk.entries after)) := by
    intro v before after hsplit hlast
    have hrecorded := visits_recorded_last env before hlast hstart
    have hfinal := visits_profile env (before ++ .leave v :: after) hstart
    have hentries : walk.entries (before ++ .leave v :: after) =
        walk.entries before ++ walk.entries after := by
      simp [walk.entries]
    rw [hunits v, hprofile, hsplit, hrecorded, hfinal, carried_through, carried_through, hentries,
      ← nothing_new_iff r (walk.entries_ne_nil hsplit)]
    exact eq_comm
  constructor
  · intro hall v before after hsplit hlast
    have hmem : .leave v ∈ walk.tour r.succ (Fintype.card ι) r.m_raw_mainlines := by
      rw [hsplit]
      exact List.mem_append_right _ List.mem_cons_self
    obtain ⟨u, hu, hreach⟩ := (walk.leave_mem_tour hcard).mp hmem
    exact (hunit v before after hsplit hlast).mp (hall u hu v hreach)
  · intro hall u hu v hreach
    obtain ⟨before, after, hsplit, hlast⟩ :=
      walk.last_split ((walk.leave_mem_tour hcard).mpr ⟨u, hu, hreach⟩)
    exact (hunit v before after hsplit hlast).mpr (hall v before after hsplit hlast)

/-- Two mainlines that register sample rates of their own. -/
def two_lines (fs1 fs2 : Int) : rack Bool :=
  rack.new
    (fun u => { m_class := .mainline, m_unit_profile := { fs := if u then fs2 else fs1 } })
    [false, true]

/-- The second line registers the sample rate of the first. -/
theorem two_equal_lines_agree_after_a_global_sync :
    ∃ r', backend.sync .quiet 2 sync_flags.glob_sync (two_lines 44100 44100) = some r' ∧
      agrees (two_lines 44100 44100) r' := by
  have hacyclic : walk.Acyclic (two_lines 44100 44100).succ :=
    walk.acyclic_of_rank (fun _ => 0) (by decide)
  have htour : walk.tour (two_lines 44100 44100).succ (Fintype.card Bool)
      (two_lines 44100 44100).m_raw_mainlines =
        [.enter false, .leave false, .enter true, .leave true] := by
    decide
  have hsettles : settles (two_lines 44100 44100) := by
    intro v before after hsplit _
    rw [htour] at hsplit
    rcases before with _ | ⟨_, _ | ⟨_, _ | ⟨_, _ | ⟨_, before⟩⟩⟩⟩
    all_goals simp at hsplit
    · -- the second line comes after the first
      obtain ⟨rfl, -, rfl⟩ := hsplit
      exact (nothing_new_iff _ (by decide)).mp (by decide)
    · obtain ⟨-, -, -, -, rfl⟩ := hsplit
      exact nothing_new_nil _ _
  obtain ⟨r', hr', hagrees⟩ := a_global_sync_agrees_when_the_walk_settles .quiet
    (two_lines 44100 44100) 2 hacyclic (by decide)
  exact ⟨r', hr', hagrees.mpr hsettles⟩

/-- The first line is left behind with its own sample rate. -/
theorem two_lines_disagree_after_a_global_sync :
    walk.Acyclic (two_lines 44100 48000).succ ∧
    ∃ r', backend.sync .quiet 2 sync_flags.glob_sync (two_lines 44100 48000) = some r' ∧
      ¬ agrees (two_lines 44100 48000) r' := by
  refine ⟨walk.acyclic_of_rank (fun _ => 0) (by decide), ?_⟩
  have hrates : (backend.sync .quiet 2 sync_flags.glob_sync (two_lines 44100 48000)).map
      (fun r => ((r.units false).m_global_profile.fs, r.m_global_profile.fs)) =
      some (44100, 48000) := by decide
  obtain ⟨r', hr', hfs⟩ := Option.map_eq_some_iff.mp hrates
  refine ⟨r', hr', ?_⟩
  intro hall
  have hsame := hall false (by decide) false .refl
  have hfields : (r'.units false).m_global_profile.fs = r'.m_global_profile.fs :=
    congrArg Prod.fst hsame
  obtain ⟨hunit, hrack⟩ := Prod.mk.inj hfs
  rw [hunit, hrack] at hfields
  revert hfields
  decide

end strangeio.component
