-- What `profile_line` finds out about a line that does not branch: a fold of
-- what its units registered, field by field.
import StrangeIO.FlushState

namespace strangeio.component

variable {ι : Type}

/-! ## The fold of a line -/

/-- The last of the values that is positive, or `x` where none is. -/
def last_positive (x : Int) (values : List Int) : Int := (values.filter (0 < ·)).getLastD x

/-- The maximum of `x` and of the values that are positive. -/
def greatest (x : Int) (values : List Int) : Int := (values.filter (0 < ·)).foldl max x

theorem last_positive_cons (x y : Int) (ys : List Int) :
    last_positive x (y :: ys) = last_positive (if 0 < y then y else x) ys := by
  unfold last_positive
  by_cases hy : 0 < y
  · rw [List.filter_cons_of_pos (by simpa using hy), List.getLastD_cons, if_pos hy]
  · rw [List.filter_cons_of_neg (by simpa using hy), if_neg hy]

theorem greatest_cons (x y : Int) (ys : List Int) :
    greatest x (y :: ys) = greatest (if 0 < y ∧ x < y then y else x) ys := by
  unfold greatest
  by_cases hy : 0 < y
  · rw [List.filter_cons_of_pos (by simpa using hy), List.foldl_cons]
    congr 1
    simp only [hy, true_and]
    split
    · omega
    · omega
  · rw [List.filter_cons_of_neg (by simpa using hy), if_neg (fun h => hy h.1)]

/-- What the profile `p` becomes on a line of units that registered the profiles
`qs`. If the line ends in a dispatch, `ends` is the state that it registered. -/
def line_fold (qs : List sync_profile) (ends : Option Int) (p : sync_profile) : sync_profile where
  latency := p.latency + (qs.map (·.latency)).sum
  channels := last_positive p.channels (qs.map (·.channels))
  period := greatest p.period (qs.map (·.period))
  fs := last_positive p.fs (qs.map (·.fs))
  bpm := last_positive p.bpm (qs.map (·.bpm))
  drift := (qs.map (·.drift)).foldl shift_drift p.drift
  jumps := p.jumps + qs.length
  state :=
    if ∃ q ∈ p :: qs, q.state = line_state.flushing.toInt then line_state.flushing.toInt
    else ends.getD p.state
  fill := greatest p.fill (qs.map (·.fill))

attribute [ext] sync_profile

theorem line_fold_nil (p : sync_profile) : line_fold [] none p = p := by
  apply sync_profile.ext
  case state =>
    unfold line_fold
    simp only [List.mem_singleton, exists_eq_left, Option.getD_none]
    split
    · rename_i hflush
      exact hflush.symm
    · rfl
  all_goals simp [line_fold, last_positive, greatest]

/-- The unit at the head of the line applies its profile first. -/
theorem line_fold_cons (q : sync_profile) (qs : List sync_profile) (ends : Option Int)
    (p : sync_profile) :
    line_fold (q :: qs) ends p = line_fold qs ends (apply_unit_profile q p) := by
  apply sync_profile.ext
  case latency => simp [line_fold, apply_unit_profile, add_assoc]
  case channels => exact last_positive_cons _ _ _
  case period => exact greatest_cons _ _ _
  case fs => exact last_positive_cons _ _ _
  case bpm => exact last_positive_cons _ _ _
  case drift => rfl
  case jumps =>
    simp only [line_fold, apply_unit_profile, List.length_cons]
    omega
  case state =>
    have happly := apply_flushing q p
    simp only [line_fold, List.mem_cons, exists_eq_or_imp, happly, or_assoc]
    by_cases hq : q.state = line_state.flushing.toInt
    · rw [if_pos (.inr (.inl hq)), if_pos (.inr (.inl hq))]
    · have hown : (apply_unit_profile q p).state = p.state := if_neg hq
      rw [hown]
  case fill => exact greatest_cons _ _ _

/-- The dispatch at the end sets the state, unless the line flushes. -/
theorem line_fold_dispatch (x : unit ι) (p : sync_profile) :
    line_fold [x.m_unit_profile] (some x.m_unit_profile.state) p =
      apply_unit_profile x.m_unit_profile (dispatch.override x 0 p) := by
  have hglob : ¬ sync_flag.has 0 sync_flags.glob_sync = true := by decide
  have hover : dispatch.override x 0 p =
      { p with state := if p.state = line_state.flushing.toInt then p.state
        else x.m_unit_profile.state } := by
    unfold dispatch.override
    simp only [if_neg hglob]
    split
    · rfl
    · rfl
  rw [line_fold_cons, hover]
  apply sync_profile.ext
  case state =>
    have happly := apply_flushing x.m_unit_profile p
    simp only [line_fold, List.mem_singleton, exists_eq_left, Option.getD_some, happly]
    simp only [apply_unit_profile]
    by_cases hx : x.m_unit_profile.state = line_state.flushing.toInt
    · rw [if_pos (.inr hx), if_pos hx, hx]
    · simp only [hx, or_false, if_false]
      split
      · rename_i hp
        exact hp.symm
      · rfl
  all_goals simp [line_fold, last_positive, greatest, apply_unit_profile]

variable [DecidableEq ι]

/-! ## The sync of a line that does not branch -/

/-- Each unit of the list is linked to the next one only, and the last to none. -/
def in_line (r : rack ι) : List ι → Prop
  | [] => True
  | u :: us => r.succ u = us.head?.toList ∧ in_line r us

/-- The profile of the line as it comes to its end. -/
def down_line (r : rack ι) (us : List ι) (p : sync_profile) : sync_profile :=
  us.foldl (fun p u => line_entered (r.units u) false p) p

/-- The sync of a line that does not branch comes back with what its units made
of the profile on the way down. -/
theorem sync_in_line (env : environment ι) {fuel : Nat} {r : rack ι} {u : ι} {us : List ι}
    (hline : in_line r (u :: us)) (hfuel : us.length < fuel) (p : sync_profile) (line : Nat) :
    ∃ r', sync_line env fuel u p 0 line r = some (down_line r (u :: us) p, r') := by
  induction us generalizing fuel u p line with
  | nil =>
    obtain ⟨fuel, rfl⟩ := Nat.exists_eq_succ_of_ne_zero (Nat.ne_of_gt hfuel)
    have hlinks : (r.units u).links = [] := List.map_eq_nil_iff.mp hline.1
    refine ⟨unit.resync env u 0 r, ?_⟩
    change dispatch_sync_line env _ u p (line_flags false) line r = _
    rw [sync_line_plain, continue_sync_links, hlinks]
    rfl
  | cons v us ih =>
    obtain ⟨fuel, rfl⟩ := Nat.exists_eq_succ_of_ne_zero (Nat.ne_of_gt (Nat.zero_lt_of_lt hfuel))
    obtain ⟨⟨v', id⟩, hlinks, rfl⟩ := List.map_eq_singleton_iff.mp hline.1
    obtain ⟨r', hr'⟩ := ih hline.2 (Nat.lt_of_succ_lt_succ hfuel)
      (line_entered (r.units u) false p) id
    refine ⟨unit.resync env u 0 r', ?_⟩
    change dispatch_sync_line env _ u p (line_flags false) line r = _
    rw [sync_line_plain, continue_sync_links, hlinks, List.foldlM_cons, hr']
    rfl

omit [DecidableEq ι] in
/-- On a line of units that are no dispatch, but for one at its end, the profile becomes
the fold of theirs. -/
theorem down_line_fold {r : rack ι} {us : List ι} {d : Option ι} (p : sync_profile)
    (hclass : ∀ u ∈ us, (r.units u).m_class ≠ .dispatch)
    (hd : ∀ u ∈ d, (r.units u).m_class = .dispatch) :
    down_line r (us ++ d.toList) p =
      line_fold ((us ++ d.toList).map fun u => (r.units u).m_unit_profile)
        (d.map fun u => (r.units u).m_unit_profile.state) p := by
  induction us generalizing p with
  | nil =>
    cases d with
    | none => exact (line_fold_nil p).symm
    | some u =>
      refine Eq.trans ?_ (line_fold_dispatch (r.units u) p).symm
      change line_entered (r.units u) false p = _
      unfold line_entered
      rw [if_pos (hd u rfl)]
      rfl
  | cons u us ih =>
    have hentered : line_entered (r.units u) false p =
        apply_unit_profile (r.units u).m_unit_profile p := by
      unfold line_entered
      rw [if_neg (hclass u List.mem_cons_self)]
      rfl
    rw [List.cons_append, List.map_cons, line_fold_cons,
      ← ih _ fun w hw => hclass w (List.mem_cons_of_mem _ hw), ← hentered]
    rfl

/-- **Profiling a line that does not branch folds what its units registered**, and leaves
the profiles that the units keep. -/
theorem a_profiled_line_is_the_fold_of_its_units (env : environment ι) (fuel : Nat) (r : rack ι)
    (m_mainlines : String → Option (Option ι)) (mainline : String) (us : List ι) (d : Option ι)
    (p : sync_profile) (hmainline : m_mainlines mainline = some us.head?) (hus : us ≠ [])
    (hclass : ∀ u ∈ us, (r.units u).m_class ≠ .dispatch)
    (hd : ∀ u ∈ d, (r.units u).m_class = .dispatch) (hline : in_line r (us ++ d.toList))
    (hfuel : (us ++ d.toList).length ≤ fuel) :
    ∃ r', backend.profile_line env fuel m_mainlines p mainline r =
        some (true, line_fold ((us ++ d.toList).map fun u => (r.units u).m_unit_profile)
          (d.map fun u => (r.units u).m_unit_profile.state) p, r') ∧
      ∀ v, (r'.units v).m_unit_profile = (r.units v).m_unit_profile ∧
        (r'.units v).m_line_profile = (r.units v).m_line_profile ∧
        (r'.units v).m_global_profile = (r.units v).m_global_profile := by
  cases us with
  | nil => exact absurd rfl hus
  | cons u us =>
    rw [List.cons_append] at hline
    obtain ⟨r', hr'⟩ := sync_in_line env hline hfuel p 0
    have hframe : Frame env false false r r' := plain_sync_frame false hr'
    refine ⟨r', ?_, fun v => ⟨hframe.registered rfl v, ?_, hframe.recorded rfl v⟩⟩
    · rw [← down_line_fold p hclass hd]
      unfold backend.profile_line
      rw [hmainline]
      change (sync_line env fuel u p 0 0 r).map (true, ·) = _
      rw [hr']
      rfl
    · exact plain_sync_lines false hr' v

/-- The profile of a mainline and a dispatch. -/
theorem the_chain_is_profiled :
    ∃ r', backend.profile_line .quiet 2 (fun _ => some chain.m_raw_mainlines.head?)
        { state := line_state.active.toInt } "ac1" chain =
      some (true, { jumps := 2, fs := 44100, channels := 2, period := 512 }, r') := by
  obtain ⟨r', hr', -⟩ := a_profiled_line_is_the_fold_of_its_units .quiet 2 chain
    (fun _ => some chain.m_raw_mainlines.head?) "ac1" [0] (some 1)
    { state := line_state.active.toInt } rfl (by decide) (by decide) (by decide)
    (by refine ⟨?_, ?_, trivial⟩ <;> decide) (by decide)
  refine ⟨r', hr'.trans ?_⟩
  congr 2

end strangeio.component
