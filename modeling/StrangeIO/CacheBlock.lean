-- The size of a cache block over the global syncs of a rack: the rack builds
-- the cache on the first of them, and two guards keep it from doing so again
-- (component/rack.cpp, memory/cache_manager.cpp).
import StrangeIO.GlobalSync
import StrangeIO.Transition

namespace strangeio.component

open strangeio.memory (cache_manager)

variable {ι : Type} [DecidableEq ι]

/-! ## The global syncs of a rack -/

/-- The samples of one period. -/
def sync_profile.area (p : sync_profile) : Int := p.period * p.channels

/-- The figures of a global sync, whose product an `int` holds. -/
def sync_profile.measured (p : sync_profile) : Prop :=
  0 ≤ p.period ∧ 0 ≤ p.channels ∧ p.area < 2 ^ 31

/-- A global sync of a rack that has the same cache, and is otherwise another
one: its units may have registered anything since. It ends with the profile. -/
def global_sync (r : rack ι) (p : sync_profile) (r' : rack ι) : Prop :=
  ∃ env fuel flags r1, flags.has sync_flags.glob_sync = true ∧
    flags.has sync_flags.sync_duration = false ∧ r1.m_cache = r.m_cache ∧
    backend.sync env fuel flags r1 = some r' ∧ r'.m_global_profile = p

/-- The global syncs of the rack. -/
def global_syncs (r : rack ι) : transition.System (rack ι) sync_profile where
  start := (· = r)
  step := global_sync

/-- A block of the cache has room for one period, where there is one. -/
def rack.holds_period (r : rack ι) : Prop :=
  0 < r.m_global_profile.period → 0 < r.m_global_profile.channels →
    ∃ c, r.m_cache = some c ∧ c.m_raw_cache.isSome = true ∧
      r.m_global_profile.area ≤ c.m_block_size

/-! ## One sync -/

/-- The cache is built at the end of the lines, and left alone before and after. -/
theorem sync_cache {env : environment ι} {fuel : Nat} {flags : sync_flag} {r r' : rack ι}
    (hglob : flags.has sync_flags.glob_sync = true)
    (htimed : flags.has sync_flags.sync_duration = false)
    (h : backend.sync env fuel flags r = some r') :
    ∃ r1, r1.m_cache = r.m_cache ∧ r1.m_global_profile = r'.m_global_profile ∧
      r'.m_cache = (rack.resync env r1).m_cache := by
  obtain ⟨r1, h1, h2⟩ := Option.bind_eq_some_iff.mp h
  rw [htimed, if_neg Bool.false_ne_true] at h2
  obtain ⟨r2, h3, h4⟩ := Option.bind_eq_some_iff.mp h2
  obtain ⟨s, h5, h6⟩ := Option.bind_eq_some_iff.mp h4
  cases h6
  have hdown : r1.m_cache = r.m_cache := by
    unfold backend.sync_downstream at h1
    split at h1
    · obtain ⟨s, hs, he⟩ := Option.bind_eq_some_iff.mp h1
      cases he
      exact (frame_cycle hs).same_cache
    · cases h1
      rfl
  unfold backend.sync_lines at h3
  rw [if_pos hglob] at h3
  obtain ⟨⟨p, r3⟩, h7, h8⟩ := Option.bind_eq_some_iff.mp h3
  cases h8
  have hlines : r3.m_cache = r1.m_cache :=
    walk.foldlM_relates (R := fun s t : Pass ι => t.2.m_cache = s.2.m_cache) (fun _ => rfl)
      (fun _ _ _ hst htu => htu.trans hst)
      (fun s t u _ ht => (framed_sync_line env fuel 0 u s.1 flags s.2 t ht).same_cache) h7
  refine ⟨{ r3 with m_global_profile := p }, hlines.trans hdown, ?_, (frame_cycle h5).same_cache⟩
  have hbuilt : (rack.resync env { r3 with m_global_profile := p }).m_global_profile = p := by
    unfold rack.resync
    split
    · rfl
    · split <;> rfl
  exact hbuilt.symm.trans (frame_cycle h5).rack_profile.symm

/-- The size of the blocks that the cache has after a sync that ends with the profile. -/
def next_block (c : cache_manager) (p : sync_profile) : Int :=
  if c.m_raw_cache.isSome then c.m_block_size else 2 * p.area

theorem build_cache_block {c : cache_manager} (raw size : Nat) :
    (c.build_cache raw size).m_raw_cache.isSome = true ∧
      (c.build_cache raw size).m_block_size =
        if c.m_raw_cache.isSome then c.m_block_size else size := by
  unfold cache_manager.build_cache
  by_cases h : c.m_raw_cache.isSome = true
  · rw [if_pos h, if_pos h]
    exact ⟨h, rfl⟩
  · rw [if_neg h, if_neg h]
    exact ⟨rfl, rfl⟩

/-- After a global sync the cache is built, by the first one with twice its period. -/
theorem global_sync_block {r r' : rack ι} {p : sync_profile} {c : cache_manager}
    (h : global_sync r p r') (hc : r.m_cache = some c)
    (hfresh : c.m_raw_cache = none → c.m_block_size = 0) (hp : p.measured) :
    ∃ c', r'.m_cache = some c' ∧ c'.m_raw_cache.isSome = true ∧
      (c'.m_block_size : Int) = next_block c p := by
  obtain ⟨env, fuel, flags, r1, hglob, htimed, hcache, hsync, hprofile⟩ := h
  obtain ⟨r2, h1, h2, h3⟩ := sync_cache hglob htimed hsync
  have hr2 : r2.m_cache = some c := h1.trans (hcache.trans hc)
  rw [h3]
  unfold rack.resync next_block
  rw [hr2]
  simp only
  by_cases hsize : 0 < c.m_block_size
  · have hraw : c.m_raw_cache.isSome = true := by
      rcases hraw : c.m_raw_cache with _ | raw
      · have := hfresh hraw
        omega
      · rfl
    rw [if_pos hsize, if_pos hraw]
    exact ⟨c, hr2, hraw, rfl⟩
  · rw [if_neg hsize]
    obtain ⟨hbuilt, hblock⟩ := build_cache_block (c := c) env.raw
      ((r2.m_global_profile.period * 2 * r2.m_global_profile.channels).emod memory.u32).toNat
    refine ⟨_, rfl, hbuilt, ?_⟩
    rw [hblock]
    split
    · rfl
    · obtain ⟨h4, h5, h6⟩ := hp
      rw [h2, hprofile]
      have harea : p.period * 2 * p.channels = 2 * p.area := by
        unfold sync_profile.area
        rw [Int.mul_right_comm, Int.mul_comm]
      have hnonneg : 0 ≤ p.area := Int.mul_nonneg h4 h5
      have hsmall : (2 * p.area).emod memory.u32 = 2 * p.area := by
        apply Int.emod_eq_of_lt
        · omega
        · unfold memory.u32
          omega
      rw [harea, hsmall]
      omega

/-! ## A run of syncs -/

/-- The size of the blocks after the syncs: the first of them sets it. -/
def first_block (c : cache_manager) : List sync_profile → Int
  | [] => c.m_block_size
  | p :: _ => next_block c p

theorem first_block_append {c : cache_manager} {ps : List sync_profile} (h : ps ≠ [])
    (p : sync_profile) : first_block c (ps ++ [p]) = first_block c ps := by
  cases ps with
  | nil => exact absurd rfl h
  | cons q ps => rfl

theorem run_block {r r' : rack ι} {ps : List sync_profile} {c : cache_manager}
    (h : transition.Run (global_syncs r) r ps r') (hc : r.m_cache = some c)
    (hfresh : c.m_raw_cache = none → c.m_block_size = 0) (hps : ∀ p ∈ ps, p.measured) :
    ∃ c', r'.m_cache = some c' ∧ (c'.m_raw_cache = none → c'.m_block_size = 0) ∧
      (c'.m_block_size : Int) = first_block c ps ∧ (ps ≠ [] → c'.m_raw_cache.isSome = true) ∧
      (ps = [] → c' = c) := by
  induction h with
  | nil => exact ⟨c, hc, hfresh, rfl, fun h => absurd rfl h, fun _ => rfl⟩
  | @snoc ps _ p _ hrun hstep ih =>
    obtain ⟨c1, h1, h2, h3, h4, h5⟩ := ih (fun q hq => hps q (List.mem_append_left _ hq))
    obtain ⟨c2, h6, h7, h8⟩ := global_sync_block hstep h1 h2 (hps p (by simp))
    refine ⟨c2, h6, ?_, ?_, fun _ => h7, fun h => absurd h (by simp)⟩
    · intro hnone
      rw [hnone] at h7
      cases h7
    · rw [h8]
      by_cases hnil : ps = []
      · obtain rfl := h5 hnil
        subst hnil
        rfl
      · rw [first_block_append hnil, ← h3]
        unfold next_block
        rw [if_pos (h4 hnil)]

omit [DecidableEq ι] in
/-- A sync that ends with the profile leaves room for its period just when it
fits the blocks that the cache has by then. -/
theorem global_sync_holds {r' : rack ι} {p : sync_profile} {b : Int}
    (hp : r'.m_global_profile = p) {c : cache_manager} (hc : r'.m_cache = some c)
    (hbuilt : c.m_raw_cache.isSome = true) (hblock : (c.m_block_size : Int) = b) :
    r'.holds_period ↔ (0 < p.period → 0 < p.channels → p.area ≤ b) := by
  unfold rack.holds_period
  rw [hp, hc]
  constructor
  · intro h hperiod hchannels
    obtain ⟨c', hsame, -, harea⟩ := h hperiod hchannels
    cases hsame
    rwa [hblock] at harea
  · intro h hperiod hchannels
    exact ⟨c, rfl, hbuilt, by rw [hblock]; exact h hperiod hchannels⟩

/-- In a run of global syncs a block always has room for the period of the
sync before it, exactly when no sync ends with more samples to a period than
the blocks have that the first sync builds, twice its own. -/
theorem a_block_holds_the_periods_that_fit_the_first (r : rack ι) (c : cache_manager)
    (hc : r.m_cache = some c) (hfresh : c.m_raw_cache = none → c.m_block_size = 0)
    (ps : List sync_profile) (hps : ∀ p ∈ ps, p.measured) (r' : rack ι) :
    transition.Run ((global_syncs r).within rack.holds_period) r ps r' ↔
      transition.Run (global_syncs r) r ps r' ∧
        ∀ p ∈ ps, 0 < p.period → 0 < p.channels → p.area ≤ first_block c ps := by
  have hlast : ∀ (qs : List sync_profile) (s : rack ι) (p : sync_profile) (t : rack ι),
      (∀ q ∈ qs, q.measured) → p.measured → transition.Run (global_syncs r) r qs s →
      global_sync s p t →
      (t.holds_period ↔ (0 < p.period → 0 < p.channels → p.area ≤ first_block c (qs ++ [p]))) := by
    intro qs s p t hqs hp hrun hstep
    obtain ⟨c', h1, -, h3, h4, -⟩ := run_block (hrun.snoc hstep) hc hfresh fun q hq => by
      rcases List.mem_append.mp hq with hq | hq
      · exact hqs q hq
      · exact List.mem_singleton.mp hq ▸ hp
    obtain ⟨_, _, _, _, -, -, -, -, hprofile⟩ := hstep
    exact global_sync_holds hprofile h1 (h4 (by simp)) h3
  -- what fits the blocks at the end fitted them before: the first sync set them
  have hkeeps : ∀ (qs : List sync_profile) (p : sync_profile),
      (∀ q ∈ qs, 0 < q.period → 0 < q.channels → q.area ≤ first_block c qs) ↔
        ∀ q ∈ qs, 0 < q.period → 0 < q.channels → q.area ≤ first_block c (qs ++ [p]) := by
    intro qs p
    cases qs with
    | nil => simp
    | cons q qs => rfl
  constructor
  · intro h
    induction h with
    | nil => exact ⟨.nil _, fun p hp => by cases hp⟩
    | @snoc qs s p t hrun hstep ih =>
      have hqs := fun q hq => hps q (List.mem_append_left _ hq)
      obtain ⟨h1, h2⟩ := ih hqs
      refine ⟨h1.snoc hstep.1, ?_⟩
      intro q hq
      rcases List.mem_append.mp hq with hq | hq
      · exact (hkeeps qs p).mp h2 q hq
      · obtain rfl := List.mem_singleton.mp hq
        exact (hlast qs s q t hqs (hps q (by simp)) h1 hstep.1).mp hstep.2
  · rintro ⟨h, hfits⟩
    induction h with
    | nil => exact .nil _
    | @snoc qs s p t hrun hstep ih =>
      have hqs := fun q hq => hps q (List.mem_append_left _ hq)
      refine (ih hqs ((hkeeps qs p).mpr fun q hq => hfits q (List.mem_append_left _ hq))).snoc
        ⟨hstep, ?_⟩
      exact (hlast qs s p t hqs (hps p (by simp)) hrun hstep).mpr (hfits p (by simp))

/-! ## One unit whose period changes -/

/-- A mainline that registers the period, and a cache. -/
def tuned (period : Int) (c : cache_manager) : rack Unit :=
  { rack.new
    (fun _ => { m_class := .mainline, m_unit_profile := { period := period, channels := 1 } })
      [()] with m_cache := some c }

/-- The profile that a line of one unit ends with. -/
def tuned_profile (period : Int) : sync_profile :=
  { period := period, channels := 1, jumps := 1 }

theorem tuned_sync (period : Int) (hperiod : 0 < period) (c : cache_manager) (r : rack Unit)
    (hr : r.m_cache = some c) :
    ∃ r', global_sync r (tuned_profile period) r' := by
  have hwithin : (tuned period c).within 1 := fun _ _ v hv => by cases hv
  obtain ⟨r', hr'⟩ := (sync_ends .quiet sync_flags.glob_sync).mpr hwithin
  refine ⟨r', .quiet, 1, sync_flags.glob_sync, tuned period c, by decide, by decide, hr.symm,
    hr', ?_⟩
  have hentered : entered ((tuned period c).units ()) {} = tuned_profile period := by
    simp [entered, tuned, rack.new, apply_unit_profile, shift_drift, tuned_profile, hperiod,
      line_state.toInt]
  exact (sync_glob_recorded hr').2.trans hentered

theorem tuned_measured {period : Int} (h : 0 ≤ period) (h' : period < 2 ^ 31) :
    (tuned_profile period).measured := by
  refine ⟨h, Int.zero_le_ofNat 1, ?_⟩
  simpa [sync_profile.area, tuned_profile] using h'

/-- Two syncs with one period, on a new cache of four blocks. -/
theorem a_block_holds_a_period_that_stays :
    ∃ r', transition.Run
      ((global_syncs (tuned 64 (cache_manager.make 4 0))).within rack.holds_period)
      (tuned 64 (cache_manager.make 4 0)) [tuned_profile 64, tuned_profile 64] r' := by
  have hmeasured : ∀ p ∈ [tuned_profile 64, tuned_profile 64], p.measured := by
    intro p hp
    obtain rfl : p = tuned_profile 64 := by simpa using hp
    exact tuned_measured (by decide) (by decide)
  obtain ⟨r1, h1⟩ := tuned_sync 64 (by decide) (cache_manager.make 4 0)
    (tuned 64 (cache_manager.make 4 0)) rfl
  obtain ⟨c1, hc1, -, -⟩ := global_sync_block h1 rfl (fun _ => rfl) (hmeasured _ (by simp))
  obtain ⟨r2, h2⟩ := tuned_sync 64 (by decide) c1 r1 hc1
  refine ⟨r2, (a_block_holds_the_periods_that_fit_the_first _ _ rfl (fun _ => rfl) _ hmeasured
    r2).mpr ⟨(transition.Run.one h1).snoc h2, ?_⟩⟩
  intro p hp _ _
  obtain rfl : p = tuned_profile 64 := by simpa using hp
  decide

/-- The period grows from 64 to 512 samples, and the blocks stay at 128. -/
theorem a_period_outgrows_the_blocks :
    ∃ r', transition.Run (global_syncs (tuned 64 (cache_manager.make 4 0)))
        (tuned 64 (cache_manager.make 4 0)) [tuned_profile 64, tuned_profile 512] r' ∧
      (∀ p ∈ [tuned_profile 64, tuned_profile 512], p.measured) ∧ ¬ r'.holds_period := by
  have hmeasured : ∀ p ∈ [tuned_profile 64, tuned_profile 512], p.measured := by
    intro p hp
    rcases List.mem_pair.mp hp with rfl | rfl
    · exact tuned_measured (by decide) (by decide)
    · exact tuned_measured (by decide) (by decide)
  obtain ⟨r1, h1⟩ := tuned_sync 64 (by decide) (cache_manager.make 4 0)
    (tuned 64 (cache_manager.make 4 0)) rfl
  obtain ⟨c1, hc1, -, -⟩ := global_sync_block h1 rfl (fun _ => rfl) (hmeasured _ (by simp))
  obtain ⟨r2, h2⟩ := tuned_sync 512 (by decide) c1 r1 hc1
  have hrun : transition.Run (global_syncs (tuned 64 (cache_manager.make 4 0)))
      (tuned 64 (cache_manager.make 4 0)) [tuned_profile 64, tuned_profile 512] r2 :=
    (transition.Run.one h1).snoc h2
  refine ⟨r2, hrun, hmeasured, ?_⟩
  obtain ⟨c2, hc2, -, hblock, hbuilt, -⟩ := run_block hrun rfl (fun _ => rfl) hmeasured
  obtain ⟨_, _, _, _, -, -, -, -, hprofile⟩ := h2
  rw [global_sync_holds hprofile hc2 (hbuilt (by simp)) hblock]
  decide

end strangeio.component
