-- What a repeated sync leaves in the profiles. A sync cycle starts the state,
-- the period and the drift of a line anew, but not its jumps and its latency,
-- and a global sync starts none of the rack's profile anew: the jumps only grow.
import StrangeIO.FlushState

namespace strangeio.component

variable {ι : Type}

/-! ## Jumps -/

theorem override_jumps (x : unit ι) (flags : sync_flag) (p : sync_profile) :
    (dispatch.override x flags p).jumps = p.jumps := by
  unfold dispatch.override
  simp only
  split <;> split <;> rfl

/-- Every unit that a line comes to is one jump, but for its source. -/
theorem line_entered_jumps (x : unit ι) (source : Bool) (p : sync_profile) :
    (line_entered x source p).jumps = p.jumps + if source then 0 else 1 := by
  have hover : (if x.m_class = .dispatch then dispatch.override x 0 p else p).jumps = p.jumps := by
    split
    · exact override_jumps x 0 p
    · rfl
  unfold line_entered
  cases source with
  | true => simpa using hover
  | false =>
    simp only [Bool.false_eq_true, if_false]
    change (if x.m_class = .dispatch then dispatch.override x 0 p else p).jumps + 1 = p.jumps + 1
    rw [hover]

theorem entered_jumps (x : unit ι) (p : sync_profile) :
    (entered x p).jumps = p.jumps + 1 := by
  have hover : (if x.m_class = .dispatch then dispatch.override x sync_flags.glob_sync p
      else p).jumps = p.jumps := by
    split
    · exact override_jumps x _ p
    · rfl
  have hwoken : ∀ q : sync_profile, (if q.state = line_state.flushing.toInt then
      { q with state := line_state.active.toInt } else q).jumps = q.jumps := by
    intro q
    split
    · rfl
    · rfl
  unfold entered
  simp only
  rw [hwoken]
  change (if x.m_class = .dispatch then dispatch.override x sync_flags.glob_sync p
    else p).jumps + 1 = p.jumps + 1
  rw [hover]

/-- A walk makes one jump for each unit that it enters. -/
theorem carried_jumps (r : rack ι) (es : List (walk.Visit ι)) (p : sync_profile) :
    p.jumps ≤ (carried r es p).jumps ∧
      ∀ u, .enter u ∈ es → p.jumps < (carried r es p).jumps := by
  induction es generalizing p with
  | nil => exact ⟨le_refl _, fun u hu => absurd hu List.not_mem_nil⟩
  | cons e es ih =>
    cases e with
    | enter v =>
      have hjump := entered_jumps (r.units v) p
      obtain ⟨hgrow, -⟩ := ih (entered (r.units v) p)
      change p.jumps ≤ (carried r es (entered (r.units v) p)).jumps ∧
        ∀ u, .enter u ∈ walk.Visit.enter v :: es →
          p.jumps < (carried r es (entered (r.units v) p)).jumps
      constructor
      · omega
      · intro u _
        omega
    | leave v =>
      obtain ⟨hgrow, henter⟩ := ih p
      change p.jumps ≤ (carried r es p).jumps ∧
        ∀ u, .enter u ∈ walk.Visit.leave v :: es → p.jumps < (carried r es p).jumps
      refine ⟨hgrow, fun u hu => henter u ?_⟩
      exact List.mem_of_ne_of_mem (by simp) hu

variable [DecidableEq ι]

/-! ## The global sync twice -/

/-- A second global sync leaves the profile of the rack as the first one did. -/
def settles_at_once (env : environment ι) (fuel : Nat) (r : rack ι) : Prop :=
  ∃ r1 r2, backend.sync env fuel sync_flags.glob_sync r = some r1 ∧
    backend.sync env fuel sync_flags.glob_sync r1 = some r2 ∧
    r2.m_global_profile = r1.m_global_profile

/-- The rack keeps the profile that the tour of its lines carries. -/
theorem sync_glob_carried {env : environment ι} {fuel : Nat} {r r' : rack ι}
    (h : backend.sync env fuel sync_flags.glob_sync r = some r') :
    r'.m_global_profile =
      carried r (walk.tour r.succ fuel r.m_raw_mainlines) r.m_global_profile := by
  rw [(sync_glob_recorded h).2]
  have hself : Frame env true false r ((r.m_global_profile, r) : Pass ι).2 := Frame.refl _ _ _ r
  exact visits_profile env _ hself

omit [DecidableEq ι] in
theorem enter_mem_tour {succ : ι → List ι} {k : Nat} {u : ι} {roots : List ι} (hu : u ∈ roots)
    (h : walk.Within succ k u) : .enter u ∈ walk.tour succ k roots := by
  refine List.mem_flatMap.mpr ⟨u, hu, ?_⟩
  cases k with
  | zero => exact h.elim
  | succ k => exact List.mem_cons_self

/-- The profile of a rack settles in one global sync just when there is no
mainline: every unit that the sync comes to adds a jump to what was there. -/
theorem a_global_sync_settles_at_once_without_mainlines [Fintype ι] (env : environment ι)
    (r : rack ι) (fuel : Nat) (h : walk.Acyclic r.succ) (hfuel : Fintype.card ι ≤ fuel) :
    settles_at_once env fuel r ↔ r.m_raw_mainlines = [] := by
  have hwithin := within_of_acyclic h hfuel
  constructor
  · rintro ⟨r1, r2, h1, h2, hsame⟩
    rw [List.eq_nil_iff_forall_not_mem]
    intro u hu
    have hmain : u ∈ r1.m_raw_mainlines := (does_sync h1).1.mainlines ▸ hu
    have henter := enter_mem_tour hmain ((does_sync h2).2 u hmain)
    have hgrow := (carried_jumps r1 _ r1.m_global_profile).2 u henter
    rw [← sync_glob_carried h2, hsame] at hgrow
    exact lt_irrefl _ hgrow
  · intro hnone
    obtain ⟨r1, h1⟩ := (sync_ends env sync_flags.glob_sync).mpr hwithin
    have hdoes := (does_sync h1).1
    obtain ⟨r2, h2⟩ := (sync_ends env sync_flags.glob_sync).mpr
      ((hdoes.within fuel).mpr hwithin)
    refine ⟨r1, r2, h1, h2, ?_⟩
    rw [sync_glob_carried h2, hdoes.mainlines, hnone]
    rfl

/-- A rack without mainlines keeps its profile. -/
theorem a_rack_without_mainlines_settles :
    settles_at_once .quiet 1 (rack.new (fun _ : Unit => {}) []) := by
  have hacyclic : walk.Acyclic (rack.new (fun _ : Unit => {}) []).succ :=
    walk.acyclic_of_rank (fun _ => 0) (by decide)
  exact (a_global_sync_settles_at_once_without_mainlines .quiet _ 1 hacyclic (by decide)).mpr rfl

/-- One mainline: the second global sync adds a jump. -/
theorem a_mainline_adds_a_jump :
    walk.Acyclic lone_rack.succ ∧ ¬ settles_at_once .quiet 1 lone_rack := by
  refine ⟨walk.acyclic_of_rank (fun _ => 0) (by decide), ?_⟩
  rintro ⟨r1, r2, h1, h2, hsame⟩
  have hjumps : ((backend.sync .quiet 1 sync_flags.glob_sync lone_rack).bind fun r1 =>
      (backend.sync .quiet 1 sync_flags.glob_sync r1).map fun r2 =>
        (r1.m_global_profile.jumps, r2.m_global_profile.jumps)) = some (1, 2) := by decide
  rw [h1, Option.bind_some, h2, Option.map_some, hsame, Option.some.injEq] at hjumps
  obtain ⟨hone, htwo⟩ := Prod.mk.inj hjumps
  omega

/-! ## The jumps of a line -/

/-- A sync cycle again and again. -/
def sync_cycles (env : environment ι) (fuel : Nat) : Nat → rack ι → Option (rack ι)
  | 0, r => some r
  | m + 1, r =>
    (sync_cycles env fuel m r).bind fun r => (backend.cycle env fuel .sync r).map (·.2)

/-- However many sync cycles there are, the lines of the units below a mainline
are left as the first one left them. -/
def lines_settle (env : environment ι) (fuel : Nat) (r : rack ι) : Prop :=
  ∀ m, 1 ≤ m → ∃ r1 rm, sync_cycles env fuel 1 r = some r1 ∧
    sync_cycles env fuel m r = some rm ∧
    ∀ u ∈ r.m_raw_mainlines, ∀ v, Relation.ReflTransGen (walk.Edge r.succ) u v →
      (rm.units v).m_line_profile = (r1.units v).m_line_profile

/-- The profile of a line comes back with a jump more for every unit that it came to. -/
theorem line_jumps {env : environment ι} {fuel : Nat} (source : Bool) {u : ι} {line : Nat}
    {p : sync_profile} {r : rack ι} {pass : Pass ι}
    (h : sync_line env fuel u p (line_flags source) line r = some pass) :
    p.jumps ≤ pass.1.jumps ∧
      (source = false ∨ (r.units u).links ≠ [] → p.jumps < pass.1.jumps) := by
  induction fuel generalizing source u line p r pass with
  | zero => cases h
  | succ fuel ih =>
    rw [sync_line, sync_line_plain] at h
    obtain ⟨s, hs, rfl⟩ := Option.map_eq_some_iff.mp h
    have hlines : ∀ (ls : List (ι × Nat)) (a b : Pass ι),
        ls.foldlM (fun pass l => sync_line env fuel l.1 pass.1 0 l.2 pass.2) a = some b →
        a.1.jumps ≤ b.1.jumps ∧ (ls ≠ [] → a.1.jumps < b.1.jumps) := by
      intro ls
      induction ls with
      | nil =>
        intro a b hab
        cases hab
        exact ⟨le_refl _, fun h => absurd rfl h⟩
      | cons l ls ihls =>
        intro a b hab
        obtain ⟨c, hac, hcb⟩ := walk.foldlM_cons_some.mp hab
        have hfirst := (ih false hac).2 (.inl rfl)
        have hrest := (ihls c b hcb).1
        exact ⟨by omega, fun _ => by omega⟩
    rw [continue_sync_links] at hs
    obtain ⟨hgrow, hlinks⟩ := hlines _ _ _ hs
    simp only [line_entered_jumps] at hgrow hlinks
    change p.jumps ≤ s.1.jumps ∧ (_ → p.jumps < s.1.jumps)
    cases source with
    | true =>
      simp only [if_true, add_zero] at hgrow hlinks
      exact ⟨hgrow, fun hany => hlinks (hany.resolve_left (by simp))⟩
    | false =>
      simp only [Bool.false_eq_true, if_false] at hgrow
      exact ⟨by omega, fun _ => by omega⟩

/-- The jumps that a unit's own line has counted. -/
def counted (r : rack ι) (u : ι) : Int := (r.units u).m_line_profile.jumps

/-- No jump is taken back, and one is added to the line of `u` if it is linked to a unit. -/
def Adds (u : ι) (r r' : rack ι) : Prop :=
  (∀ v, counted r v ≤ counted r' v) ∧ ((r.units u).links ≠ [] → counted r u < counted r' u)

section cycles

variable {env : environment ι} {fuel : Nat} {u : ι} {r r' : rack ι} {state : cycle_state}

/-- The unit's part of a sync cycle adds the jumps of this cycle to those before. -/
theorem unit_adds (h : cycle_unit env fuel u .sync r = some (state, r')) : Adds u r r' := by
  obtain ⟨pass, hpass, heq⟩ := Option.bind_eq_some_iff.mp h
  cases heq
  have hstart : (r.modify u start_line).units u = start_line (r.units u) := by
    rw [modify_units, if_pos rfl]
  rw [hstart] at hpass
  have hjumps := line_jumps true hpass
  rw [hstart] at hjumps
  have hown : counted (pass.2.modify u fun x => { x with m_line_profile := pass.1 }) u =
      pass.1.jumps := by
    unfold counted
    rw [modify_units, if_pos rfl]
  constructor
  · intro v
    by_cases hv : v = u
    · subst hv
      rw [hown]
      exact hjumps.1
    · unfold counted
      rw [modify_units, if_neg hv, plain_sync_lines true hpass, modify_units, if_neg hv]
  · intro hlinks
    rw [hown]
    exact hjumps.2 (.inr hlinks)

theorem line_adds (h : cycle_line env fuel u .sync r = some (state, r')) : Adds u r r' := by
  induction fuel generalizing u r r' state with
  | zero => cases h
  | succ fuel ih =>
    rw [cycle_line_succ] at h
    obtain ⟨⟨s, r1⟩, h1, h2⟩ := Option.bind_eq_some_iff.mp h
    obtain ⟨hgrow, hown⟩ := unit_adds h1
    split at h2
    · cases h2
      exact ⟨hgrow, hown⟩
    · obtain ⟨r2, h3, h4⟩ := Option.map_eq_some_iff.mp h2
      cases h4
      have hbelow : ∀ v, counted r1 v ≤ counted r' v := by
        refine walk.foldlM_relates (R := fun s t : rack ι => ∀ v, counted s v ≤ counted t v)
          (fun _ _ => le_refl _) (fun _ _ _ hst htu v => (hst v).trans (htu v))
          (fun s t v _ hv => ?_) h3
        obtain ⟨⟨c, t'⟩, h5, rfl⟩ := Option.map_eq_some_iff.mp hv
        exact (ih h5).1
      exact ⟨fun v => (hgrow v).trans (hbelow v), fun hlinks => (hown hlinks).trans_le (hbelow u)⟩

/-- Each sync cycle adds a jump to the line of every mainline that is linked to a unit. -/
theorem cycle_adds {s : cycle_state × rack ι} (h : backend.cycle env fuel .sync r = some s)
    (hu : u ∈ r.m_raw_mainlines) (hlinks : (r.units u).links ≠ []) :
    counted r u < counted s.2 u := by
  have hfold : ∀ (us : List ι) (a b : cycle_state × rack ι),
      us.foldlM (fun s u => cycle_line env fuel u .sync s.2) a = some b →
      (a.2.units u).links ≠ [] →
      counted a.2 u ≤ counted b.2 u ∧ (u ∈ us → counted a.2 u < counted b.2 u) := by
    intro us
    induction us with
    | nil =>
      intro a b hab _
      cases hab
      exact ⟨le_refl _, fun h => absurd h List.not_mem_nil⟩
    | cons v us ih =>
      intro a b hab hlinks
      obtain ⟨c, hac, hcb⟩ := walk.foldlM_cons_some.mp hab
      have hlinks' : (c.2.units u).links ≠ [] := by
        rwa [(frame_cycle_line hac).links]
      obtain ⟨hgrow, hown⟩ := line_adds hac
      obtain ⟨hrest, hmem⟩ := ih c b hcb hlinks'
      refine ⟨(hgrow u).trans hrest, fun hu => ?_⟩
      rcases List.mem_cons.mp hu with rfl | hu
      · exact (hown hlinks).trans_le hrest
      · exact (hgrow u).trans_lt (hmem hu)
  exact (hfold r.m_raw_mainlines (.empty, r) s h hlinks).2 hu

end cycles

/-! ## Lines of one unit -/

/-- What is left of the line of a unit that is linked to none. -/
def own_line (x : unit ι) : sync_profile := line_entered x true (start_line x).m_line_profile

omit [DecidableEq ι] in
/-- The line of one unit is the same after a second cycle: all that a dispatch
changes is started anew. -/
theorem own_line_again {x y : unit ι} (hclass : y.m_class = x.m_class)
    (hprofile : y.m_unit_profile = x.m_unit_profile) (hline : y.m_line_profile = own_line x) :
    own_line y = own_line x := by
  have hglob : ¬ sync_flag.has 0 sync_flags.glob_sync = true := by decide
  have hactive : ¬ line_state.active.toInt = line_state.flushing.toInt := by decide
  unfold own_line line_entered start_line dispatch.override at hline ⊢
  simp only [hclass, hprofile, hline, if_true, if_neg hglob, if_neg hactive]
  split
  · rfl
  · rfl

/-- The cycle of a unit that is linked to none. -/
theorem cycle_line_alone {env : environment ι} {fuel : Nat} {u : ι} {r r' : rack ι}
    {state : cycle_state} (hlinks : (r.units u).links = [])
    (h : cycle_line env fuel u .sync r = some (state, r')) (v : ι) :
    (r'.units v).m_line_profile =
      if v = u then own_line (r.units u) else (r.units v).m_line_profile := by
  cases fuel with
  | zero => cases h
  | succ fuel =>
    rw [cycle_line_succ] at h
    obtain ⟨⟨s, r1⟩, h1, h2⟩ := Option.bind_eq_some_iff.mp h
    have hnone : (r1.units u).links = [] := (frame_cycle_unit h1).links u ▸ hlinks
    have hr' : r' = r1 := by
      split at h2
      · cases h2
        rfl
      · rw [hnone] at h2
        cases h2
        rfl
    subst hr'
    obtain ⟨pass, hpass, heq⟩ := Option.bind_eq_some_iff.mp h1
    cases heq
    have hstart : (r.modify u start_line).units u = start_line (r.units u) := by
      rw [modify_units, if_pos rfl]
    rw [modify_units]
    by_cases hv : v = u
    · rw [if_pos hv, if_pos hv]
      change pass.1 = own_line (r.units u)
      rw [hstart] at hpass
      change sync_line env (fuel + 1) u _ (line_flags true) 0 _ = some pass at hpass
      rw [sync_line, sync_line_plain, continue_sync_links, hstart] at hpass
      have hempty : (start_line (r.units u)).links = [] := hlinks
      rw [hempty] at hpass
      cases hpass
      rfl
    · rw [if_neg hv, if_neg hv, plain_sync_lines true hpass, modify_units, if_neg hv]

/-- The cycle of lines of one unit each. -/
theorem cycle_alone {env : environment ι} {fuel : Nat} {r : rack ι} {s : cycle_state × rack ι}
    (hlinks : ∀ u ∈ r.m_raw_mainlines, (r.units u).links = [])
    (h : backend.cycle env fuel .sync r = some s) (v : ι) :
    (s.2.units v).m_line_profile =
      if v ∈ r.m_raw_mainlines then own_line (r.units v) else (r.units v).m_line_profile := by
  have hfold : ∀ (us : List ι) (a b : cycle_state × rack ι),
      us.foldlM (fun s u => cycle_line env fuel u .sync s.2) a = some b →
      (∀ u ∈ us, (a.2.units u).links = []) →
      (b.2.units v).m_line_profile =
        if v ∈ us then own_line (a.2.units v) else (a.2.units v).m_line_profile := by
    intro us
    induction us with
    | nil =>
      intro a b hab _
      cases hab
      rfl
    | cons u us ih =>
      intro a b hab hnone
      obtain ⟨c, hac, hcb⟩ := walk.foldlM_cons_some.mp hab
      have hframe := frame_cycle_line hac
      have hfirst := cycle_line_alone (hnone u List.mem_cons_self) hac v
      have hrest := ih c b hcb fun w hw => by
        rw [hframe.links]
        exact hnone w (List.mem_cons_of_mem _ hw)
      rw [hrest, hfirst]
      by_cases hv : v = u
      · subst hv
        have hagain : own_line (c.2.units v) = own_line (a.2.units v) := by
          apply own_line_again (hframe.same_class v) (hframe.registered rfl v)
          rw [hfirst, if_pos rfl]
        rw [if_pos rfl, if_pos List.mem_cons_self, hagain, ite_self]
      · have hmem : v ∈ u :: us ↔ v ∈ us := by
          rw [List.mem_cons]
          exact or_iff_right hv
        by_cases hus : v ∈ us
        · have hsame : own_line (c.2.units v) = own_line (a.2.units v) := by
            unfold own_line line_entered start_line dispatch.override
            rw [hframe.same_class, hframe.registered rfl, hfirst, if_neg hv]
          rw [if_pos hus, if_pos (hmem.mpr hus), hsame]
        · rw [if_neg hus, if_neg (mt hmem.mp hus), if_neg hv]
  exact hfold r.m_raw_mainlines (.empty, r) s h hlinks

/-! ## Many cycles -/

section many

variable {env : environment ι} {fuel : Nat} {r : rack ι}

theorem sync_cycles_frame {m : Nat} {r' : rack ι} (h : sync_cycles env fuel m r = some r') :
    Frame env false false r r' := by
  induction m generalizing r' with
  | zero =>
    cases h
    exact Frame.refl _ _ _ r
  | succ m ih =>
    obtain ⟨r1, h1, h2⟩ := Option.bind_eq_some_iff.mp h
    obtain ⟨s, hs, rfl⟩ := Option.map_eq_some_iff.mp h2
    exact (ih h1).trans (frame_cycle hs)

theorem sync_cycles_end (env : environment ι) (hwithin : r.within fuel) (m : Nat) :
    ∃ r', sync_cycles env fuel m r = some r' := by
  induction m with
  | zero => exact ⟨r, rfl⟩
  | succ m ih =>
    obtain ⟨r', hr'⟩ := ih
    obtain ⟨s, hs⟩ := (cycle_ends env).mpr ((sync_cycles_frame hr').within.mpr hwithin)
    refine ⟨s.2, ?_⟩
    rw [sync_cycles, hr', Option.bind_some, hs]
    rfl

/-- One cycle or more leave a line of one unit the same. -/
theorem sync_cycles_alone (hlinks : ∀ u ∈ r.m_raw_mainlines, (r.units u).links = []) {u : ι}
    (hu : u ∈ r.m_raw_mainlines) {m : Nat} (hm : 1 ≤ m) {r' : rack ι}
    (h : sync_cycles env fuel m r = some r') :
    (r'.units u).m_line_profile = own_line (r.units u) := by
  induction m, hm using Nat.le_induction generalizing r' with
  | base =>
    obtain ⟨s, hs, rfl⟩ := Option.map_eq_some_iff.mp
      (show (backend.cycle env fuel .sync r).map (·.2) = some r' from h)
    rw [cycle_alone hlinks hs, if_pos hu]
  | succ m _ ih =>
    obtain ⟨r1, h1, h2⟩ := Option.bind_eq_some_iff.mp h
    obtain ⟨s, hs, rfl⟩ := Option.map_eq_some_iff.mp h2
    have hframe := sync_cycles_frame h1
    have hmain := hframe.mainlines
    have hnone : ∀ w ∈ r1.m_raw_mainlines, (r1.units w).links = [] := by
      intro w hw
      rw [hframe.links]
      exact hlinks w (hmain ▸ hw)
    rw [cycle_alone hnone hs, if_pos (by rw [hmain]; exact hu)]
    exact own_line_again (hframe.same_class u) (hframe.registered rfl u) (ih h1)

end many

/-- The lines settle in the first sync cycle just when no mainline is linked to
a unit: each cycle adds its jumps to those of the cycles before. -/
theorem lines_settle_where_no_mainline_is_linked [Fintype ι] (env : environment ι) (r : rack ι)
    (fuel : Nat) (h : walk.Acyclic r.succ) (hfuel : Fintype.card ι ≤ fuel) :
    lines_settle env fuel r ↔ ∀ u ∈ r.m_raw_mainlines, (r.units u).links = [] := by
  have hwithin := within_of_acyclic h hfuel
  constructor
  · intro hsettle u hu
    by_contra hlinks
    obtain ⟨r1, r2, h1, h2, hsame⟩ := hsettle 2 (by decide)
    have hframe := sync_cycles_frame h1
    obtain ⟨r1', h1', hcycle⟩ := Option.bind_eq_some_iff.mp h2
    cases h1.symm.trans h1'
    obtain ⟨s, hs, rfl⟩ := Option.map_eq_some_iff.mp hcycle
    have hgrow := cycle_adds (u := u) hs (by rw [hframe.mainlines]; exact hu)
      (by rwa [hframe.links])
    unfold counted at hgrow
    rw [hsame u hu u Relation.ReflTransGen.refl] at hgrow
    exact lt_irrefl _ hgrow
  · intro hlinks m hm
    obtain ⟨r1, h1⟩ := sync_cycles_end env hwithin 1
    obtain ⟨rm, hrm⟩ := sync_cycles_end env hwithin m
    refine ⟨r1, rm, h1, hrm, fun u hu v hv => ?_⟩
    have hvu : u = v := by
      rcases Relation.ReflTransGen.cases_head hv with hvu | ⟨w, hw, -⟩
      · exact hvu
      · change w ∈ (r.units u).links.map Prod.fst at hw
        rw [hlinks u hu] at hw
        exact absurd hw List.not_mem_nil
    subst hvu
    rw [sync_cycles_alone hlinks hu hm hrm,
      sync_cycles_alone hlinks hu (le_refl 1) h1]

/-- A mainline that is linked to no unit settles. -/
theorem a_lone_mainline_settles : lines_settle .quiet 1 lone_rack := by
  have hacyclic : walk.Acyclic lone_rack.succ := walk.acyclic_of_rank (fun _ => 0) (by decide)
  exact (lines_settle_where_no_mainline_is_linked .quiet lone_rack 1 hacyclic (by decide)).mpr
    (by decide)

/-- A mainline with a dispatch behind it counts a jump more in its second cycle. -/
theorem a_chain_counts_its_jumps_again :
    walk.Acyclic chain.succ ∧ ¬ lines_settle .quiet 2 chain := by
  refine ⟨walk.acyclic_of_rank Fin.val (by decide), fun hsettle => ?_⟩
  obtain ⟨r1, r2, h1, h2, hsame⟩ := hsettle 2 (by decide)
  have hjumps : (chain.m_raw_mainlines.all fun u =>
      (sync_cycles .quiet 2 1 chain).any fun r1 => (sync_cycles .quiet 2 2 chain).any fun r2 =>
        counted r1 u = 1 ∧ counted r2 u = 2) = true := by decide
  rw [h1, h2] at hjumps
  obtain ⟨u, hu⟩ : ∃ u, u ∈ chain.m_raw_mainlines := ⟨_, List.mem_cons_self⟩
  have hcounts := List.all_eq_true.mp hjumps u hu
  simp only [Option.any_some, decide_eq_true_eq] at hcounts
  unfold counted at hcounts
  rw [hsame u hu u Relation.ReflTransGen.refl] at hcounts
  omega

end strangeio.component
