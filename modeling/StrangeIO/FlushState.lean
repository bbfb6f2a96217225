-- Which units an AC cycle skips (component/unit.cpp, spec/dispatch.cpp): a sync
-- cycle works out the state of each unit's own line, and a line flushes when a
-- unit further down does.
import StrangeIO.CycleFlow
import StrangeIO.GlobalSync

namespace strangeio.component

variable {ι : Type}

/-! ## What flushes a line -/

/-- The unit registers that it is flushing. -/
def flushes (x : unit ι) : Prop := x.m_unit_profile.state = line_state.flushing.toInt

/-- The unit or one that it leads to is flushing. -/
def flushes_from (r : rack ι) (u : ι) : Prop :=
  ∃ v, Relation.ReflTransGen (walk.Edge r.succ) u v ∧ flushes (r.units v)

/-- A unit that the unit leads to is flushing. -/
def flushes_below (r : rack ι) (u : ι) : Prop :=
  ∃ v, Relation.TransGen (walk.Edge r.succ) u v ∧ flushes (r.units v)

/-- A unit below is flushing, or the unit is a dispatch that is itself. -/
def flushed (r : rack ι) (u : ι) : Prop :=
  flushes_below r u ∨ (r.units u).m_class = .dispatch ∧ flushes (r.units u)

theorem flushes_from_iff (r : rack ι) (u : ι) :
    flushes_from r u ↔ flushes (r.units u) ∨ flushes_below r u := by
  unfold flushes_from flushes_below
  simp only [Relation.reflTransGen_iff_eq_or_transGen, or_and_right, exists_or, exists_eq_left]

theorem flushes_below_iff (r : rack ι) (u : ι) :
    flushes_below r u ↔ ∃ v ∈ r.succ u, flushes_from r v := by
  unfold flushes_from flushes_below
  constructor
  · rintro ⟨v, hv, hflush⟩
    obtain ⟨w, hw, hwv⟩ := Relation.TransGen.head'_iff.mp hv
    exact ⟨w, hw, v, hwv, hflush⟩
  · rintro ⟨w, hw, v, hwv, hflush⟩
    exact ⟨v, Relation.TransGen.head'_iff.mpr ⟨w, hw, hwv⟩, hflush⟩

/-- The flags of a line sync at its source and further down. -/
def line_flags (source : Bool) : sync_flag := if source then sync_flags.source else 0

/-- What a unit does to the profile of a line before it goes on. -/
def line_entered (x : unit ι) (source : Bool) (p : sync_profile) : sync_profile :=
  let p := if x.m_class = .dispatch then dispatch.override x 0 p else p
  if source then p else apply_unit_profile x.m_unit_profile p

theorem apply_flushing (q p : sync_profile) :
    (apply_unit_profile q p).state = line_state.flushing.toInt ↔
      p.state = line_state.flushing.toInt ∨ q.state = line_state.flushing.toInt := by
  unfold apply_unit_profile
  simp only
  split
  · simp_all
  · simp_all

theorem override_flushing (x : unit ι) (p : sync_profile) :
    (dispatch.override x 0 p).state = line_state.flushing.toInt ↔
      p.state = line_state.flushing.toInt ∨ flushes x := by
  have hglob : ¬ sync_flag.has 0 sync_flags.glob_sync = true := by decide
  unfold dispatch.override flushes
  simp only
  rw [if_neg hglob]
  split
  · simp_all
  · simp_all

/-- A profile that flushes stays so, and one that does not turns at a unit that
flushes, but not at the source of the line unless it is a dispatch. -/
theorem line_entered_flushing (x : unit ι) (source : Bool) (p : sync_profile) :
    (line_entered x source p).state = line_state.flushing.toInt ↔
      p.state = line_state.flushing.toInt ∨
        flushes x ∧ (source = false ∨ x.m_class = .dispatch) := by
  have hover : ((if x.m_class = .dispatch then dispatch.override x 0 p else p).state =
        line_state.flushing.toInt ↔
      p.state = line_state.flushing.toInt ∨ flushes x ∧ x.m_class = .dispatch) := by
    by_cases hclass : x.m_class = .dispatch
    · rw [if_pos hclass, override_flushing]
      simp only [hclass, and_true]
    · rw [if_neg hclass]
      simp only [hclass, and_false, or_false]
  unfold line_entered
  simp only
  generalize (if x.m_class = .dispatch then dispatch.override x 0 p else p) = q at hover ⊢
  cases source with
  | true => simpa using hover
  | false =>
    simp only [Bool.false_eq_true, if_false, apply_flushing, hover, true_or, and_true]
    unfold flushes
    tauto

variable [DecidableEq ι]

/-! ## The sync of one line -/

/-- In the sync of a line all classes do the same, but for what a dispatch does first. -/
theorem sync_line_plain (env : environment ι)
    (cont : ι → sync_profile → sync_flag → rack ι → Option (Pass ι)) (source : Bool) (u : ι)
    (p : sync_profile) (line : Nat) (r : rack ι) :
    dispatch_sync_line env cont u p (line_flags source) line r =
      (cont u (line_entered (r.units u) source p) 0 r).map
        fun s => (s.1, unit.resync env u 0 s.2) := by
  have hglob : ¬ (line_flags source).has sync_flags.glob_sync = true := by
    cases source <;> decide
  have hup : ¬ (line_flags source).has sync_flags.upstream = true := by
    cases source <;> decide
  have hunit : ∀ q : sync_profile, unit.sync_line env cont u q (line_flags source) line r =
      (cont u (if source then q else apply_unit_profile (r.units u).m_unit_profile q) 0 r).map
        fun s => (s.1, unit.resync env u 0 s.2) := by
    intro q
    have hflags : (if (line_flags source).has sync_flags.source then
          (q, line_flags source ^^^ sync_flags.source)
        else (apply_unit_profile (r.units u).m_unit_profile q, line_flags source)) =
        (if source then q else apply_unit_profile (r.units u).m_unit_profile q, 0) := by
      cases source with
      | true => rfl
      | false => rfl
    unfold unit.sync_line
    rw [if_neg hglob, if_neg hup, hflags, Option.map_eq_bind]
    rfl
  have hover : dispatch.override (r.units u) (line_flags source) p =
      dispatch.override (r.units u) 0 p := by
    have hzero : ¬ sync_flag.has 0 sync_flags.glob_sync = true := by decide
    unfold dispatch.override
    simp only
    rw [if_neg hglob, if_neg hzero]
  unfold dispatch_sync_line line_entered
  cases hclass : (r.units u).m_class with
  | unit => simp [hunit]
  | mainline => simp [mainline.sync_line, hup, hunit]
  | combine => simp [combine.sync_line, hup, hunit]
  | dispatch => simp [dispatch.sync_line, hup, hunit, hover]

/-- What the sync of a line leaves alone. -/
theorem plain_sync_frame {env : environment ι} {fuel line : Nat} {u : ι} {p : sync_profile}
    {r : rack ι} {pass : Pass ι} (source : Bool)
    (h : sync_line env fuel u p (line_flags source) line r = some pass) :
    Frame env false false r pass.2 := by
  have hframe := framed_sync_line env fuel line u p (line_flags source) r pass h
  have hglob : (line_flags source).has sync_flags.glob_sync = false := by
    cases source <;> decide
  have hup : (line_flags source).has sync_flags.upstream = false := by
    cases source <;> decide
  rwa [hglob, hup] at hframe

/-- The profile comes back flushing when it was, or when a unit that the sync
reached is; at its source only a dispatch counts. -/
theorem line_comes_back {env : environment ι} {r0 : rack ι} {fuel : Nat} (source : Bool)
    {u : ι} {line : Nat} {p : sync_profile} {r : rack ι} {pass : Pass ι}
    (hframe : Frame env false false r0 r)
    (h : sync_line env fuel u p (line_flags source) line r = some pass) :
    pass.1.state = line_state.flushing.toInt ↔ p.state = line_state.flushing.toInt ∨
      flushes (r0.units u) ∧ (source = false ∨ (r0.units u).m_class = .dispatch) ∨
      flushes_below r0 u := by
  induction fuel generalizing source u line p r pass with
  | zero => cases h
  | succ fuel ih =>
    rw [sync_line, sync_line_plain] at h
    obtain ⟨s, hs, rfl⟩ := Option.map_eq_some_iff.mp h
    have hlines : ∀ (ls : List (ι × Nat)) (a b : Pass ι), Frame env false false r0 a.2 →
        ls.foldlM (fun pass l => sync_line env fuel l.1 pass.1 0 l.2 pass.2) a = some b →
        (b.1.state = line_state.flushing.toInt ↔ a.1.state = line_state.flushing.toInt ∨
          ∃ v ∈ ls.map Prod.fst, flushes_from r0 v) := by
      intro ls
      induction ls with
      | nil =>
        intro a b _ hab
        cases hab
        simp
      | cons l ls ihls =>
        intro a b ha hab
        obtain ⟨c, hac, hcb⟩ := walk.foldlM_cons_some.mp hab
        have hfirst := ih false ha hac
        have hrest := ihls c b (ha.trans (plain_sync_frame false hac)) hcb
        simp only [true_or, and_true] at hfirst
        rw [← flushes_from_iff] at hfirst
        rw [hrest, hfirst, List.map_cons, or_assoc]
        simp only [List.mem_cons, exists_eq_or_imp]
    rw [continue_sync_links] at hs
    have hback := hlines _ _ _ hframe hs
    have hbelow : (r.units u).links.map Prod.fst = r0.succ u := congrFun hframe.succ u
    have hflush : flushes (r.units u) ↔ flushes (r0.units u) := by
      unfold flushes
      rw [hframe.registered rfl]
    rw [hbelow, ← flushes_below_iff, line_entered_flushing, hflush, hframe.same_class,
      or_assoc] at hback
    exact hback

/-- The sync of a line stores nothing in any unit's own line. -/
theorem plain_sync_lines {env : environment ι} {fuel : Nat} (source : Bool) {line : Nat} {u : ι}
    {p : sync_profile} {r : rack ι} {pass : Pass ι}
    (h : sync_line env fuel u p (line_flags source) line r = some pass) (v : ι) :
    (pass.2.units v).m_line_profile = (r.units v).m_line_profile := by
  induction fuel generalizing source line u p r pass with
  | zero => cases h
  | succ fuel ih =>
    rw [sync_line, sync_line_plain, continue_sync_links] at h
    obtain ⟨s, hs, rfl⟩ := Option.map_eq_some_iff.mp h
    have hcont : (s.2.units v).m_line_profile = (r.units v).m_line_profile :=
      walk.foldlM_relates
        (R := fun a b : Pass ι => (b.2.units v).m_line_profile = (a.2.units v).m_line_profile)
        (fun _ => rfl) (fun _ _ _ hab hbc => hbc.trans hab) (fun _ _ _ _ ht => ih false ht) hs
    have hresync : ((unit.resync env u 0 s.2).units v).m_line_profile =
        (s.2.units v).m_line_profile :=
      (requests_keep (·.m_line_profile) (fun _ _ => rfl) u _ _).1 v
    exact hresync.trans hcont

/-! ## The sync cycle -/

/-- The unit's own line flushes exactly when it should. -/
def settled (r0 r : rack ι) (u : ι) : Prop :=
  (r.units u).m_line_profile.state = line_state.flushing.toInt ↔ flushed r0 u

section sync

variable {env : environment ι} {r0 : rack ι} {fuel : Nat}

/-- The unit's part of a sync cycle settles its line, and leaves the others. -/
theorem unit_settles {u : ι} {r r' : rack ι} {state : cycle_state}
    (hframe : Frame env false false r0 r) (h : cycle_unit env fuel u .sync r = some (state, r')) :
    state = .complete ∧ settled r0 r' u ∧
      ∀ v, v ≠ u → (r'.units v).m_line_profile = (r.units v).m_line_profile := by
  obtain ⟨pass, hpass, heq⟩ := Option.bind_eq_some_iff.mp h
  cases heq
  have hstart : Frame env false false r (r.modify u start_line) :=
    frame_modify r u (fun _ => ⟨rfl, rfl, rfl⟩) (fun _ h => h) (fun _ _ => rfl) (fun _ _ => rfl)
      (fun _ _ => rfl)
  have hactive : ((r.modify u start_line).units u).m_line_profile.state ≠
      line_state.flushing.toInt := by
    rw [modify_units, if_pos rfl]
    change line_state.active.toInt ≠ line_state.flushing.toInt
    decide
  have hback := line_comes_back true (hframe.trans hstart) hpass
  refine ⟨rfl, ?_, ?_⟩
  · unfold settled flushed
    rw [modify_units, if_pos rfl]
    simp only [hback, Bool.true_eq_false, false_or, hactive]
    tauto
  · intro v hv
    rw [modify_units, if_neg hv, plain_sync_lines true hpass, modify_units, if_neg hv]

omit [DecidableEq ι] in
/-- A cycle of lines in turn settles what each of them settles. -/
theorem fold_settles {f : rack ι → ι → Option (rack ι)} {us : List ι}
    (hf : ∀ u ∈ us, ∀ r r', Frame env false false r0 r → f r u = some r' →
      Frame env false false r0 r' ∧ ∀ v,
        settled r0 r v ∨ Relation.ReflTransGen (walk.Edge r0.succ) u v → settled r0 r' v)
    {r r' : rack ι} (hframe : Frame env false false r0 r) (h : us.foldlM f r = some r') (v : ι)
    (hv : settled r0 r v ∨ ∃ u ∈ us, Relation.ReflTransGen (walk.Edge r0.succ) u v) :
    settled r0 r' v := by
  induction us generalizing r with
  | nil =>
    cases h
    simpa using hv
  | cons u us ih =>
    obtain ⟨r1, h1, h2⟩ := walk.foldlM_cons_some.mp h
    obtain ⟨hframe1, hsettles⟩ := hf u List.mem_cons_self r r1 hframe h1
    refine ih (fun w hw => hf w (List.mem_cons_of_mem _ hw)) hframe1 h2 ?_
    simp only [List.mem_cons, exists_eq_or_imp] at hv
    rcases hv with hv | hv | hv
    · exact .inl (hsettles v (.inl hv))
    · exact .inl (hsettles v (.inr hv))
    · exact .inr hv

/-- The sync cycle of a line settles the units that it reaches, and unsettles none. -/
theorem line_settles {u : ι} {r r' : rack ι} {state : cycle_state}
    (hframe : Frame env false false r0 r) (h : cycle_line env fuel u .sync r = some (state, r'))
    (v : ι) (hv : settled r0 r v ∨ Relation.ReflTransGen (walk.Edge r0.succ) u v) :
    settled r0 r' v := by
  induction fuel generalizing u r r' state v with
  | zero => cases h
  | succ fuel ih =>
    rw [cycle_line_succ] at h
    obtain ⟨⟨s, r1⟩, h1, h2⟩ := Option.bind_eq_some_iff.mp h
    have hunit := hframe.trans (frame_cycle_unit h1)
    obtain ⟨rfl, hself, hothers⟩ := unit_settles hframe h1
    rw [if_neg (by simp)] at h2
    obtain ⟨r2, h3, h4⟩ := Option.map_eq_some_iff.mp h2
    cases h4
    have hbelow : (r1.units u).links.map Prod.fst = r0.succ u := congrFun hunit.succ u
    rw [hbelow] at h3
    refine fold_settles (fun w _ s t hs ht => ?_) hunit h3 v ?_
    · obtain ⟨⟨c, t'⟩, h5, rfl⟩ := Option.map_eq_some_iff.mp ht
      exact ⟨hs.trans (frame_cycle_line h5), ih hs h5⟩
    · by_cases hvu : v = u
      · subst hvu
        exact .inl hself
      · rcases hv with hv | hv
        · refine .inl ?_
          unfold settled
          rw [hothers v hvu]
          exact hv
        · obtain ⟨w, hw, hreach⟩ := (Relation.ReflTransGen.cases_head hv).resolve_left (Ne.symm hvu)
          exact .inr ⟨w, hw, hreach⟩

/-- A sync cycle settles all units that it reaches. -/
theorem cycle_settles {r' : rack ι} {state : cycle_state}
    (h : backend.cycle env fuel .sync r0 = some (state, r')) {u v : ι} (hu : u ∈ r0.m_raw_mainlines)
    (hv : Relation.ReflTransGen (walk.Edge r0.succ) u v) : settled r0 r' v := by
  have hfold : ∀ (us : List ι) (s t : cycle_state × rack ι),
      us.foldlM (fun s u => cycle_line env fuel u .sync s.2) s = some t →
      us.foldlM (fun r u => (cycle_line env fuel u .sync r).map (·.2)) s.2 = some t.2 := by
    intro us
    induction us with
    | nil =>
      rintro s t hst
      cases hst
      rfl
    | cons u us ih =>
      intro s t hst
      obtain ⟨a, h1, h2⟩ := walk.foldlM_cons_some.mp hst
      exact walk.foldlM_cons_some.mpr ⟨a.2, Option.map_eq_some_iff.mpr ⟨a, h1, rfl⟩, ih a t h2⟩
  refine fold_settles (fun w _ s t hs ht => ?_) (Frame.refl env _ _ r0) (hfold _ _ _ h) v
    (.inr ⟨u, hu, hv⟩)
  obtain ⟨⟨c, t'⟩, h5, rfl⟩ := Option.map_eq_some_iff.mp ht
  exact ⟨hs.trans (frame_cycle_line h5), line_settles hs h5⟩

end sync

/-! ## The cycles after it -/

/-- A unit whose line flushes passes an AC cycle on. -/
theorem cycle_line_flushing (env : environment ι) (fuel : Nat) {u : ι} {r : rack ι}
    (h : (r.units u).m_line_profile.state = line_state.flushing.toInt) :
    cycle_line env (fuel + 1) u .ac r =
      ((r.succ u).foldlM (fun r v => (cycle_line env fuel v .ac r).map (·.2)) r).map
        (.complete, ·) := by
  have hvisit : visit_ac env u r = (.skipped, r) := by
    unfold visit_ac
    rw [if_pos h]
  rw [cycle_line_succ, cycle_unit_ac, hvisit, Option.bind_some, if_neg (by simp [visited.state])]
  rfl

/-- AC cycles one after the other, in each of which the units do as they like. -/
def ac_cycles (fuel : Nat) (envs : List (environment ι)) (r : rack ι) : Option (rack ι) :=
  envs.foldlM (fun r env => (backend.cycle env fuel .ac r).map (·.2)) r

theorem ac_cycles_end {fuel : Nat} {r1 : rack ι} (hwithin : r1.within fuel)
    (envs : List (environment ι)) : ∃ r2, ac_cycles fuel envs r1 = some r2 ∧ Cycles r1 r2 := by
  refine walk.foldlM_some (I := Cycles r1) (fun r hr env _ => ?_) (Cycles.refl r1)
  have hr_within : r.within fuel := by
    unfold rack.within
    rw [hr.mainlines, hr.succ]
    exact hwithin
  obtain ⟨⟨state, h1⟩, h2⟩ := cycle_down env hr_within
  exact ⟨_, Option.map_eq_some_iff.mpr ⟨_, h1, rfl⟩, hr.trans h2⟩

theorem reach_of_visit {env : environment ι} {fuel : Nat} {r : rack ι} {e : ι × visited}
    (h : e ∈ (ac_walk env fuel r).1) :
    ∃ u ∈ r.m_raw_mainlines, Relation.ReflTransGen (walk.Edge r.succ) u e.1 := by
  obtain ⟨u, hu, s, he⟩ := flow.mem_inTurn h
  exact ⟨u, hu, flow.down_reach he⟩

/-- In a cycle in which all units complete, every unit that it can reach is visited. -/
theorem visit_of_reach {env : environment ι} {fuel : Nat} {r : rack ι} (hwithin : r.within fuel)
    (hcomplete : ∀ u s, (env.cycle u s).1 = .complete) {u v : ι} (hu : u ∈ r.m_raw_mainlines)
    (hv : Relation.ReflTransGen (walk.Edge r.succ) u v) :
    ∃ e ∈ (ac_walk env fuel r).1, e.1 = v := by
  have hon : ∀ w s, (visit_ac env w s).1.passes = true := by
    intro w s
    unfold visit_ac
    split
    · rfl
    · simp [visited.passes, hcomplete]
  have hall : ∀ w s, (∀ e ∈ (flow.down r.succ (visit_ac env) visited.passes fuel w s).1,
      e.2.passes = true) ∧ True :=
    fun w s => flow.down_visits (I := fun _ => True) (fun w s _ => ⟨hon w s, trivial⟩) trivial
  exact flow.inTurn_covers (P := fun e => e.2.passes = true)
    (fun t ht => flow.down_covers (hwithin u hu) hv ht) hu
    (flow.inTurn_visits (I := fun _ => True) (fun w _ s _ => hall w s) trivial).1

/-- **After a sync cycle the AC cycles skip the units that lead to a flushing unit, and
the dispatch units that are flushing, and no others.** However many cycles follow, the
line of each unit on the way down from a mainline says so; a unit that is skipped
passes the cycle on, so that a cycle in which all units complete skips all of them. -/
theorem a_unit_pauses_while_one_below_flushes [Fintype ι] (env : environment ι) (r : rack ι)
    (hacyclic : walk.Acyclic r.succ) {fuel : Nat} (hfuel : Fintype.card ι ≤ fuel) :
    ∃ state r1, backend.cycle env fuel .sync r = some (state, r1) ∧
      (∀ s, Cycles r1 s → ∀ u, (s.units u).m_line_profile.state = line_state.flushing.toInt →
        ∀ (env : environment ι) k, cycle_line env (k + 1) u .ac s =
          ((r.succ u).foldlM (fun s v => (cycle_line env k v .ac s).map (·.2)) s).map
            (.complete, ·)) ∧
      ∀ envs, ∃ r2, ac_cycles fuel envs r1 = some r2 ∧ Cycles r1 r2 ∧
        (∀ u ∈ r.m_raw_mainlines, ∀ v, Relation.ReflTransGen (walk.Edge r.succ) u v →
          settled r r2 v) ∧
        ∀ env : environment ι, ∃ state visits r3,
          backend.cycle env fuel .ac r2 = some (state, r3) ∧ ac_walk env fuel r2 = (visits, r3) ∧
          (∀ e ∈ visits, e.2 = .skipped ↔ flushed r e.1) ∧
          ((∀ u s, (env.cycle u s).1 = .complete) → ∀ u ∈ r.m_raw_mainlines, ∀ v,
            Relation.ReflTransGen (walk.Edge r.succ) u v →
            ((v, .skipped) ∈ visits ↔ flushed r v)) := by
  have hwithin : r.within fuel := within_of_acyclic hacyclic hfuel
  obtain ⟨⟨state, r1⟩, hsync⟩ := (cycle_ends env).mpr hwithin
  have hframe : Frame env false false r r1 := frame_cycle hsync
  refine ⟨state, r1, hsync, ?_, ?_⟩
  · intro s hs u hu env' k
    rw [cycle_line_flushing env' k hu, hs.succ, hframe.succ]
  intro envs
  obtain ⟨r2, hcycles, hkept⟩ := ac_cycles_end (hframe.within.mpr hwithin) envs
  have hsucc : r2.succ = r.succ := hkept.succ.trans hframe.succ
  have hmain : r2.m_raw_mainlines = r.m_raw_mainlines := hkept.mainlines.trans hframe.mainlines
  have hwithin2 : r2.within fuel := by
    unfold rack.within
    rw [hmain, hsucc]
    exact hwithin
  have hsettled : ∀ u ∈ r.m_raw_mainlines, ∀ v, Relation.ReflTransGen (walk.Edge r.succ) u v →
      settled r r2 v := by
    intro u hu v hv
    have h1 := cycle_settles hsync hu hv
    unfold settled at h1 ⊢
    rw [hkept.line]
    exact h1
  refine ⟨r2, hcycles, hkept, hsettled, ?_⟩
  · intro env'
    obtain ⟨⟨state', hcycle⟩, -⟩ := cycle_down env' hwithin2
    have hskips : ∀ e ∈ (ac_walk env' fuel r2).1, e.2 = .skipped ↔ flushed r e.1 := by
      intro e he
      obtain ⟨u, hu, hreach⟩ := reach_of_visit he
      rw [hsucc] at hreach
      exact (walk_skips env' r2 e he).trans (hsettled u (hmain ▸ hu) e.1 hreach)
    refine ⟨state', (ac_walk env' fuel r2).1, _, hcycle, rfl, hskips, ?_⟩
    intro hcomplete u hu v hv
    constructor
    · intro hmem
      exact (hskips _ hmem).mp rfl
    · intro hflushed
      obtain ⟨⟨w, b⟩, he, rfl⟩ := visit_of_reach hwithin2 hcomplete (hmain ▸ hu) (hsucc ▸ hv)
      obtain rfl : b = .skipped := (hskips _ he).mpr hflushed
      exact he

/-- A mainline that leads to a flushing unit, and a dispatch after it. -/
def flushing_line : rack (Fin 3) :=
  rack.new
    (fun u =>
      if u = 0 then { m_class := .mainline, m_outputs := [⟨some (1, 0), true⟩] }
      else if u = 1 then
        { m_outputs := [⟨some (2, 0), true⟩]
          m_unit_profile := { state := line_state.flushing.toInt } }
      else { m_class := .dispatch })
    [0]

/-- The cycles after a sync of the line skip its mainline only. -/
theorem the_flushing_line_pauses_its_mainline :
    ∃ state r1 r2 state' visits r3, backend.cycle .quiet 3 .sync flushing_line = some (state, r1) ∧
      ac_cycles 3 [.quiet, .quiet] r1 = some r2 ∧
      backend.cycle .quiet 3 .ac r2 = some (state', r3) ∧ ac_walk .quiet 3 r2 = (visits, r3) ∧
      ∀ e ∈ visits, e.2 = .skipped ↔ e.1 = 0 := by
  have hup : ∀ u, ∀ v ∈ flushing_line.succ u, u.val < v.val := by decide
  have hflush : ∀ u, flushes (flushing_line.units u) ↔ u = 1 := by
    unfold flushes
    decide
  have hflushed : ∀ u, flushed flushing_line u ↔ u = 0 := by
    intro u
    constructor
    · rintro (⟨v, hv, hone⟩ | ⟨hclass, hone⟩)
      · obtain rfl := (hflush v).mp hone
        have hlt := walk.rank_lt Fin.val hup hv
        exact Fin.ext (by simpa using hlt)
      · obtain rfl := (hflush u).mp hone
        exact absurd hclass (by decide)
    · rintro rfl
      have hedge : walk.Edge flushing_line.succ 0 1 := by
        unfold walk.Edge
        decide
      exact .inl ⟨1, .single hedge, rfl⟩
  obtain ⟨state, r1, h1, -, h2⟩ := a_unit_pauses_while_one_below_flushes .quiet flushing_line
    (walk.acyclic_of_rank Fin.val hup) (le_refl 3)
  obtain ⟨r2, h3, -, -, h4⟩ := h2 [.quiet, .quiet]
  obtain ⟨state', visits, r3, h5, h6, h7, -⟩ := h4 .quiet
  exact ⟨state, r1, r2, state', visits, r3, h1, h3, h5, h6,
    fun e he => (h7 e he).trans (hflushed e.1)⟩

end strangeio.component
