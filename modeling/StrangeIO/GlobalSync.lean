-- A global sync hands one profile through all the units (component/unit.cpp):
-- a unit changes it on the way down and records it on the way back, when the
-- units of later branches and later lines have yet to see it.
import StrangeIO.SyncPass

namespace strangeio.component

variable {ι : Type}

/-- The fields that a unit records in a global sync. -/
def globals (p : sync_profile) : Int × Int × Int × Int × Int × Int :=
  (p.fs, p.channels, p.period, p.state, p.bpm, p.fill)

/-- What a unit does to the profile of a global sync on the way down. -/
def entered (x : unit ι) (p : sync_profile) : sync_profile :=
  let p := if x.m_class = .dispatch then dispatch.override x sync_flags.glob_sync p else p
  let p := apply_unit_profile x.m_unit_profile p
  if p.state = line_state.flushing.toInt then { p with state := line_state.active.toInt } else p

theorem entered_congr {x y : unit ι} (hclass : x.m_class = y.m_class)
    (hprofile : x.m_unit_profile = y.m_unit_profile) : entered x = entered y := by
  funext p
  unfold entered dispatch.override
  rw [hclass, hprofile]

/-- What a dispatch does to a profile, and no other unit. -/
def overridden (x : unit ι) (p : sync_profile) : sync_profile :=
  if x.m_class = .dispatch then dispatch.override x sync_flags.glob_sync p else p

theorem entered_eq (x : unit ι) (p : sync_profile) :
    entered x p =
      let q := apply_unit_profile x.m_unit_profile (overridden x p)
      { q with
        state := if q.state = line_state.flushing.toInt then line_state.active.toInt
          else q.state } := by
  change (if (apply_unit_profile x.m_unit_profile (overridden x p)).state =
    line_state.flushing.toInt then _ else _) = _
  split
  · rename_i h
    simp only [h, if_true]
    rfl
  · rename_i h
    simp only [h, if_false]
    rfl

theorem overridden_state {x : unit ι} {p : sync_profile}
    (h : p.state ≠ line_state.flushing.toInt) :
    (overridden x p).state =
      if x.m_class = .dispatch then x.m_unit_profile.state else p.state := by
  have hglob : sync_flags.glob_sync.has sync_flags.glob_sync = true := by decide
  unfold overridden
  split
  · unfold dispatch.override
    simp only [hglob, if_true, h, if_false]
  · rfl

theorem overridden_period (x : unit ι) (p : sync_profile) :
    (overridden x p).period =
      if x.m_class = .dispatch then x.m_unit_profile.period else p.period := by
  have hglob : sync_flags.glob_sync.has sync_flags.glob_sync = true := by decide
  unfold overridden
  split
  · unfold dispatch.override
    simp only [hglob, if_true]
  · rfl

/-- No unit passes a flushing state on in a global sync. -/
theorem entered_not_flushing (x : unit ι) (p : sync_profile) :
    (entered x p).state ≠ line_state.flushing.toInt := by
  rw [entered_eq]
  simp only
  split
  · decide
  · assumption

/-- What is left of the state that a unit sees. -/
theorem entered_state_eq (x : unit ι) (p : sync_profile) :
    (entered x p).state =
      if x.m_unit_profile.state = line_state.flushing.toInt then line_state.active.toInt
      else if (overridden x p).state = line_state.flushing.toInt then line_state.active.toInt
      else (overridden x p).state := by
  rw [entered_eq]
  change (if (if x.m_unit_profile.state = line_state.flushing.toInt then x.m_unit_profile.state
    else (overridden x p).state) = line_state.flushing.toInt then line_state.active.toInt
    else (if x.m_unit_profile.state = line_state.flushing.toInt then x.m_unit_profile.state
    else (overridden x p).state)) = _
  by_cases h : x.m_unit_profile.state = line_state.flushing.toInt
  · simp only [h, if_true]
  · simp only [h, if_false]

variable [DecidableEq ι]

/-! ## The walk of a global sync -/

/-- A step of the walk: down into a unit, or back out of it. -/
def visit (env : environment ι) (pass : Pass ι) : walk.Visit ι → Pass ι
  | .enter u => (entered (pass.2.units u) pass.1, pass.2)
  | .leave u =>
    (pass.1, unit.resync env u sync_flags.glob_sync (pass.2.modify u (record_global pass.1)))

theorem frame_visit (env : environment ι) (pass : Pass ι) (e : walk.Visit ι) :
    Frame env true false pass.2 (visit env pass e).2 := by
  cases e with
  | enter u => exact Frame.refl _ _ _ _
  | leave u =>
    have hrecord : Frame env true false pass.2 (pass.2.modify u (record_global pass.1)) :=
      frame_modify pass.2 u (fun _ => ⟨rfl, rfl, rfl⟩) (fun _ h => h) (fun h => by cases h)
        (fun _ _ => rfl) (fun _ _ => rfl)
    exact hrecord.trans ((frame_resync env u _ _).weaken _ _)

theorem frame_visits (env : environment ι) (es : List (walk.Visit ι)) (pass : Pass ι) :
    Frame env true false pass.2 (es.foldl (visit env) pass).2 := by
  induction es generalizing pass with
  | nil => exact Frame.refl _ _ _ _
  | cons e es ih =>
    rw [List.foldl_cons]
    exact (frame_visit env pass e).trans (ih (visit env pass e))

/-- Every class of unit takes part in a global sync in the same way. -/
theorem sync_line_glob (env : environment ι) (k : Nat) (u : ι) (p : sync_profile) (line : Nat)
    (r : rack ι) :
    sync_line env (k + 1) u p sync_flags.glob_sync line r =
      (continue_sync (sync_line env k) u (entered (r.units u) p) sync_flags.glob_sync r).map
        fun pass => visit env pass (.leave u) := by
  have hg : sync_flag.has sync_flags.glob_sync sync_flags.glob_sync = true := by decide
  have hu : ¬ sync_flag.has sync_flags.glob_sync sync_flags.upstream = true := by decide
  have hunit : ∀ q, unit.sync_line env (continue_sync (sync_line env k)) u q
      sync_flags.glob_sync line r =
      (continue_sync (sync_line env k) u
        (let p := apply_unit_profile (r.units u).m_unit_profile q
          if p.state = line_state.flushing.toInt then
            { p with state := line_state.active.toInt } else p) sync_flags.glob_sync r).map
        fun pass => visit env pass (.leave u) := by
    intro q
    unfold unit.sync_line
    rw [if_pos hg, Option.map_eq_bind]
    rfl
  unfold sync_line dispatch_sync_line entered
  rcases hclass : (r.units u).m_class with _ | _ | _ | _
  · exact hunit p
  · unfold mainline.sync_line
    simp only
    rw [if_neg hu]
    exact hunit p
  · unfold combine.sync_line
    simp only
    rw [if_neg hu]
    exact hunit p
  · unfold dispatch.sync_line
    simp only
    rw [if_neg hu]
    exact hunit _

/-- A global sync from a unit is the walk from it, step by step. -/
theorem sync_line_visits (env : environment ι) {succ : ι → List ι} {k : Nat} {u : ι}
    (h : walk.Within succ k u) (p : sync_profile) (line : Nat) {r : rack ι}
    (hsucc : r.succ = succ) :
    sync_line env k u p sync_flags.glob_sync line r =
      some ((walk.visits succ k u).foldl (visit env) (p, r)) := by
  induction k generalizing u p line r with
  | zero => exact h.elim
  | succ k ih =>
    have hlinks : ∀ (links : List (ι × Nat)) (pass : Pass ι),
        (∀ l ∈ links, l.1 ∈ succ u) → pass.2.succ = succ →
        links.foldlM (fun pass l =>
          sync_line env k l.1 pass.1 sync_flags.glob_sync l.2 pass.2) pass =
        some (((links.map Prod.fst).flatMap (walk.visits succ k)).foldl (visit env) pass) := by
      intro links
      induction links with
      | nil => exact fun _ _ _ => rfl
      | cons l links ihl =>
        intro pass hmem hpass
        have hhead := ih (h l.1 (hmem l List.mem_cons_self)) pass.1 l.2 hpass
        rw [List.foldlM_cons, hhead, List.map_cons, List.flatMap_cons, List.foldl_append]
        apply ihl _ (fun l' hl' => hmem l' (List.mem_cons_of_mem _ hl'))
        exact (frame_visits env _ _).succ.trans hpass
    rw [sync_line_glob, continue_sync_links, hlinks _ _ _ hsucc]
    · rw [Option.map_some, walk.visits, List.foldl_cons, List.foldl_append]
      subst hsucc
      rfl
    · intro l hl
      subst hsucc
      exact List.mem_map_of_mem hl

/-- A global sync of a line ends where the fuel is as deep as the paths, and only there. -/
theorem sync_line_glob_ends (env : environment ι) {fuel : Nat} {u : ι} {p : sync_profile}
    {line : Nat} {r : rack ι} :
    (∃ pass, sync_line env fuel u p sync_flags.glob_sync line r = some pass) ↔
      walk.Within r.succ fuel u := by
  constructor
  · rintro ⟨pass, h⟩
    induction fuel generalizing u p line r pass with
    | zero => cases h
    | succ fuel ih =>
      intro v hsucc
      rw [sync_line_glob, continue_sync_links] at h
      obtain ⟨pass', hfold, -⟩ := Option.map_eq_some_iff.mp h
      obtain ⟨link, hlink, rfl⟩ := List.mem_map.mp hsucc
      obtain ⟨s, t, hs, ht⟩ := walk.foldlM_steps
        (R := fun a b : Pass ι => Frame env true false a.2 b.2) (fun a => Frame.refl _ _ _ a.2)
        (fun _ _ _ => Frame.trans)
        (fun a b l _ hl => framed_sync_line env fuel l.2 l.1 a.1 sync_flags.glob_sync a.2 b hl)
        hfold hlink
      have hwithin := ih t ht
      rwa [hs.succ] at hwithin
  · intro h
    exact ⟨_, sync_line_visits env h p line rfl⟩

/-- The global sync of all lines is the tour of them. -/
theorem sync_profile_tour (env : environment ι) {fuel : Nat} {r : rack ι} (h : r.within fuel)
    (p : sync_profile) :
    backend.sync_profile env fuel p sync_flags.glob_sync r =
      some ((walk.tour r.succ fuel r.m_raw_mainlines).foldl (visit env) (p, r)) := by
  have hroots : ∀ (roots : List ι) (pass : Pass ι),
      (∀ u ∈ roots, walk.Within r.succ fuel u) → pass.2.succ = r.succ →
      roots.foldlM (fun pass u => sync_line env fuel u pass.1 sync_flags.glob_sync 0 pass.2) pass =
        some ((walk.tour r.succ fuel roots).foldl (visit env) pass) := by
    intro roots
    induction roots with
    | nil => exact fun _ _ _ => rfl
    | cons u roots ih =>
      intro pass hmem hpass
      have hhead := sync_line_visits env (hmem u List.mem_cons_self) pass.1 0 hpass
      rw [List.foldlM_cons, hhead, walk.tour, List.flatMap_cons, List.foldl_append]
      apply ih _ fun v hv => hmem v (List.mem_cons_of_mem _ hv)
      exact (frame_visits env _ _).succ.trans hpass
  exact hroots r.m_raw_mainlines (p, r) h rfl

/-! ## What a walk leaves behind -/

/-- The profile that the walk carries: only the way down changes it. -/
def carried (r : rack ι) (es : List (walk.Visit ι)) (p : sync_profile) : sync_profile :=
  walk.carry (fun u => entered (r.units u)) es p

theorem visits_profile (env : environment ι) (es : List (walk.Visit ι)) {r : rack ι}
    {pass : Pass ι} (h : Frame env true false r pass.2) :
    (es.foldl (visit env) pass).1 = carried r es pass.1 := by
  induction es generalizing pass with
  | nil => rfl
  | cons e es ih =>
    rw [List.foldl_cons, ih (h.trans (frame_visit env pass e))]
    cases e with
    | enter u =>
      have hsame := entered_congr (h.same_class u) (h.registered rfl u)
      change carried r es (entered (pass.2.units u) pass.1) = _
      rw [hsame]
      rfl
    | leave u => rfl

/-- A walk that does not leave a unit does not change what the unit has recorded. -/
theorem visits_recorded (env : environment ι) {es : List (walk.Visit ι)} {u : ι}
    (h : .leave u ∉ es) (pass : Pass ι) :
    ((es.foldl (visit env) pass).2.units u).m_global_profile =
      (pass.2.units u).m_global_profile := by
  induction es generalizing pass with
  | nil => rfl
  | cons e es ih =>
    obtain ⟨hne, hes⟩ := not_or.mp (mt List.mem_cons.mpr h)
    rw [List.foldl_cons, ih hes]
    cases e with
    | enter v => rfl
    | leave v =>
      have hv : u ≠ v := fun huv => hne (huv ▸ rfl)
      refine ((frame_resync env v _ _).recorded rfl u).trans ?_
      rw [modify_units, if_neg hv]

/-- What a walk records in a unit is the profile that it carries as it leaves the unit for the
last time. -/
theorem visits_recorded_last (env : environment ι) (before : List (walk.Visit ι))
    {after : List (walk.Visit ι)} {u : ι} (hlast : .leave u ∉ after) {r : rack ι} {pass : Pass ι}
    (h : Frame env true false r pass.2) :
    globals (((before ++ .leave u :: after).foldl (visit env) pass).2.units u).m_global_profile =
      globals (carried r before pass.1) := by
  rw [List.foldl_append, List.foldl_cons, visits_recorded env hlast,
    ← visits_profile env before h, visit]
  obtain ⟨p, s⟩ := before.foldl (visit env) pass
  rw [(frame_resync env u sync_flags.glob_sync (s.modify u (record_global p))).recorded rfl u,
    modify_units, if_pos rfl]
  rfl

/-! ## The global sync of a rack -/

omit [DecidableEq ι] in
theorem within_of_acyclic [Fintype ι] {r : rack ι} (h : walk.Acyclic r.succ) {fuel : Nat}
    (hfuel : Fintype.card ι ≤ fuel) : r.within fuel :=
  fun u _ => (walk.within_card h u).mono hfuel

omit [DecidableEq ι] in
theorem rack_resync_frame (env : environment ι) (r : rack ι) :
    (rack.resync env r).units = r.units ∧
      (rack.resync env r).m_global_profile = r.m_global_profile ∧
      (rack.resync env r).m_raw_mainlines = r.m_raw_mainlines ∧
      (rack.resync env r).m_resync_flags = r.m_resync_flags := by
  unfold rack.resync
  split
  · exact ⟨rfl, rfl, rfl, rfl⟩
  · split
    · exact ⟨rfl, rfl, rfl, rfl⟩
    · exact ⟨rfl, rfl, rfl, rfl⟩

/-- A global sync is the tour of the lines, whose profile the rack keeps, and a cycle. -/
theorem sync_glob {env : environment ι} {fuel : Nat} {r r' : rack ι}
    (h : backend.sync env fuel sync_flags.glob_sync r = some r') :
    let pass := (walk.tour r.succ fuel r.m_raw_mainlines).foldl (visit env) (r.m_global_profile, r)
    ∃ r1, r1.units = pass.2.units ∧ r1.m_global_profile = pass.1 ∧
      r1.m_raw_mainlines = pass.2.m_raw_mainlines ∧
      r1.m_resync_flags = pass.2.m_resync_flags ∧ Frame env false false r1 r' := by
  intro pass
  have htour := sync_profile_tour env (does_sync h).2 r.m_global_profile
  have hlines : backend.sync_lines env fuel sync_flags.glob_sync r =
      some { rack.resync env { pass.2 with m_global_profile := pass.1 } with
        performed := (rack.resync env { pass.2 with m_global_profile := pass.1 }).performed ++
          [.glob_sync] } := by
    unfold backend.sync_lines
    rw [if_pos (by decide), htour]
    rfl
  have hrun : (backend.sync_lines env fuel sync_flags.glob_sync r).bind
      (fun r => (backend.cycle env fuel .sync r).bind fun s => some s.2) = some r' := h
  rw [hlines, Option.bind_some] at hrun
  obtain ⟨s, h3, h4⟩ := Option.bind_eq_some_iff.mp hrun
  cases h4
  obtain ⟨h5, h6, h7, h8⟩ := rack_resync_frame env { pass.2 with m_global_profile := pass.1 }
  have hcycle := frame_cycle h3
  exact ⟨_, by exact h5, by exact h6, by exact h7, by exact h8, hcycle⟩

/-- What the units and the rack have recorded after a global sync. -/
theorem sync_glob_recorded {env : environment ι} {fuel : Nat} {r r' : rack ι}
    (h : backend.sync env fuel sync_flags.glob_sync r = some r') :
    let pass := (walk.tour r.succ fuel r.m_raw_mainlines).foldl (visit env) (r.m_global_profile, r)
    (∀ v, (r'.units v).m_global_profile = (pass.2.units v).m_global_profile) ∧
      r'.m_global_profile = pass.1 := by
  intro pass
  obtain ⟨r1, hunits, hprofile, -, -, hcycle⟩ := sync_glob h
  constructor
  · intro v
    rw [hcycle.recorded rfl v, hunits]
  · exact hcycle.rack_profile.trans hprofile

/-- A mainline that feeds a dispatch, which registers the period of the line. -/
def chain : rack (Fin 2) :=
  rack.new
    (fun u => if u = 0 then
        { m_class := .mainline, m_outputs := [⟨some (1, 0), true⟩],
          m_unit_profile := { fs := 44100, channels := 2 } }
      else { m_class := .dispatch, m_unit_profile := { period := 512 } })
    [0]

end strangeio.component
