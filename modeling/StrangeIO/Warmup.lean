-- The warm-up cycles of a rack (component/unit.cpp): a walk down from the
-- mainlines that initialises the units which are not active yet, and goes on
-- below those that are. A unit is active from the `init()` on that completes.
import StrangeIO.CycleFlow
import StrangeIO.GlobalSync
import StrangeIO.Transition

namespace strangeio.component

variable {ι : Type} [DecidableEq ι]

/-! ## The visits of a warm-up -/

/-- A visit of a warm-up: the rack that it found, and what came of it. The
unit is skipped when it is active, else its `init()` returned. -/
structure warmed (ι : Type) where
  before : rack ι
  came : visited

def activate (x : unit ι) : unit ι := { x with m_cstate := .active }

/-- The unit's own part of a warm-up cycle. -/
def visit_warmup (env : environment ι) (u : ι) (r : rack ι) : warmed ι × rack ι :=
  if (r.units u).m_cstate = .active then (⟨r, .skipped⟩, r)
  else
    let r' := (env.init u r).2.foldl (unit.perform u) { r with calls := r.calls ++ [.init u] }
    (⟨r, .returned (env.init u r).1⟩,
      if (env.init u r).1 = .complete then r'.modify u activate else r')

/-- The visits of a warm-up cycle in their order, and the rack after them. -/
def warm_walk (env : environment ι) (fuel : Nat) (r : rack ι) :
    List (ι × warmed ι) × rack ι :=
  flow.inTurn (flow.down r.succ (visit_warmup env) (fun w => w.came.passes) fuel)
    r.m_raw_mainlines r

/-- The unit whose `init()` a visit calls. -/
def warmed.called (e : ι × warmed ι) : List ι := visited.called (e.1, e.2.came)

/-- The units whose `init()` was called, in the order of the calls. -/
def rack.inits (r : rack ι) : List ι :=
  r.calls.filterMap fun c =>
    match c with
    | .init u => some u
    | _ => none

def rack.Active (r : rack ι) (u : ι) : Prop := (r.units u).m_cstate = .active

/-- The `init()` of the unit returned complete in one of the visits. -/
def Completed (visits : List (ι × warmed ι)) (u : ι) : Prop :=
  ∃ e ∈ visits, e.1 = u ∧ e.2.came = .returned .complete

/-! ## What a visit does -/

theorem visit_warmup_keeps {β : Type} (g : unit ι → β)
    (hmark : ∀ x b, g (unit.set_upstream b x) = g x) (hactive : ∀ x, g (activate x) = g x)
    (env : environment ι) (u : ι) (r : rack ι) (v : ι) :
    g ((visit_warmup env u r).2.units v) = g (r.units v) := by
  unfold visit_warmup
  split
  · rfl
  · have hkeep := (requests_keep g hmark u (env.init u r).2
      { r with calls := r.calls ++ [.init u] }).1 v
    simp only
    split
    · exact (modify_field g hactive _ u v).trans hkeep
    · exact hkeep

theorem cycles_warmup (env : environment ι) (u : ι) (r : rack ι) :
    Cycles r (visit_warmup env u r).2 := by
  refine ⟨?_, visit_warmup_keeps (·.m_outputs) (fun _ _ => rfl) (fun _ => rfl) env u r,
    visit_warmup_keeps (·.m_line_profile) (fun _ _ => rfl) (fun _ => rfl) env u r⟩
  unfold visit_warmup
  split
  · rfl
  · have hkeep := (requests_keep (·.m_outputs) (fun _ _ => rfl) u (env.init u r).2
      { r with calls := r.calls ++ [.init u] }).2.2
    simp only
    split
    · exact hkeep
    · exact hkeep

theorem is_visit_warmup (env : environment ι) :
    IsVisit env .warmup (visit_warmup env) (fun w => w.came.state) (fun w => w.came.passes) where
  cycle_unit := by
    intro fuel u r
    unfold cycle_unit visit_warmup
    simp only
    split
    · rfl
    · split
      · rfl
      · rfl
  on_iff w := passes_iff w.came
  keeps := cycles_warmup env

/-- A visit skips the units that are active, and no others. -/
theorem visit_warmup_skips (env : environment ι) (u : ι) (r : rack ι) :
    (visit_warmup env u r).1.came = .skipped ↔ r.Active u := by
  unfold visit_warmup rack.Active
  split
  · rename_i h
    simp [h]
  · rename_i h
    simp [h]

theorem visit_warmup_before (env : environment ι) (u : ι) (r : rack ι) :
    (visit_warmup env u r).1.before = r := by
  unfold visit_warmup
  split <;> rfl

/-- A unit becomes active in the visit in which its `init()` returns complete. -/
theorem active_visit (env : environment ι) (u : ι) (r : rack ι) (v : ι) :
    (visit_warmup env u r).2.Active v ↔
      r.Active v ∨ (u = v ∧ (visit_warmup env u r).1.came = .returned .complete) := by
  unfold visit_warmup rack.Active
  split
  · simp
  · rename_i hidle
    have hkeep := (requests_keep (·.m_cstate) (fun _ _ => rfl) u (env.init u r).2
      { r with calls := r.calls ++ [.init u] }).1 v
    simp only
    split
    · rename_i hcomplete
      by_cases huv : u = v
      · subst huv
        simp [rack.modify, activate, hcomplete]
      · rw [rack.modify]
        simp only [Function.update_of_ne (Ne.symm huv)]
        rw [hkeep]
        simp [huv]
    · rename_i hnot
      rw [hkeep]
      simp [hnot]

/-- The cycle goes on below a unit that is active by then. -/
theorem active_of_passes {env : environment ι} {u : ι} {r : rack ι}
    (h : (visit_warmup env u r).1.came.passes = true) : (visit_warmup env u r).2.Active u := by
  rw [active_visit]
  cases hcame : (visit_warmup env u r).1.came with
  | skipped => exact .inl ((visit_warmup_skips env u r).mp hcame)
  | returned state =>
    rw [hcame] at h
    have hstate : state = .complete := of_decide_eq_true h
    exact .inr ⟨rfl, by rw [hstate]⟩

theorem inits_visit (env : environment ι) (u : ι) (r : rack ι) :
    (visit_warmup env u r).2.inits = r.inits ++ warmed.called (u, (visit_warmup env u r).1) := by
  unfold visit_warmup warmed.called visited.called rack.inits
  split
  · exact (List.append_nil _).symm
  · have hkeep := (requests_keep (·.m_outputs) (fun _ _ => rfl) u (env.init u r).2
      { r with calls := r.calls ++ [.init u] }).2.1
    have hcalls : (if (env.init u r).1 = .complete then
        ((env.init u r).2.foldl (unit.perform u)
          { r with calls := r.calls ++ [.init u] }).modify u activate
        else (env.init u r).2.foldl (unit.perform u)
          { r with calls := r.calls ++ [.init u] }).calls = r.calls ++ [.init u] := by
      split
      · exact hkeep
      · exact hkeep
    simp only
    rw [hcalls, List.filterMap_append]
    rfl

/-! ## Runs of warm-ups -/

/-- What goes on between the visits of warm-ups: it leaves the links and the
states of the units alone, and initialises none. -/
structure Rests (r r' : rack ι) : Prop where
  mainlines : r'.m_raw_mainlines = r.m_raw_mainlines
  outputs : ∀ v, (r'.units v).m_outputs = (r.units v).m_outputs
  cstate : ∀ v, (r'.units v).m_cstate = (r.units v).m_cstate
  inits : r'.inits = r.inits

omit [DecidableEq ι] in
theorem Rests.refl (r : rack ι) : Rests r r := ⟨rfl, fun _ => rfl, fun _ => rfl, rfl⟩

omit [DecidableEq ι] in
theorem Rests.trans {a b c : rack ι} (h : Rests a b) (g : Rests b c) : Rests a c :=
  ⟨g.mainlines.trans h.mainlines, fun v => (g.outputs v).trans (h.outputs v),
    fun v => (g.cstate v).trans (h.cstate v), g.inits.trans h.inits⟩

/-- An AC cycle is such a rest. -/
theorem rests_ac_walk (env : environment ι) (fuel : Nat) (r : rack ι) :
    Rests r (ac_walk env fuel r).2 := by
  refine flow.inTurn_keeps (T := fun _ s => Rests r s) ?_ _ [] (Rests.refl r)
  intro u _ s hs
  refine flow.down_keeps (T := fun _ s => Rests r s) ?_ u [] hs
  intro u _ s hs
  have hcycles := cycles_visit env u s
  refine hs.trans ⟨hcycles.mainlines, hcycles.outputs, ?_, ?_⟩
  · unfold visit_ac
    split
    · exact fun _ => rfl
    · exact (requests_keep (·.m_cstate) (fun _ _ => rfl) u _ _).1
  · unfold rack.inits
    rw [visit_calls, List.filterMap_append]
    have hnone : ((visited.called (u, (visit_ac env u s).1)).map call.cycle).filterMap
        (fun c => match c with
          | .init u => some u
          | _ => none) = [] := by
      rw [List.filterMap_eq_nil_iff]
      intro c hc
      obtain ⟨v, -, rfl⟩ := List.mem_map.mp hc
      rfl
    rw [hnone, List.append_nil]

/-- The visits from the first rack to the last one, each made in the rack
that it found, with rests between them. -/
inductive Visits (env : environment ι) (r : rack ι) : List (ι × warmed ι) → rack ι → Prop
  | nil : Visits env r [] r
  | visit {es : List (ι × warmed ι)} {s : rack ι} (u : ι) :
      Visits env r es s →
      Visits env r (es ++ [(u, (visit_warmup env u s).1)]) (visit_warmup env u s).2
  | rest {es : List (ι × warmed ι)} {s t : rack ι} :
      Visits env r es s → Rests s t → Visits env r es t

theorem Visits.walk {env : environment ι} {r s : rack ι} {es : List (ι × warmed ι)}
    (h : Visits env r es s) (fuel : Nat) :
    Visits env r (es ++ (warm_walk env fuel s).1) (warm_walk env fuel s).2 :=
  flow.inTurn_keeps (fun u _ _ h => flow.down_keeps (fun u _ _ h => h.visit u) u _ h) _ _ h

theorem Visits.of_warm_walk (env : environment ι) (fuel : Nat) (r : rack ι) :
    Visits env r (warm_walk env fuel r).1 (warm_walk env fuel r).2 := by
  have hwalk : Visits env r ([] ++ (warm_walk env fuel r).1) _ := Visits.nil.walk fuel
  rwa [List.nil_append] at hwalk

omit [DecidableEq ι] in
theorem completed_snoc {es : List (ι × warmed ι)} {e : ι × warmed ι} {u : ι} :
    Completed (es ++ [e]) u ↔ Completed es u ∨ (e.1 = u ∧ e.2.came = .returned .complete) := by
  simp [Completed, or_and_right, exists_or]

section visits

variable {env : environment ι} {r s : rack ι} {es : List (ι × warmed ι)}

theorem Visits.keeps (h : Visits env r es s) :
    s.m_raw_mainlines = r.m_raw_mainlines ∧ s.succ = r.succ := by
  induction h with
  | nil => exact ⟨rfl, rfl⟩
  | visit u _ ih =>
    have hcycles := cycles_warmup env u
    exact ⟨(hcycles _).mainlines.trans ih.1, (hcycles _).succ.trans ih.2⟩
  | rest _ hrest ih =>
    refine ⟨hrest.mainlines.trans ih.1, Eq.trans ?_ ih.2⟩
    funext u
    unfold rack.succ unit.links
    rw [hrest.outputs]

/-- A unit is active when it was so at the start, or when its `init()`
returned complete since. -/
theorem Visits.active (h : Visits env r es s) (u : ι) :
    s.Active u ↔ r.Active u ∨ Completed es u := by
  induction h with
  | nil => simp [Completed]
  | visit v _ ih => rw [active_visit, completed_snoc, ih, or_assoc]
  | rest _ hrest ih => rw [← ih, rack.Active, rack.Active, hrest.cstate]

theorem Visits.inits (h : Visits env r es s) :
    s.inits = r.inits ++ es.flatMap warmed.called := by
  induction h with
  | nil => simp
  | visit u _ ih => simp [inits_visit, ih]
  | rest _ hrest ih => rw [hrest.inits, ih]

/-- Each visit of the history was made in the rack that the visits before it led to. -/
theorem Visits.at (h : Visits env r es s) {pre post : List (ι × warmed ι)} {e : ι × warmed ι}
    (hes : es = pre ++ e :: post) :
    Visits env r pre e.2.before ∧ e.2 = (visit_warmup env e.1 e.2.before).1 := by
  induction h generalizing post with
  | nil => simp at hes
  | @visit es s u hs ih =>
    rcases List.eq_nil_or_concat post with rfl | ⟨post, f, rfl⟩
    · obtain ⟨rfl, he⟩ := List.append_inj' hes rfl
      obtain rfl := (List.cons.inj he).1
      exact ⟨by rwa [visit_warmup_before], by rw [visit_warmup_before]⟩
    · rw [List.concat_eq_append, ← List.cons_append, ← List.append_assoc] at hes
      exact ih (List.append_inj' hes rfl).1
  | rest _ _ ih => exact ih hes

/-- A visit that lets the cycle pass leaves its unit active for good. -/
theorem Visits.active_of_mem (h : Visits env r es s) {e : ι × warmed ι} (he : e ∈ es)
    (hpasses : e.2.came.passes = true) : s.Active e.1 := by
  obtain ⟨pre, post, hes⟩ := List.append_of_mem he
  obtain ⟨hbefore, hvisit⟩ := h.at hes
  rw [h.active]
  cases hcame : e.2.came with
  | skipped =>
    rw [hvisit] at hcame
    refine ((hbefore.active e.1).mp ((visit_warmup_skips env _ _).mp hcame)).imp_right ?_
    rintro ⟨f, hf, hfu, hfc⟩
    exact ⟨f, by simp [hes, hf], hfu, hfc⟩
  | returned state =>
    rw [hcame] at hpasses
    have hstate : state = .complete := of_decide_eq_true hpasses
    exact .inr ⟨e, he, rfl, by rw [hcame, hstate]⟩

/-- Visits of units that were active at the start call no `init()`. -/
theorem Visits.called_nil (h : Visits env r es s) (hactive : ∀ e ∈ es, r.Active e.1) :
    es.flatMap warmed.called = [] := by
  rw [List.flatMap_eq_nil_iff]
  intro e he
  obtain ⟨pre, post, hes⟩ := List.append_of_mem he
  obtain ⟨hbefore, hvisit⟩ := h.at hes
  have hskip : e.2.came = .skipped := by
    rw [hvisit, visit_warmup_skips, hbefore.active]
    exact .inl (hactive e he)
  unfold warmed.called visited.called
  rw [hskip]

/-- No unit is initialised again after its `init()` returned complete. -/
theorem Visits.once (h : Visits env r es s) {pre post : List (ι × warmed ι)} {e : ι × warmed ι}
    (hes : es = pre ++ e :: post) (hcalled : e.2.came ≠ .skipped) : ¬ Completed pre e.1 := by
  obtain ⟨hbefore, hvisit⟩ := h.at hes
  intro hcompleted
  apply hcalled
  rw [hvisit, visit_warmup_skips, hbefore.active]
  exact .inr hcompleted

end visits

/-! ## The order of the visits -/

/-- The unit is a mainline, or a unit that is linked to it is active. -/
def Entered (r0 : rack ι) (u : ι) (s : rack ι) : Prop :=
  u ∈ r0.m_raw_mainlines ∨ ∃ v, u ∈ r0.succ v ∧ s.Active v

theorem warm_walk_entered (env : environment ι) (fuel : Nat) {r0 r : rack ι}
    (hmain : r.m_raw_mainlines = r0.m_raw_mainlines) (hsucc : r.succ = r0.succ) :
    ∀ e ∈ (warm_walk env fuel r).1, Entered r0 e.1 e.2.before := by
  have hkeep : ∀ w u (s : rack ι), Entered r0 w s → Entered r0 w (visit_warmup env u s).2 := by
    rintro w u s (hw | ⟨v, hv, hactive⟩)
    · exact .inl hw
    · exact .inr ⟨v, hv, (active_visit env u s v).mpr (.inl hactive)⟩
  unfold warm_walk
  rw [hmain, hsucc]
  refine (flow.inTurn_visits (I := fun _ => True) (fun u hu s _ => ⟨?_, trivial⟩) trivial).1
  refine flow.down_enters (P := Entered r0) ?_ hkeep ?_ (.inl hu)
  · intro u s hu
    rwa [visit_warmup_before]
  · intro u s hon v hv
    exact .inr ⟨u, hv, active_of_passes hon⟩

/-- After a warm-up in which every visit passes, all units below the mainlines are active. -/
theorem active_of_reach {env : environment ι} {fuel : Nat} {r : rack ι} (hwithin : r.within fuel)
    (hall : ∀ e ∈ (warm_walk env fuel r).1, e.2.came.passes = true) {u v : ι}
    (hu : u ∈ r.m_raw_mainlines) (hv : Relation.ReflTransGen (walk.Edge r.succ) u v) :
    (warm_walk env fuel r).2.Active v := by
  obtain ⟨e, he, rfl⟩ := flow.inTurn_covers (P := fun e : ι × warmed ι => e.2.came.passes = true)
    (fun t ht => flow.down_covers (hwithin u hu) hv ht) hu hall
  exact (Visits.of_warm_walk env fuel r).active_of_mem he (hall e he)

/-- A walk visits what lies below the mainlines only. -/
theorem reach_of_warm {env : environment ι} {fuel : Nat} {r : rack ι} {e : ι × warmed ι}
    (h : e ∈ (warm_walk env fuel r).1) :
    ∃ u ∈ r.m_raw_mainlines, Relation.ReflTransGen (walk.Edge r.succ) u e.1 := by
  obtain ⟨u, hu, s, he⟩ := flow.mem_inTurn h
  exact ⟨u, hu, flow.down_reach he⟩

/-! ## Any number of warm-ups -/

/-- A rack, and the visits of the warm-ups so far. -/
structure warm_state (ι : Type) where
  rack : rack ι
  visits : List (ι × warmed ι)

inductive warm_act where
  | warm_up
  | rest

/-- Warm-up cycles, one after the other or with rests between them. -/
def warming (env : environment ι) (fuel : Nat) :
    transition.System (warm_state ι) warm_act where
  start s := s.visits = []
  step s a t :=
    match a with
    | .warm_up => (∃ state, backend.cycle env fuel .warmup s.rack = some (state, t.rack)) ∧
        t.visits = s.visits ++ (warm_walk env fuel s.rack).1
    | .rest => Rests s.rack t.rack ∧ t.visits = s.visits

/-- A warm-up cycle of the rack is the walk down from its mainlines. -/
theorem warm_up_walk (env : environment ι) {fuel : Nat} {r : rack ι} (hwithin : r.within fuel) :
    ∃ state, backend.cycle env fuel .warmup r = some (state, (warm_walk env fuel r).2) := by
  obtain ⟨hcycle, -⟩ := (is_visit_warmup env).cycle hwithin
  rw [hcycle, warm_walk, ← line_walk_rack (visit_warmup env) (fun w => w.came.state)
    (fun w => w.came.passes) fuel r.succ r.m_raw_mainlines (.empty, r)]
  exact ⟨_, rfl⟩

/-- The history of a run of warm-ups. -/
structure Warmed (env : environment ι) (r0 : rack ι) (s : warm_state ι) : Prop where
  visits : Visits env r0 s.visits s.rack
  entered : ∀ e ∈ s.visits, Entered r0 e.1 e.2.before

omit [DecidableEq ι] in
theorem rack.within_of_keeps {r s : rack ι}
    (h : s.m_raw_mainlines = r.m_raw_mainlines ∧ s.succ = r.succ) {fuel : Nat}
    (hwithin : r.within fuel) : s.within fuel := by
  unfold rack.within
  rw [h.1, h.2]
  exact hwithin

section runs

variable {env : environment ι} {fuel : Nat} {r0 : rack ι}

theorem warm_up_rack {s t : warm_state ι} (hwithin : s.rack.within fuel)
    (hstep : (warming env fuel).step s .warm_up t) : t.rack = (warm_walk env fuel s.rack).2 := by
  obtain ⟨⟨state, hcycle⟩, -⟩ := hstep
  obtain ⟨state', hwalk⟩ := warm_up_walk env hwithin
  rw [hcycle] at hwalk
  exact (Prod.mk.inj (Option.some.inj hwalk)).2

theorem warmed_step (hwithin : r0.within fuel) {s t : warm_state ι} {a : warm_act}
    (h : Warmed env r0 s) (hstep : (warming env fuel).step s a t) : Warmed env r0 t := by
  have hkeeps := h.visits.keeps
  cases a with
  | warm_up =>
    have hrack := warm_up_rack (rack.within_of_keeps hkeeps hwithin) hstep
    have hvisits := hstep.2
    refine ⟨?_, ?_⟩
    · rw [hvisits, hrack]
      exact h.visits.walk fuel
    · intro e he
      rw [hvisits] at he
      rcases List.mem_append.mp he with he | he
      · exact h.entered e he
      · exact warm_walk_entered env fuel hkeeps.1 hkeeps.2 e he
  | rest =>
    obtain ⟨hrests, hvisits⟩ := hstep
    refine ⟨?_, ?_⟩
    · rw [hvisits]
      exact h.visits.rest hrests
    · rw [hvisits]
      exact h.entered

theorem warmed_run (hwithin : r0.within fuel) {s t : warm_state ι} {acts : List warm_act}
    (h : Warmed env r0 s) (hrun : transition.Run (warming env fuel) s acts t) : Warmed env r0 t :=
  hrun.keeps (P := Warmed env r0) (fun _ _ _ h hstep => warmed_step hwithin h hstep) h

/-- All units below the mainlines are active. -/
def AllActive (r0 : rack ι) (s : warm_state ι) : Prop :=
  ∀ u ∈ r0.m_raw_mainlines, ∀ v, Relation.ReflTransGen (walk.Edge r0.succ) u v → s.rack.Active v

/-- Once all units below the mainlines are active, they stay so, and none is initialised. -/
theorem all_active_step (hwithin : r0.within fuel) {s t : warm_state ι} {a : warm_act}
    (h : Warmed env r0 s) (hall : AllActive r0 s) (hstep : (warming env fuel).step s a t) :
    AllActive r0 t ∧ t.rack.inits = s.rack.inits := by
  have hkeeps := h.visits.keeps
  cases a with
  | warm_up =>
    have hrack := warm_up_rack (rack.within_of_keeps hkeeps hwithin) hstep
    have hvisits := Visits.of_warm_walk env fuel s.rack
    refine ⟨?_, ?_⟩
    · intro u hu v hv
      rw [hrack, hvisits.active]
      exact .inl (hall u hu v hv)
    · have hnone : (warm_walk env fuel s.rack).1.flatMap warmed.called = [] := by
        refine hvisits.called_nil ?_
        intro e he
        obtain ⟨u, hu, hreach⟩ := reach_of_warm he
        rw [hkeeps.1] at hu
        rw [hkeeps.2] at hreach
        exact hall u hu e.1 hreach
      rw [hrack, hvisits.inits, hnone, List.append_nil]
  | rest =>
    obtain ⟨hrests, -⟩ := hstep
    refine ⟨?_, hrests.inits⟩
    intro u hu v hv
    rw [rack.Active, hrests.cstate]
    exact hall u hu v hv

theorem all_active_run (hwithin : r0.within fuel) {s t : warm_state ι} {acts : List warm_act}
    (h : Warmed env r0 s) (hall : AllActive r0 s)
    (hrun : transition.Run (warming env fuel) s acts t) :
    AllActive r0 t ∧ t.rack.inits = s.rack.inits := by
  have hboth := hrun.keeps
    (P := fun t => Warmed env r0 t ∧ AllActive r0 t ∧ t.rack.inits = s.rack.inits)
    (fun a _ b hkept hstep => by
      obtain ⟨hw, ha, hi⟩ := hkept
      obtain ⟨ha', hi'⟩ := all_active_step hwithin hw ha hstep
      exact ⟨warmed_step hwithin hw hstep, ha', hi'.trans hi⟩)
    ⟨h, hall, rfl⟩
  exact hboth.2

end runs

/-- What holds of the history of a run of warm-ups. -/
structure WarmedInOrder (r0 : rack ι) (s : warm_state ι) : Prop where
  inits : s.rack.inits = r0.inits ++ s.visits.flatMap warmed.called
  active : ∀ u, s.rack.Active u ↔ r0.Active u ∨ Completed s.visits u
  active_then : ∀ pre e post, s.visits = pre ++ e :: post →
    ∀ u, e.2.before.Active u ↔ r0.Active u ∨ Completed pre u
  once : ∀ pre e post, s.visits = pre ++ e :: post → e.2.came ≠ .skipped → ¬ Completed pre e.1
  in_order : ∀ e ∈ s.visits, e.2.came ≠ .skipped → Entered r0 e.1 e.2.before

/-- **Warm-ups initialise each unit once and in order.** A unit is active from
the `init()` on that completes, and not initialised after it; it is initialised
as a mainline, or when a unit that is linked to it is active. After a warm-up
without a failure all units below the mainlines are active, and no unit is
initialised any more. -/
theorem warm_ups_initialise_once_and_in_order [Fintype ι] (env : environment ι) (r0 : rack ι)
    (hacyclic : walk.Acyclic r0.succ) {fuel : Nat} (hfuel : Fintype.card ι ≤ fuel)
    {acts : List warm_act} {s : warm_state ι}
    (hrun : transition.Run (warming env fuel) ⟨r0, []⟩ acts s) :
    WarmedInOrder r0 s ∧
      ∃ t, (warming env fuel).step s .warm_up t ∧
        ((∀ e ∈ (warm_walk env fuel s.rack).1, e.2.came.passes = true) →
          ∀ acts t', transition.Run (warming env fuel) t acts t' →
            AllActive r0 t' ∧ t'.rack.inits = t.rack.inits) := by
  have hwithin : r0.within fuel := within_of_acyclic hacyclic hfuel
  have hstart : Warmed env r0 ⟨r0, []⟩ := ⟨.nil, fun e he => absurd he List.not_mem_nil⟩
  have hwarmed := warmed_run hwithin hstart hrun
  have hkeeps := hwarmed.visits.keeps
  have hwithin' := rack.within_of_keeps hkeeps hwithin
  refine ⟨⟨hwarmed.visits.inits, hwarmed.visits.active, ?_, ?_, ?_⟩, ?_⟩
  · intro pre e post hes
    exact (hwarmed.visits.at hes).1.active
  · intro pre e post hes hcalled
    exact hwarmed.visits.once hes hcalled
  · exact fun e he _ => hwarmed.entered e he
  · let t : warm_state ι :=
      ⟨(warm_walk env fuel s.rack).2, s.visits ++ (warm_walk env fuel s.rack).1⟩
    have hstep : (warming env fuel).step s .warm_up t := ⟨warm_up_walk env hwithin', rfl⟩
    refine ⟨t, hstep, ?_⟩
    intro hall acts t' hrun'
    refine all_active_run hwithin (warmed_step hwithin hwarmed hstep) ?_ hrun'
    intro u hu v hv
    rw [← hkeeps.1] at hu
    rw [← hkeeps.2] at hv
    exact active_of_reach hwithin' hall hu hv

/-! ## A line of two units -/

/-- A warm-up of two units, which both complete. -/
theorem two_units_warm_up :
    WarmedInOrder chain ⟨(warm_walk environment.quiet 2 chain).2,
      (warm_walk environment.quiet 2 chain).1⟩ := by
  have hacyclic : walk.Acyclic chain.succ := walk.acyclic_of_rank Fin.val (by decide)
  have hrun : transition.Run (warming environment.quiet 2) ⟨chain, []⟩ [.warm_up]
      ⟨(warm_walk environment.quiet 2 chain).2, (warm_walk environment.quiet 2 chain).1⟩ :=
    .one ⟨warm_up_walk environment.quiet (within_of_acyclic hacyclic (le_refl 2)), rfl⟩
  exact (warm_ups_initialise_once_and_in_order environment.quiet chain hacyclic (le_refl 2)
    hrun).1

end strangeio.component
