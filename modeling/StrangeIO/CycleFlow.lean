-- How an AC cycle flows through the units (component/unit.cpp): it is a walk
-- down from the mainlines that goes on where a unit is skipped or completes.
import StrangeIO.CycleFrame
import StrangeIO.Flow

namespace strangeio.component

variable {ι : Type} [DecidableEq ι]

/-! ## The visits of a cycle -/

/-- What came of a visit: the unit was skipped for flushing, or its `cycle()` returned. -/
inductive visited where
  | skipped
  | returned (state : cycle_state)
deriving DecidableEq, Repr

/-- The cycle goes on to the outputs of the unit. -/
def visited.passes : visited → Bool
  | .skipped => true
  | .returned state => state = .complete

def visited.state : visited → cycle_state
  | .skipped => .complete
  | .returned state => state

/-- The unit whose `cycle()` a visit calls. -/
def visited.called (e : ι × visited) : List ι :=
  match e.2 with
  | .skipped => []
  | .returned _ => [e.1]

/-- The unit's own part of an AC cycle. -/
def visit_ac (env : environment ι) (u : ι) (r : rack ι) : visited × rack ι :=
  if (r.units u).m_line_profile.state = line_state.flushing.toInt then (.skipped, r)
  else
    (.returned (env.cycle u r).1,
      (env.cycle u r).2.foldl (unit.perform u) { r with calls := r.calls ++ [.cycle u] })

/-- The visits of an AC cycle in their order, and the rack after them. -/
def ac_walk (env : environment ι) (fuel : Nat) (r : rack ι) : List (ι × visited) × rack ι :=
  flow.inTurn (flow.down r.succ (visit_ac env) visited.passes fuel) r.m_raw_mainlines r

theorem cycle_unit_ac (env : environment ι) (fuel : Nat) (u : ι) (r : rack ι) :
    cycle_unit env fuel u .ac r = some ((visit_ac env u r).1.state, (visit_ac env u r).2) := by
  unfold cycle_unit visit_ac
  simp only
  split <;> rfl

theorem passes_iff (v : visited) : v.passes = true ↔ v.state = .complete := by
  cases v <;> simp [visited.passes, visited.state]

/-! ## What a cycle leaves alone -/

/-- A request of a unit marks it at most, and calls no unit. -/
theorem perform_keeps {β : Type} (g : unit ι → β)
    (hg : ∀ x b, g (unit.set_upstream b x) = g x) (u : ι) (r : rack ι) (q : request) :
    (∀ v, g ((unit.perform u r q).units v) = g (r.units v)) ∧
      (unit.perform u r q).calls = r.calls ∧
      (unit.perform u r q).m_raw_mainlines = r.m_raw_mainlines := by
  cases q with
  | trigger_cycle => exact ⟨fun _ => rfl, rfl, rfl⟩
  | trigger_sync flags =>
    have hmark : ∀ r' : rack ι, r' = (if flags.has sync_flags.upstream then
        r.modify u (unit.set_upstream true) else r) →
        (∀ v, g (r'.units v) = g (r.units v)) ∧ r'.calls = r.calls ∧
          r'.m_raw_mainlines = r.m_raw_mainlines := by
      rintro r' rfl
      split
      · exact ⟨fun v => modify_field g (fun x => hg x true) r u v, rfl, rfl⟩
      · exact ⟨fun _ => rfl, rfl, rfl⟩
    change (∀ v, g ((unit.trigger_sync u flags r).units v) = g (r.units v)) ∧
      (unit.trigger_sync u flags r).calls = r.calls ∧
      (unit.trigger_sync u flags r).m_raw_mainlines = r.m_raw_mainlines
    unfold unit.trigger_sync
    generalize (if flags.has sync_flags.upstream then r.modify u (unit.set_upstream true)
      else r) = r' at hmark ⊢
    obtain ⟨h1, h2, h3⟩ := hmark r' rfl
    simp only
    split
    · exact ⟨h1, h2, h3⟩
    · exact ⟨h1, h2, h3⟩

theorem requests_keep {β : Type} (g : unit ι → β)
    (hg : ∀ x b, g (unit.set_upstream b x) = g x) (u : ι) (requests : List request) (r : rack ι) :
    (∀ v, g ((requests.foldl (unit.perform u) r).units v) = g (r.units v)) ∧
      (requests.foldl (unit.perform u) r).calls = r.calls ∧
      (requests.foldl (unit.perform u) r).m_raw_mainlines = r.m_raw_mainlines := by
  induction requests generalizing r with
  | nil => exact ⟨fun _ => rfl, rfl, rfl⟩
  | cons q requests ih =>
    obtain ⟨h1, h2, h3⟩ := perform_keeps g hg u r q
    obtain ⟨h4, h5, h6⟩ := ih (unit.perform u r q)
    exact ⟨fun v => (h4 v).trans (h1 v), h5.trans h2, h6.trans h3⟩

/-- What an AC cycle leaves alone: the links, and the states of the lines. -/
structure Cycles (r r' : rack ι) : Prop where
  mainlines : r'.m_raw_mainlines = r.m_raw_mainlines
  outputs : ∀ v, (r'.units v).m_outputs = (r.units v).m_outputs
  line : ∀ v, (r'.units v).m_line_profile = (r.units v).m_line_profile

omit [DecidableEq ι] in
theorem Cycles.refl (r : rack ι) : Cycles r r := ⟨rfl, fun _ => rfl, fun _ => rfl⟩

omit [DecidableEq ι] in
theorem Cycles.trans {a b c : rack ι} (h : Cycles a b) (g : Cycles b c) : Cycles a c :=
  ⟨g.mainlines.trans h.mainlines, fun v => (g.outputs v).trans (h.outputs v),
    fun v => (g.line v).trans (h.line v)⟩

omit [DecidableEq ι] in
theorem Cycles.succ {r r' : rack ι} (h : Cycles r r') : r'.succ = r.succ := by
  funext u
  unfold rack.succ unit.links
  rw [h.outputs]

theorem cycles_visit (env : environment ι) (u : ι) (r : rack ι) :
    Cycles r (visit_ac env u r).2 := by
  unfold visit_ac
  split
  · exact Cycles.refl r
  · exact ⟨(requests_keep (·.m_outputs) (fun _ _ => rfl) u _ _).2.2,
      (requests_keep (·.m_outputs) (fun _ _ => rfl) u _ _).1,
      (requests_keep (·.m_line_profile) (fun _ _ => rfl) u _ _).1⟩

/-- A visit that does not skip the unit calls its `cycle()` once, and no other. -/
theorem visit_calls (env : environment ι) (u : ι) (r : rack ι) :
    (visit_ac env u r).2.calls =
      r.calls ++ (visited.called (u, (visit_ac env u r).1)).map .cycle := by
  unfold visit_ac
  split
  · exact (List.append_nil _).symm
  · exact (requests_keep (·.m_outputs) (fun _ _ => rfl) u _ _).2.1

theorem visit_skips (env : environment ι) (u : ι) (r : rack ι) :
    (visit_ac env u r).1 = .skipped ↔
      (r.units u).m_line_profile.state = line_state.flushing.toInt := by
  unfold visit_ac
  split
  · rename_i h
    simp [h]
  · rename_i h
    simp [h]

/-! ## A cycle as a walk -/

section visits

variable {β : Type} {env : environment ι} {type : cycle_type} {visit : ι → rack ι → β × rack ι}
  {state : β → cycle_state} {on : β → Bool}

/-- `visit` is the unit's own part of the cycle: what comes of it says which
state it returns and whether the cycle goes on. -/
structure IsVisit (env : environment ι) (type : cycle_type) (visit : ι → rack ι → β × rack ι)
    (state : β → cycle_state) (on : β → Bool) : Prop where
  cycle_unit : ∀ fuel u r,
    cycle_unit env fuel u type r = some (state (visit u r).1, (visit u r).2)
  on_iff : ∀ b, on b = true ↔ state b = .complete
  keeps : ∀ u r, Cycles r (visit u r).2

variable {r0 : rack ι} {fuel : Nat}

/-- The cycle of a line is the walk down from the unit. -/
theorem IsVisit.cycle_line (hv : IsVisit env type visit state on) {u : ι}
    (hwithin : walk.Within r0.succ fuel u) {r : rack ι} (h : Cycles r0 r) :
    cycle_line env fuel u type r =
      some (state (visit u r).1, (flow.down r0.succ visit on fuel u r).2) ∧
      Cycles r0 (flow.down r0.succ visit on fuel u r).2 := by
  induction fuel generalizing u r with
  | zero => exact hwithin.elim
  | succ fuel ih =>
    have hvisit := h.trans (hv.keeps u r)
    rw [cycle_line_succ, hv.cycle_unit, Option.bind_some]
    cases hon : on (visit u r).1 with
    | false =>
      have hstate : state (visit u r).1 ≠ .complete := by
        intro hstate
        rw [(hv.on_iff _).mpr hstate] at hon
        cases hon
      rw [if_pos hstate, flow.down_off hon]
      exact ⟨rfl, hvisit⟩
    | true =>
      have hstate := (hv.on_iff _).mp hon
      obtain ⟨hfold, hcycles⟩ := flow.foldlM_inTurn (I := Cycles r0)
        (f := flow.down r0.succ visit on fuel)
        (g := fun r v => (component.cycle_line env fuel v type r).map (·.2))
        (fun v (hv : v ∈ r0.succ u) s hs => by
          obtain ⟨h1, h2⟩ := ih (hwithin v hv) hs
          exact ⟨by rw [h1]; rfl, h2⟩) hvisit
      rw [if_neg (not_not.mpr hstate), flow.down_on hon]
      have hbelow : (((visit u r).2.units u).links.map Prod.fst) = r0.succ u :=
        congrFun hvisit.succ u
      refine ⟨?_, hcycles⟩
      rw [hbelow, hfold]
      rfl

/-- However deep a cycle goes, it leaves alone what its visits do. -/
theorem IsVisit.keeps_line (hv : IsVisit env type visit state on) {u : ι} {r : rack ι}
    {s : cycle_state × rack ι} (h : component.cycle_line env fuel u type r = some s) :
    Cycles r s.2 := by
  induction fuel generalizing u r s with
  | zero => cases h
  | succ fuel ih =>
    rw [cycle_line_succ, hv.cycle_unit, Option.bind_some] at h
    have hvisit := hv.keeps u r
    split at h
    · cases h
      exact hvisit
    · obtain ⟨r', hfold, rfl⟩ := Option.map_eq_some_iff.mp h
      refine hvisit.trans (walk.foldlM_relates Cycles.refl (fun _ _ _ => Cycles.trans)
        (fun s t v _ ht => ?_) hfold)
      obtain ⟨s', hs', rfl⟩ := Option.map_eq_some_iff.mp ht
      exact ih hs'

/-- A cycle whose visits all go on ends where the fuel is as deep as the paths, and only there. -/
theorem IsVisit.ends_iff (hv : IsVisit env type visit state on)
    (hon : ∀ u r, on (visit u r).1 = true) {u : ι} {r : rack ι} :
    (∃ s, component.cycle_line env fuel u type r = some s) ↔ walk.Within r.succ fuel u := by
  constructor
  · rintro ⟨s, h⟩
    induction fuel generalizing u r s with
    | zero => cases h
    | succ fuel ih =>
      intro v hsucc
      have hvisit := hv.keeps u r
      rw [cycle_line_succ, hv.cycle_unit, Option.bind_some,
        if_neg (not_not.mpr ((hv.on_iff _).mp (hon u r)))] at h
      obtain ⟨r', hfold, -⟩ := Option.map_eq_some_iff.mp h
      obtain ⟨t, t', ht, hbelow⟩ := walk.foldlM_steps Cycles.refl (fun _ _ _ => Cycles.trans)
        (fun s t w _ hw => by
          obtain ⟨s', hs', rfl⟩ := Option.map_eq_some_iff.mp hw
          exact hv.keeps_line hs') hfold (a := v) (by
            change v ∈ rack.succ _ u
            rw [hvisit.succ]
            exact hsucc)
      obtain ⟨s', hs', -⟩ := Option.map_eq_some_iff.mp hbelow
      have hwithin := ih s' hs'
      rwa [ht.succ, hvisit.succ] at hwithin
  · intro h
    exact ⟨_, (hv.cycle_line h (Cycles.refl r)).1⟩

/-- The walk of one mainline after the others, with the state that it returns. -/
def line_walk (visit : ι → rack ι → β × rack ι) (state : β → cycle_state) (on : β → Bool)
    (fuel : Nat) (succ : ι → List ι) (s : cycle_state × rack ι) (u : ι) : cycle_state × rack ι :=
  (state (visit u s.2).1, (flow.down succ visit on fuel u s.2).2)

omit [DecidableEq ι] in
theorem line_walk_rack (visit : ι → rack ι → β × rack ι) (state : β → cycle_state) (on : β → Bool)
    (fuel : Nat) (succ : ι → List ι) (us : List ι) (s : cycle_state × rack ι) :
    (us.foldl (line_walk visit state on fuel succ) s).2 =
      (flow.inTurn (flow.down succ visit on fuel) us s.2).2 := by
  induction us generalizing s with
  | nil => rfl
  | cons u us ih => exact ih _

/-- A cycle of the rack is the walks down from its mainlines, and returns the
state of the last one. -/
theorem IsVisit.cycle (hv : IsVisit env type visit state on) (hwithin : r0.within fuel) :
    backend.cycle env fuel type r0 =
      some (r0.m_raw_mainlines.foldl (line_walk visit state on fuel r0.succ) (.empty, r0)) ∧
      Cycles r0 (flow.inTurn (flow.down r0.succ visit on fuel) r0.m_raw_mainlines r0).2 := by
  have hlines : ∀ (us : List ι) (s : cycle_state × rack ι),
      (∀ u ∈ us, walk.Within r0.succ fuel u) → Cycles r0 s.2 →
      us.foldlM (fun s u => component.cycle_line env fuel u type s.2) s =
        some (us.foldl (line_walk visit state on fuel r0.succ) s) ∧
        Cycles r0 (us.foldl (line_walk visit state on fuel r0.succ) s).2 := by
    intro us
    induction us with
    | nil => exact fun s _ hs => ⟨rfl, hs⟩
    | cons u us ih =>
      intro s hus hs
      obtain ⟨h1, h2⟩ := hv.cycle_line (hus u List.mem_cons_self) hs
      obtain ⟨h3, h4⟩ := ih (line_walk visit state on fuel r0.succ s u)
        (fun v hv => hus v (List.mem_cons_of_mem _ hv)) h2
      refine ⟨?_, h4⟩
      rw [List.foldlM_cons, h1]
      exact h3
  obtain ⟨h1, h2⟩ := hlines r0.m_raw_mainlines (.empty, r0) hwithin (Cycles.refl r0)
  exact ⟨h1, line_walk_rack visit state on fuel r0.succ r0.m_raw_mainlines (.empty, r0) ▸ h2⟩

end visits

/-! ## The AC cycle as a walk -/

theorem is_visit_ac (env : environment ι) :
    IsVisit env .ac (visit_ac env) visited.state visited.passes where
  cycle_unit := cycle_unit_ac env
  on_iff := passes_iff
  keeps := cycles_visit env

section walks

variable (env : environment ι) {r0 : rack ι} {fuel : Nat}

omit [DecidableEq ι] in
theorem map_called (es : List (ι × visited)) :
    es.flatMap (fun e => (visited.called e).map call.cycle) =
      (es.flatMap visited.called).map .cycle := by
  rw [List.map_flatMap]

/-- The visits of a walk that skip no unit call its `cycle()` once each. -/
theorem down_calls (fuel : Nat) (succ : ι → List ι) (u : ι) (r : rack ι) :
    (flow.down succ (visit_ac env) visited.passes fuel u r).2.calls = r.calls ++
      ((flow.down succ (visit_ac env) visited.passes fuel u r).1.flatMap visited.called).map
        .cycle := by
  rw [← map_called]
  exact flow.down_log (visit_calls env) u r

/-- A walk calls what it can reach only. -/
theorem reach_of_called {succ : ι → List ι} {u v : ι} {r : rack ι}
    (h : v ∈ (flow.down succ (visit_ac env) visited.passes fuel u r).1.flatMap visited.called) :
    Relation.ReflTransGen (walk.Edge succ) u v := by
  obtain ⟨e, he, hcalled⟩ := List.mem_flatMap.mp h
  have hsame : v = e.1 := by
    unfold visited.called at hcalled
    split at hcalled
    · cases hcalled
    · exact List.mem_singleton.mp hcalled
  rw [hsame]
  exact flow.down_reach he

theorem inTurn_calls (fuel : Nat) (succ : ι → List ι) (us : List ι) (r : rack ι) :
    (flow.inTurn (flow.down succ (visit_ac env) visited.passes fuel) us r).2.calls = r.calls ++
      ((flow.inTurn (flow.down succ (visit_ac env) visited.passes fuel) us r).1.flatMap
        visited.called).map .cycle := by
  rw [← map_called]
  exact flow.inTurn_log (fun u _ r => flow.down_log (visit_calls env) u r) r

/-- An AC cycle of the rack is the walk down from its mainlines. -/
theorem cycle_down (hwithin : r0.within fuel) :
    (∃ state, backend.cycle env fuel .ac r0 = some (state, (ac_walk env fuel r0).2)) ∧
      Cycles r0 (ac_walk env fuel r0).2 := by
  obtain ⟨hcycle, hkeeps⟩ := (is_visit_ac env).cycle hwithin
  refine ⟨⟨(r0.m_raw_mainlines.foldl (line_walk (visit_ac env) visited.state visited.passes fuel
    r0.succ) (.empty, r0)).1, ?_⟩, hkeeps⟩
  rw [hcycle, ac_walk, ← line_walk_rack _ visited.state _ _ _ r0.m_raw_mainlines (.empty, r0)]

/-- Every visit of an AC cycle is skipped exactly when the line of the unit is flushing. -/
theorem walk_skips (r : rack ι) : ∀ e ∈ (ac_walk env fuel r).1,
    e.2 = .skipped ↔ (r.units e.1).m_line_profile.state = line_state.flushing.toInt := by
  refine (flow.inTurn_visits (I := Cycles r) (fun v _ s hs => ?_) (Cycles.refl r)).1
  refine flow.down_visits (I := Cycles r) (fun u s hs => ⟨?_, hs.trans (cycles_visit env u s)⟩) hs
  rw [← hs.line]
  exact visit_skips env u s

end walks

end strangeio.component
