-- How the state of a rack of lines settles in a sync pass, and over all passes
-- that follow changes of the mainlines: the rack is active exactly when a
-- mainline is, as long as no pass hands over from lines to later lines.
import StrangeIO.LineState

namespace strangeio.component

variable {ι : Type} [DecidableEq ι]

/-! ## The global sync -/

omit [DecidableEq ι] in
/-- A walk down a row of units enters them all, and leaves them in turn. -/
theorem visits_leads {r : rack ι} {d : ι} {steps : List ι} (h : leads r d steps) :
    walk.visits r.succ (steps.length + 1) (steps.headD d) =
      (steps ++ [d]).map .enter ++ (steps ++ [d]).reverse.map .leave := by
  induction steps with
  | nil =>
    have hsucc : r.succ d = [] := by
      rw [rack.succ, show (r.units d).links = [] from h]
      rfl
    change walk.visits r.succ 1 d = _
    rw [walk.visits, hsucc]
    rfl
  | cons x steps ih =>
    obtain ⟨⟨id, hid⟩, hrest⟩ := h
    have hsucc : r.succ x = [steps.headD d] := by
      rw [rack.succ, hid]
      rfl
    change walk.visits r.succ (steps.length + 1 + 1) x = _
    rw [walk.visits, hsucc, List.flatMap_cons, ih hrest]
    simp

omit [DecidableEq ι] in
/-- What a unit does to the state of the profile: only a dispatch has a say in it. -/
theorem entered_same_state {x : unit ι} {p : sync_profile}
    (hx : x.m_unit_profile.state ≠ line_state.flushing.toInt)
    (hp : p.state ≠ line_state.flushing.toInt) :
    (entered x p).state = if x.m_class = .dispatch then x.m_unit_profile.state else p.state := by
  rw [entered_state_eq, if_neg hx, overridden_state hp]
  by_cases hclass : x.m_class = .dispatch
  · rw [if_pos hclass, if_neg hx]
  · rw [if_neg hclass, if_neg hp]

/-- Units that keep the state of the profile are only passed. -/
theorem visits_enter (env : environment ι) {r : rack ι} (xs : List ι) {p : sync_profile}
    (hp : p.state ≠ line_state.flushing.toInt)
    (hxs : ∀ x ∈ xs, (r.units x).m_class ≠ .dispatch ∧
      (r.units x).m_unit_profile.state ≠ line_state.flushing.toInt) :
    ∃ q, (xs.map walk.Visit.enter).foldl (visit env) (p, r) = (q, r) ∧ q.state = p.state := by
  induction xs generalizing p with
  | nil => exact ⟨p, rfl, rfl⟩
  | cons x xs ih =>
    obtain ⟨hclass, hx⟩ := hxs x List.mem_cons_self
    have hstate : (entered (r.units x) p).state = p.state := by
      rw [entered_same_state hx hp, if_neg hclass]
    obtain ⟨q, hq, hqstate⟩ := ih (p := entered (r.units x) p) (hstate ▸ hp)
      fun y hy => hxs y (List.mem_cons_of_mem _ hy)
    exact ⟨q, hq, hqstate.trans hstate⟩

/-- Once the profile has the state, every unit that is left records it. -/
theorem visits_hand (env : environment ι) {r : rack ι} {state : Int} (es : List (walk.Visit ι))
    (hkeep : ∀ x, .enter x ∈ es → ∀ q : sync_profile, q.state = state →
      (entered (r.units x) q).state = state)
    {pass : Pass ι} (hframe : Frame env true false r pass.2) (hpass : pass.1.state = state) :
    (es.foldl (visit env) pass).1.state = state ∧
      ∀ x, .leave x ∈ es ∨ (pass.2.units x).m_global_profile.state = state →
        ((es.foldl (visit env) pass).2.units x).m_global_profile.state = state := by
  induction es generalizing pass with
  | nil =>
    refine ⟨hpass, fun x hx => ?_⟩
    exact hx.resolve_left List.not_mem_nil
  | cons e es ih =>
    have hframe' := hframe.trans (frame_visit env pass e)
    have hkeep' := fun x hx => hkeep x (List.mem_cons_of_mem e hx)
    rw [List.foldl_cons]
    cases e with
    | enter v =>
      have hstate : (entered (pass.2.units v) pass.1).state = state := by
        rw [entered_congr (hframe.same_class v) (hframe.registered rfl v)]
        exact hkeep v List.mem_cons_self _ hpass
      obtain ⟨h1, h2⟩ := ih hkeep' hframe' hstate
      refine ⟨h1, fun x hx => h2 x ?_⟩
      rcases hx with hx | hx
      · exact .inl (List.mem_of_ne_of_mem (by simp) hx)
      · exact .inr hx
    | leave v =>
      have hcall := (frame_resync env v sync_flags.glob_sync
        (pass.2.modify v (record_global pass.1))).recorded rfl
      obtain ⟨h1, h2⟩ := ih hkeep' hframe' hpass
      refine ⟨h1, fun x hx => h2 x ?_⟩
      by_cases hxv : x = v
      · right
        change ((unit.resync env v _ _).units x).m_global_profile.state = state
        rw [hcall, modify_units, if_pos hxv]
        exact hpass
      · rcases hx with hx | hx
        · left
          exact List.mem_of_ne_of_mem (fun h => hxv (walk.Visit.leave.inj h)) hx
        · right
          change ((unit.resync env v _ _).units x).m_global_profile.state = state
          rw [hcall, modify_units, if_neg hxv]
          exact hx

section global

variable {env : environment ι} {c : Daisychain ι} {d : desk.Desk ι} {on : ι → Bool} {r : rack ι}

omit [DecidableEq ι] in
/-- The only dispatch that the lines lead to is the one at their end. -/
theorem Daisychain.Wired.enter_tour {c : Daisychain ι} {r : rack ι} (h : c.Wired r) {x : ι}
    {lines : List ι} (hlines : ∀ u ∈ lines, u ∈ c.mainlines)
    (hx : .enter x ∈ walk.tour r.succ c.depth lines) :
    x = c.dispatch ∨ (r.units x).m_class ≠ .dispatch := by
  obtain ⟨u, hu, hx⟩ := List.mem_flatMap.mp hx
  have hvisits := visits_leads (h.leads (hlines u hu))
  rw [show walk.visits r.succ c.depth u = _ from hvisits] at hx
  simp only [List.map_append, List.map_cons, List.map_nil, List.mem_append, List.mem_cons,
    List.mem_map, walk.Visit.enter.injEq, reduceCtorEq, and_false, exists_false,
    List.not_mem_nil, or_false, exists_eq_right] at hx
  rcases hx with (rfl | rfl | hx) | rfl
  · exact .inr (by rw [h.mainline_class x (hlines x hu)]; decide)
  · exact .inr (by rw [h.combine_class]; decide)
  · exact .inr (by rw [h.step_class x hx]; decide)
  · exact .inl rfl

variable (env) in
/-- The tour of the lines hands the state of the dispatch to the combine, the
dispatch and the rack. -/
theorem LineState.tour (h : LineState c d on r) :
    let pass := (walk.tour r.succ c.depth c.mainlines).foldl (visit env) (r.m_global_profile, r)
    pass.1.state = lineInt d.settle.up ∧
      (pass.2.units c.combine).m_global_profile.state = lineInt d.settle.up ∧
      (pass.2.units c.dispatch).m_global_profile.state = lineInt d.settle.up := by
  intro pass
  obtain ⟨u, lines, hlines⟩ := List.exists_cons_of_ne_nil h.wired.some_line
  have hu : u ∈ c.mainlines := hlines ▸ List.mem_cons_self
  let es := (u :: c.combine :: c.steps ++ [c.dispatch]).reverse.map walk.Visit.leave ++
    walk.tour r.succ c.depth lines
  have htour : walk.tour r.succ c.depth c.mainlines =
      (u :: c.combine :: c.steps).map .enter ++ .enter c.dispatch :: es := by
    have hvisits := visits_leads (h.wired.leads hu)
    rw [hlines, walk.tour, List.flatMap_cons, show walk.visits r.succ c.depth u = _ from hvisits]
    simp [es, walk.tour]
  have hstart : r.m_global_profile.state ≠ line_state.flushing.toInt := by
    rw [h.rack_state]
    exact lineInt_no_flush _
  -- nothing changes the state before the walk comes to the dispatch
  obtain ⟨q, hq, hqstate⟩ := visits_enter env (u :: c.combine :: c.steps) hstart (by
    intro x hx
    refine ⟨?_, h.no_flush x⟩
    rcases List.mem_cons.mp hx with rfl | hx
    · rw [h.wired.mainline_class x hu]
      decide
    · rcases List.mem_cons.mp hx with rfl | hx
      · rw [h.wired.combine_class]
        decide
      · rw [h.wired.step_class x hx]
        decide)
  have hdispatch : (entered (r.units c.dispatch) q).state = lineInt d.settle.up := by
    rw [entered_same_state (h.no_flush _) (hqstate ▸ hstart), if_pos h.wired.dispatch_class]
    exact h.dispatch_line
  have hfirst : pass = es.foldl (visit env) (entered (r.units c.dispatch) q, r) := by
    change (walk.tour r.succ c.depth c.mainlines).foldl (visit env) (r.m_global_profile, r) = _
    rw [htour, List.foldl_append, hq]
    rfl
  have hkeep : ∀ x, .enter x ∈ es → ∀ p : sync_profile, p.state = lineInt d.settle.up →
      (entered (r.units x) p).state = lineInt d.settle.up := by
    intro x hx p hp
    have hclass : x = c.dispatch ∨ (r.units x).m_class ≠ .dispatch := by
      rcases List.mem_append.mp hx with hx | hx
      · obtain ⟨y, -, hy⟩ := List.mem_map.mp hx
        cases hy
      · exact h.wired.enter_tour (fun v hv => hlines ▸ List.mem_cons_of_mem _ hv) hx
    rw [entered_same_state (h.no_flush x) (hp ▸ lineInt_no_flush _)]
    rcases hclass with rfl | hclass
    · rw [if_pos h.wired.dispatch_class]
      exact h.dispatch_line
    · rw [if_neg hclass, hp]
  have hsame : Frame env true false r ((entered (r.units c.dispatch) q, r) : Pass ι).2 :=
    Frame.refl _ _ _ r
  obtain ⟨h1, h2⟩ := visits_hand env es hkeep hsame hdispatch
  rw [hfirst]
  refine ⟨h1, h2 _ (.inl ?_), h2 _ (.inl ?_)⟩
  · simp [es]
  · simp [es]

/-- A global sync settles the rack as the desk. -/
theorem LineState.glob (h : LineState c d on r) (hcalm : env.calm) :
    ∃ r', backend.sync env c.depth sync_flags.glob_sync r = some r' ∧
      LineState c d.settle on r' := by
  obtain ⟨r', hr'⟩ := (sync_ends env sync_flags.glob_sync).mpr h.wired.within
  refine ⟨r', hr', ?_⟩
  obtain ⟨h1, h2, h3⟩ := h.tour env
  obtain ⟨r1, hunits, hprofile, hmain, -, hcycle⟩ := sync_glob hr'
  rw [h.wired.mainlines] at hunits hprofile hmain
  have hframe := frame_visits env (walk.tour r.succ c.depth c.mainlines) (r.m_global_profile, r)
  generalize (walk.tour r.succ c.depth c.mainlines).foldl (visit env) (r.m_global_profile, r) = pass
    at h1 h2 h3 hunits hprofile hmain hframe
  refine LineState.frame hcalm hcycle (r := r1) ⟨?_, ?_, ?_, ?_, ?_, ?_, ?_, ?_, ?_⟩
  · apply h.wired.congr (hmain.trans hframe.mainlines)
    · intro x
      rw [hunits]
      exact ⟨hframe.outputs x, hframe.same_class x, hframe.mounted x⟩
    · rw [hunits, hframe.inputs rfl]
  · intro x hx
    rw [hunits]
    exact (calm_frame hcalm hframe h.wired.mounted).1 x (h.unmarked x hx)
  · intro x
    rw [hunits, hframe.registered rfl]
    exact h.no_flush x
  · intro u hu
    rw [hunits, hframe.registered rfl]
    exact h.lines u hu
  · rw [hprofile]
    exact h1
  · rw [hunits]
    exact h2
  · rw [hunits]
    exact h3
  · rw [hunits, hframe.registered rfl, h.dispatch_line]
    simp [desk.Desk.settle]
  · intro i
    rw [hunits, hframe.inputs rfl]
    exact h.inputs i

/-- A pass over the lines is a round of the desk. -/
theorem LineState.pass (h : LineState c d on r) (hcalm : env.calm) (hfresh : d.turned = false)
    (hflags : r.m_resync_flags = sync_flags.upstream) (hresync : r.m_resync = true) :
    ∃ r', rack.sync_pass env c.depth r = some r' ∧ LineState c (d.round c.mainlines on) on r' ∧
      r'.m_resync_flags = 0 := by
  obtain ⟨r1, h1, h2, h3⟩ := h.upstream hcalm hfresh hflags
  have hsync : ∃ r2, backend.sync env c.depth r1.m_resync_flags r1 = some r2 ∧
      LineState c (d.round c.mainlines on) on r2 := by
    cases hturned : (c.mainlines.foldl (desk.Desk.hear c.mainlines on) d).turned with
    | true =>
      rw [h3, hturned]
      exact h2.glob hcalm
    | false =>
      have hsettled : d.round c.mainlines on =
          c.mainlines.foldl (desk.Desk.hear c.mainlines on) d := by
        unfold desk.Desk.round desk.Desk.settle
        rw [hturned, Bool.xor_false, ← hturned]
      obtain ⟨s, hs⟩ := (cycle_ends env).mpr h2.wired.within
      refine ⟨s.2, ?_, hsettled ▸ h2.frame hcalm (frame_cycle hs)⟩
      rw [h3, hturned]
      change (backend.cycle env c.depth .sync r1).bind (fun s => some s.2) = some s.2
      rw [hs]
      rfl
  obtain ⟨r2, h4, h5⟩ := hsync
  let r3 := { r2 with m_resync_flags := 0, m_resync := false }
  refine ⟨r3, ?_, LineState.of_units r2 r3 rfl rfl rfl h5, rfl⟩
  have hnonzero : r.m_resync_flags ≠ 0 := by
    rw [hflags]
    decide
  unfold rack.sync_pass
  rw [if_pos hresync, if_pos hnonzero, h1]
  change (backend.sync env c.depth r1.m_resync_flags r1).bind _ = _
  rw [h4]
  rfl

end global

/-! ## The turns -/

/-- What happens before a pass: mainlines change their states, and some of
them ask for an upstream sync themselves. -/
structure Turn (ι : Type) where
  changes : List (ι × Bool)
  asks : List ι

def rack.change (r : rack ι) (change : ι × Bool) : rack ι :=
  r.modify change.1 (unit.register_metric .state (lineInt change.2))

/-- The changes, the requests, and a request for an upstream sync in any case. -/
def rack.turn (r : rack ι) (t : Turn ι) : rack ι :=
  (t.asks.foldl (fun r u => unit.trigger_sync u sync_flags.upstream r)
    (t.changes.foldl rack.change r)).trigger_sync sync_flags.upstream

/-- All is inactive and globally synced, and nothing has been asked for. -/
structure Daisychain.Fresh (c : Daisychain ι) (r : rack ι) : Prop where
  wired : c.Wired r
  unmarked : ∀ x ∈ c.steps, (r.units x).m_upstream = false
  registered : ∀ x, (r.units x).m_unit_profile.state = line_state.inactive.toInt
  recorded : ∀ x, (r.units x).m_global_profile.state = line_state.inactive.toInt
  rack_state : r.m_global_profile.state = line_state.inactive.toInt
  inputs : ∀ b ∈ (r.units c.combine).m_input_state, b = false
  flags : r.m_resync_flags = 0

/-- The turns of the mainlines, each with the sync pass that follows. -/
def line_turns (env : environment ι) (c : Daisychain ι) : transition.System (rack ι) (Turn ι) where
  start := c.Fresh
  step r t r' := (∀ change ∈ t.changes, change.1 ∈ c.mainlines) ∧ (∀ u ∈ t.asks, u ∈ c.mainlines) ∧
    rack.sync_pass env c.depth (r.turn t) = some r'

omit [DecidableEq ι] in
theorem Daisychain.Fresh.lineState {c : Daisychain ι} {r : rack ι} (h : c.Fresh r) :
    LineState c ⟨false, fun _ => false, false⟩ (fun _ => false) r := by
  refine ⟨h.wired, h.unmarked, ?_, fun u _ => h.registered u, h.rack_state, h.recorded _,
    h.recorded _, h.registered _, ?_⟩
  · intro x
    rw [h.registered x]
    decide
  · intro i
    constructor
    · intro hi
      exact absurd (h.inputs true (List.mem_of_getElem? hi)) (by decide)
    · rintro ⟨u, -, -, hu⟩
      cases hu

section turns

variable {env : environment ι} {c : Daisychain ι} {d : desk.Desk ι} {on : ι → Bool} {r : rack ι}

/-- A mainline changes its state. -/
theorem LineState.change (h : LineState c d on r) {change : ι × Bool}
    (hu : change.1 ∈ c.mainlines) :
    LineState c d (Function.update on change.1 change.2) (r.change change) := by
  obtain ⟨hmain, -⟩ := h.wired.apart
  obtain ⟨hcombine, hsteps, hdispatch⟩ := hmain _ hu
  have hin := modify_field (·.m_input_state)
    (f := unit.register_metric .state (lineInt change.2)) (fun _ => rfl) r change.1 c.combine
  apply h.modify change.1
  · exact fun _ => ⟨rfl, rfl, rfl, rfl⟩
  · exact fun hs => absurd hs hsteps
  · exact lineInt_no_flush change.2
  · rfl
  · intro v hv
    rw [modify_units]
    by_cases hvu : v = change.1
    · rw [if_pos hvu, hvu, Function.update_self]
      rfl
    · rw [if_neg hvu, Function.update_of_ne hvu]
      exact h.lines v hv
  · rw [modify_units, if_neg hdispatch.symm]
    exact h.dispatch_line
  · rw [hin]
  · rw [hin]
    exact h.inputs

/-- A mainline marks itself and asks for an upstream sync. -/
theorem LineState.ask (h : LineState c d on r) {u : ι} (hu : u ∈ c.mainlines) :
    LineState c d on (unit.trigger_sync u sync_flags.upstream r) ∧
      (unit.trigger_sync u sync_flags.upstream r).m_resync_flags =
        r.m_resync_flags ||| sync_flags.upstream := by
  obtain ⟨hmain, -⟩ := h.wired.apart
  obtain ⟨-, hsteps, -⟩ := hmain _ hu
  have hin := modify_field (·.m_input_state) (f := unit.set_upstream true) (fun _ => rfl) r u
    c.combine
  have hregistered := modify_field (·.m_unit_profile) (f := unit.set_upstream true)
    (fun _ => rfl) r u
  have hmarked : LineState c d on (r.modify u (unit.set_upstream true)) := by
    apply h.modify u
    · exact fun _ => ⟨rfl, rfl, rfl, rfl⟩
    · exact fun hs => absurd hs hsteps
    · exact h.no_flush u
    · rfl
    · intro v hv
      rw [hregistered]
      exact h.lines v hv
    · rw [hregistered]
      exact h.dispatch_line
    · rw [hin]
    · rw [hin]
      exact h.inputs
  unfold unit.trigger_sync
  rw [if_pos has_upstream_self]
  simp only
  rw [if_pos (hmarked.wired.mounted u)]
  exact ⟨LineState.of_units (r.modify u (unit.set_upstream true)) _ rfl rfl rfl hmarked, rfl⟩

theorem LineState.changes (h : LineState c d on r) {changes : List (ι × Bool)}
    (hin : ∀ change ∈ changes, change.1 ∈ c.mainlines) :
    (∃ on', LineState c d on' (changes.foldl rack.change r)) ∧
      (changes.foldl rack.change r).m_resync_flags = r.m_resync_flags := by
  induction changes generalizing r on with
  | nil => exact ⟨⟨on, h⟩, rfl⟩
  | cons change changes ih =>
    exact ih (h.change (hin change List.mem_cons_self))
      fun c hc => hin c (List.mem_cons_of_mem _ hc)

theorem LineState.asks (h : LineState c d on r) {asks : List ι}
    (hin : ∀ u ∈ asks, u ∈ c.mainlines) {flags : sync_flag}
    (hflags : r.m_resync_flags ||| sync_flags.upstream = flags) :
    LineState c d on (asks.foldl (fun r u => unit.trigger_sync u sync_flags.upstream r) r) ∧
      (asks.foldl (fun r u => unit.trigger_sync u sync_flags.upstream r) r).m_resync_flags |||
        sync_flags.upstream = flags := by
  induction asks generalizing r with
  | nil => exact ⟨h, hflags⟩
  | cons u asks ih =>
    obtain ⟨h1, h2⟩ := h.ask (hin u List.mem_cons_self)
    apply ih h1 fun v hv => hin v (List.mem_cons_of_mem _ hv)
    rw [h2, BitVec.or_assoc, BitVec.or_self, hflags]

/-- A turn leaves the desk, and asks for an upstream sync and nothing else. -/
theorem LineState.turn (h : LineState c d on r) (hflags : r.m_resync_flags = 0) {t : Turn ι}
    (hchanges : ∀ change ∈ t.changes, change.1 ∈ c.mainlines)
    (hasks : ∀ u ∈ t.asks, u ∈ c.mainlines) :
    (∃ on', LineState c d on' (r.turn t)) ∧
      (r.turn t).m_resync_flags = sync_flags.upstream := by
  obtain ⟨⟨on', h1⟩, h2⟩ := h.changes hchanges
  have hup : (t.changes.foldl rack.change r).m_resync_flags ||| sync_flags.upstream =
      sync_flags.upstream := by
    rw [h2, hflags]
    decide
  obtain ⟨h3, h4⟩ := h1.asks hasks hup
  let asked := t.asks.foldl (fun r u => unit.trigger_sync u sync_flags.upstream r)
    (t.changes.foldl rack.change r)
  exact ⟨⟨on', LineState.of_units asked (r.turn t) rfl rfl rfl h3⟩, h4⟩

end turns

/-! ## The law -/

/-- The rack is active exactly when a mainline is. -/
def follows_lines (r : rack ι) : Prop :=
  r.m_global_profile.state = line_state.active.toInt ↔
    ∃ u ∈ r.m_raw_mainlines, (r.units u).m_unit_profile.state = line_state.active.toInt

def is_active (r : rack ι) (u : ι) : Bool :=
  (r.units u).m_unit_profile.state = line_state.active.toInt

/-- The turn hands over: lines were active and lines are active now, but each
that was comes before each that is, in the order of the mainlines. -/
def hands_over (r : rack ι) (t : Turn ι) : Prop :=
  desk.HandsOver r.m_raw_mainlines (is_active r) (is_active (r.turn t))

/-- Between passes the rack stands where a desk stands that has heard of all lines. -/
def AtRest (c : Daisychain ι) (r : rack ι) : Prop :=
  ∃ d on, LineState c d on r ∧ d.turned = false ∧ (∀ u ∈ c.mainlines, d.heard u = on u) ∧
    r.m_resync_flags = 0

omit [DecidableEq ι] in
theorem LineState.is_active {c : Daisychain ι} {d : desk.Desk ι} {on : ι → Bool} {r : rack ι}
    (h : LineState c d on r) {u : ι} (hu : u ∈ c.mainlines) : is_active r u = on u := by
  unfold component.is_active
  rw [h.lines u hu]
  cases on u <;> decide

omit [DecidableEq ι] in
theorem LineState.follows {c : Daisychain ι} {d : desk.Desk ι} {on : ι → Bool} {r : rack ι}
    (h : LineState c d on r) (hheard : ∀ u ∈ c.mainlines, d.heard u = on u) :
    follows_lines r ↔ d.follows c.mainlines := by
  have hactive : ∀ b, lineInt b = line_state.active.toInt ↔ b = true := by
    intro b
    cases b <;> decide
  unfold follows_lines desk.Desk.follows
  rw [h.rack_state, hactive, h.wired.mainlines]
  apply iff_congr Iff.rfl
  apply exists_congr
  intro u
  apply and_congr_right
  intro hu
  rw [h.lines u hu, hactive, hheard u hu]

omit [DecidableEq ι] in
theorem handsOver_congr {lines : List ι} {before before' now now' : ι → Bool}
    (hbefore : ∀ u ∈ lines, before u = before' u) (hnow : ∀ u ∈ lines, now u = now' u) :
    desk.HandsOver lines before now ↔ desk.HandsOver lines before' now' := by
  unfold desk.HandsOver
  refine and_congr ?_ (and_congr ?_ (and_congr ?_ ?_))
  · exact exists_congr fun u => and_congr_right fun hu => by rw [hbefore u hu]
  · exact exists_congr fun u => and_congr_right fun hu => by rw [hnow u hu]
  · exact forall₂_congr fun u hu => by rw [hbefore u hu, hnow u hu]
  · apply List.Pairwise.iff_of_mem
    intro u v hu hv
    rw [hbefore v hv, hnow u hu]

/-- A turn with its pass ends, and the rack follows its lines just when nothing is handed over. -/
theorem turn_step {env : environment ι} (hcalm : env.calm) {c : Daisychain ι} {r : rack ι}
    {t : Turn ι} (h : AtRest c r) (hfollows : follows_lines r)
    (hchanges : ∀ change ∈ t.changes, change.1 ∈ c.mainlines)
    (hasks : ∀ u ∈ t.asks, u ∈ c.mainlines) :
    ∃ r', rack.sync_pass env c.depth (r.turn t) = some r' ∧ AtRest c r' ∧
      (follows_lines r' ↔ ¬ hands_over r t) := by
  obtain ⟨d, on, h1, hfresh, hheard, hflags⟩ := h
  obtain ⟨⟨on', h2⟩, hup⟩ := h1.turn hflags hchanges hasks
  obtain ⟨r', h3, h4, h5⟩ := h2.pass hcalm hfresh hup rfl
  obtain ⟨-, -, -, -, hnodup⟩ := h1.wired.apart
  obtain ⟨hnow, hround⟩ := desk.round_follows on' h1.wired.some_line hnodup hfresh
    ((h1.follows hheard).mp hfollows)
  refine ⟨r', h3, ⟨_, on', h4, rfl, hnow, h5⟩, ?_⟩
  rw [h4.follows hnow, hround]
  apply not_congr
  unfold hands_over
  rw [h1.wired.mainlines]
  apply handsOver_congr
  · intro u hu
    rw [h1.is_active hu, hheard u hu]
  · intro u hu
    rw [h2.is_active hu]

/-- Every turn of the lines has a pass that ends, and the runs in which the
rack follows its lines after each pass are those in which no turn hands over. -/
theorem the_rack_follows_its_lines (env : environment ι) (hcalm : env.calm) (c : Daisychain ι)
    (r0 : rack ι) (h0 : c.Fresh r0) :
    (∀ ts r, transition.Run ((line_turns env c).within follows_lines) r0 ts r → ∀ t : Turn ι,
      (∀ change ∈ t.changes, change.1 ∈ c.mainlines) → (∀ u ∈ t.asks, u ∈ c.mainlines) →
      ∃ r', (line_turns env c).step r t r') ∧
    ∀ ts r, transition.Run ((line_turns env c).within follows_lines) r0 ts r ↔
      transition.Run ((line_turns env c).guarded fun r t => ¬ hands_over r t) r0 ts r := by
  have hstart : AtRest c r0 :=
    ⟨_, _, h0.lineState, rfl, fun _ _ => rfl, h0.flags⟩
  have hfollows : follows_lines r0 := by
    rw [h0.lineState.follows fun _ _ => rfl]
    simp [desk.Desk.follows]
  have hstep : ∀ (r : rack ι) (t : Turn ι) (r' : rack ι), AtRest c r → follows_lines r →
      (line_turns env c).step r t r' → AtRest c r' ∧ (follows_lines r' ↔ ¬ hands_over r t) := by
    rintro r t r' hr hf ⟨hchanges, hasks, hpass⟩
    obtain ⟨r'', h1, h2, h3⟩ := turn_step hcalm hr hf hchanges hasks
    cases hpass.symm.trans h1
    exact ⟨h2, h3⟩
  constructor
  · intro ts r hrun t hchanges hasks
    have hboth : AtRest c r ∧ follows_lines r := by
      refine hrun.keeps (P := fun r => AtRest c r ∧ follows_lines r) ?_ ⟨hstart, hfollows⟩
      rintro s t s' ⟨hs, hf⟩ ⟨hstep', hf'⟩
      exact ⟨(hstep s t s' hs hf hstep').1, hf'⟩
    obtain ⟨r', h1, -⟩ := turn_step hcalm hboth.1 hboth.2 hchanges hasks
    exact ⟨r', hchanges, hasks, h1⟩
  · intro ts r
    exact transition.run_within_iff hstep hstart hfollows

/-- Two mainlines, the first of which feeds the first input of the combine. -/
def two_mainlines : Daisychain (Fin 5) where
  mainlines := [0, 1]
  combine := 2
  steps := [3]
  dispatch := 4
  line u := u

def two_mainlines_rack : rack (Fin 5) :=
  rack.new
    (fun u => match u with
      | 0 => { m_class := .mainline, m_outputs := [⟨some (2, 0), true⟩] }
      | 1 => { m_class := .mainline, m_outputs := [⟨some (2, 1), true⟩] }
      | 2 => { m_class := .combine, m_outputs := [⟨some (3, 0), true⟩],
               m_input_state := [false, false] }
      | 3 => { m_outputs := [⟨some (4, 0), true⟩] }
      | 4 => { m_class := .dispatch })
    [0, 1]

theorem two_mainlines_fresh : two_mainlines.Fresh two_mainlines_rack := by
  refine ⟨⟨rfl, by decide, by decide, by decide, by decide, by decide, by decide, by decide, rfl,
    by decide, rfl, ⟨⟨0, by decide⟩, ⟨0, by decide⟩, rfl⟩⟩, by decide, by decide, by decide,
    rfl, by decide, rfl⟩

/-- The first mainline turns on: the rack follows. -/
theorem two_mainlines_follow_one :
    ∃ r, transition.Run ((line_turns .quiet two_mainlines).within follows_lines) two_mainlines_rack
      [⟨[(0, true)], [0]⟩] r := by
  have hcalm : (environment.quiet : environment (Fin 5)).calm := by
    rintro u flags ⟨given, r, hask⟩
    cases hask
  obtain ⟨hends, hruns⟩ :=
    the_rack_follows_its_lines .quiet hcalm two_mainlines two_mainlines_rack two_mainlines_fresh
  obtain ⟨r, hr⟩ := hends [] _ (.nil _) ⟨[(0, true)], [0]⟩ (by decide) (by decide)
  refine ⟨r, (hruns _ r).mpr (.snoc (.nil _) ⟨?_, hr⟩)⟩
  rintro ⟨⟨u, hu, hactive⟩, -⟩
  revert u
  decide

/-- The first mainline turns on. Then it turns off in the same pass in which
the second one turns on, and the rack goes down with that one active. -/
theorem a_handover_deactivates_the_rack :
    two_mainlines.Fresh two_mainlines_rack ∧
    ∃ r, transition.Run (line_turns .quiet two_mainlines) two_mainlines_rack
      [⟨[(0, true)], [0]⟩, ⟨[(0, false), (1, true)], [0, 1]⟩] r ∧ ¬ follows_lines r := by
  refine ⟨two_mainlines_fresh, ?_⟩
  let on : Turn (Fin 5) := ⟨[(0, true)], [0]⟩
  let swap : Turn (Fin 5) := ⟨[(0, false), (1, true)], [0, 1]⟩
  have hstates : ((rack.sync_pass .quiet 4 (two_mainlines_rack.turn on)).bind fun r1 =>
      rack.sync_pass .quiet 4 (r1.turn swap)).map
      (fun r => (r.m_global_profile.state, (r.units 1).m_unit_profile.state, r.m_raw_mainlines)) =
      some (0, 1, [0, 1]) := by decide +kernel
  obtain ⟨r, hr, hr'⟩ := Option.map_eq_some_iff.mp hstates
  obtain ⟨r1, h1, h2⟩ := Option.bind_eq_some_iff.mp hr
  obtain ⟨hrack, hlast⟩ := Prod.mk.inj hr'
  obtain ⟨hline, hmain⟩ := Prod.mk.inj hlast
  have hon : (line_turns .quiet two_mainlines).step two_mainlines_rack on r1 :=
    ⟨by decide, by decide, h1⟩
  have hswap : (line_turns .quiet two_mainlines).step r1 swap r := ⟨by decide, by decide, h2⟩
  refine ⟨r, ((transition.Run.nil _).snoc hon).snoc hswap, ?_⟩
  intro hfollows
  have hactive := hfollows.mpr ⟨1, by rw [hmain]; decide, hline⟩
  rw [hrack] at hactive
  revert hactive
  decide

end strangeio.component
