-- The state of a rack of lines: mainlines that feed one combine, with plain
-- units and a dispatch behind it (spec/). An upstream sync tells the combine
-- of each line in turn; what the dispatch makes of it, a global sync hands on.
import StrangeIO.Desk
import StrangeIO.GlobalSync
import StrangeIO.Transition

namespace strangeio.component

variable {ι : Type}

/-- The units of such a rack, and the input of the combine that each mainline feeds. -/
structure Daisychain (ι : Type) where
  mainlines : List ι
  combine : ι
  steps : List ι
  dispatch : ι
  line : ι → Nat

/-- Each unit feeds the next one, and the dispatch feeds none. -/
def leads (r : rack ι) (dispatch : ι) : List ι → Prop
  | [] => (r.units dispatch).links = []
  | x :: steps =>
    (∃ id, (r.units x).links = [(steps.headD dispatch, id)]) ∧ leads r dispatch steps

structure Daisychain.Wired (c : Daisychain ι) (r : rack ι) : Prop where
  mainlines : r.m_raw_mainlines = c.mainlines
  some_line : c.mainlines ≠ []
  distinct : (c.mainlines ++ c.combine :: (c.steps ++ [c.dispatch])).Nodup
  mounted : ∀ x, (r.units x).m_rack = true
  mainline_class : ∀ u ∈ c.mainlines, (r.units u).m_class = .mainline
  mainline_links : ∀ u ∈ c.mainlines, (r.units u).links = [(c.combine, c.line u)]
  own_input : ∀ u ∈ c.mainlines, ∀ v ∈ c.mainlines, c.line u = c.line v → u = v
  input_exists : ∀ u ∈ c.mainlines, c.line u < (r.units c.combine).m_input_state.length
  combine_class : (r.units c.combine).m_class = .combine
  step_class : ∀ x ∈ c.steps, (r.units x).m_class = .unit
  dispatch_class : (r.units c.dispatch).m_class = .dispatch
  tail : leads r c.dispatch (c.combine :: c.steps)

def Daisychain.depth (c : Daisychain ι) : Nat := c.steps.length + 3

def lineInt (on : Bool) : Int :=
  if on then line_state.active.toInt else line_state.inactive.toInt

theorem lineInt_inj {a b : Bool} : lineInt a = lineInt b ↔ a = b := by
  cases a <;> cases b <;> decide

theorem lineInt_no_flush (on : Bool) : lineInt on ≠ line_state.flushing.toInt := by
  cases on <;> decide

/-- The rack is where the desk is. Each mainline is registered as `on` says. -/
structure LineState (c : Daisychain ι) (d : desk.Desk ι) (on : ι → Bool) (r : rack ι) : Prop where
  wired : c.Wired r
  unmarked : ∀ x ∈ c.steps, (r.units x).m_upstream = false
  no_flush : ∀ x, (r.units x).m_unit_profile.state ≠ line_state.flushing.toInt
  lines : ∀ u ∈ c.mainlines, (r.units u).m_unit_profile.state = lineInt (on u)
  rack_state : r.m_global_profile.state = lineInt d.up
  combine_state : (r.units c.combine).m_global_profile.state = lineInt d.up
  dispatch_state : (r.units c.dispatch).m_global_profile.state = lineInt d.up
  dispatch_line : (r.units c.dispatch).m_unit_profile.state = lineInt (d.up ^^ d.turned)
  inputs : ∀ i, (r.units c.combine).m_input_state[i]? = some true ↔
    ∃ u ∈ c.mainlines, c.line u = i ∧ d.heard u = true

/-- No unit asks for a sync when it resyncs. -/
def environment.calm (env : environment ι) : Prop := ∀ u flags, ¬ env.may_ask u flags

/-! ## What keeps the rack wired -/

theorem leads_congr {r r' : rack ι} {d : ι} {steps : List ι}
    (hlinks : ∀ x, (r'.units x).links = (r.units x).links) (h : leads r d steps) :
    leads r' d steps := by
  induction steps with
  | nil => exact (hlinks d).trans h
  | cons x steps ih =>
    obtain ⟨⟨id, hid⟩, hrest⟩ := h
    exact ⟨⟨id, (hlinks x).trans hid⟩, ih hrest⟩

theorem links_congr {x y : unit ι} (h : x.m_outputs = y.m_outputs) : x.links = y.links := by
  unfold unit.links
  rw [h]

/-- Wires are links, classes and mounts, and the number of inputs. -/
theorem Daisychain.Wired.congr {c : Daisychain ι} {r r' : rack ι} (h : c.Wired r)
    (hmain : r'.m_raw_mainlines = r.m_raw_mainlines)
    (hunits : ∀ x, (r'.units x).m_outputs = (r.units x).m_outputs ∧
      (r'.units x).m_class = (r.units x).m_class ∧ (r'.units x).m_rack = (r.units x).m_rack)
    (hinputs : (r'.units c.combine).m_input_state.length =
      (r.units c.combine).m_input_state.length) : c.Wired r' where
  mainlines := hmain.trans h.mainlines
  some_line := h.some_line
  distinct := h.distinct
  mounted x := (hunits x).2.2.trans (h.mounted x)
  mainline_class u hu := (hunits u).2.1.trans (h.mainline_class u hu)
  mainline_links u hu := (links_congr (hunits u).1).trans (h.mainline_links u hu)
  own_input := h.own_input
  input_exists u hu := hinputs ▸ h.input_exists u hu
  combine_class := (hunits c.combine).2.1.trans h.combine_class
  step_class x hx := (hunits x).2.1.trans (h.step_class x hx)
  dispatch_class := (hunits c.dispatch).2.1.trans h.dispatch_class
  tail := leads_congr (fun x => links_congr (hunits x).1) h.tail

/-- Among calm units nothing but a dispatch asks for syncs, and no unit is marked. -/
theorem calm_frame {env : environment ι} {glob up : Bool} {r r' : rack ι} (hcalm : env.calm)
    (h : Frame env glob up r r') (hmounted : ∀ x, (r.units x).m_rack = true) :
    (∀ x, (r.units x).m_upstream = false → (r'.units x).m_upstream = false) ∧
      (up = false → r'.m_resync_flags = r.m_resync_flags) := by
  obtain ⟨asks, -, hflags, hallowed, hraised⟩ := h.requested
  constructor
  · intro x hx
    rw [← Bool.not_eq_true] at hx ⊢
    intro hx'
    rcases hraised x (hmounted x) hx' with hx' | ⟨flags, hmem, hup⟩
    · exact hx hx'
    · rcases hallowed _ hmem with hask | ⟨-, -, hglob⟩
      · exact hcalm _ _ hask
      · simp only at hglob
        rw [hglob] at hup
        exact absurd hup (by decide)
  · intro hup
    have hnone : asks = [] := by
      rw [List.eq_nil_iff_forall_not_mem]
      intro ask hmem
      rcases hallowed ask hmem with hask | ⟨hup', -⟩
      · exact hcalm _ _ hask
      · rw [hup] at hup'
        cases hup'
    rw [hflags, hnone]
    rfl

theorem LineState.frame {env : environment ι} {c : Daisychain ι} {d : desk.Desk ι} {on : ι → Bool}
    {r r' : rack ι} (hcalm : env.calm) (hf : Frame env false false r r') (h : LineState c d on r) :
    LineState c d on r' where
  wired := h.wired.congr hf.mainlines
    (fun x => ⟨hf.outputs x, hf.same_class x, hf.mounted x⟩) (by rw [hf.inputs rfl])
  unmarked x hx := (calm_frame hcalm hf h.wired.mounted).1 x (h.unmarked x hx)
  no_flush x := by rw [hf.registered rfl]; exact h.no_flush x
  lines u hu := by rw [hf.registered rfl]; exact h.lines u hu
  rack_state := by rw [hf.rack_profile]; exact h.rack_state
  combine_state := by rw [hf.recorded rfl]; exact h.combine_state
  dispatch_state := by rw [hf.recorded rfl]; exact h.dispatch_state
  dispatch_line := by rw [hf.registered rfl]; exact h.dispatch_line
  inputs i := by rw [hf.inputs rfl]; exact h.inputs i

/-- A change that neither the units nor the profile of the rack see. -/
theorem LineState.of_units {c : Daisychain ι} {d : desk.Desk ι} {on : ι → Bool} (r r' : rack ι)
    (hunits : r'.units = r.units) (hmain : r'.m_raw_mainlines = r.m_raw_mainlines)
    (hprofile : r'.m_global_profile = r.m_global_profile) (h : LineState c d on r) :
    LineState c d on r' := by
  obtain ⟨h1, h2, h3, h4, h5, h6, h7, h8, h9⟩ := h
  refine ⟨h1.congr hmain (fun x => by rw [hunits]; exact ⟨rfl, rfl, rfl⟩) (by rw [hunits]),
    ?_, ?_, ?_, ?_, ?_, ?_, ?_, ?_⟩
  · rw [hunits]
    exact h2
  · rw [hunits]
    exact h3
  · rw [hunits]
    exact h4
  · rw [hprofile]
    exact h5
  · rw [hunits]
    exact h6
  · rw [hunits]
    exact h7
  · rw [hunits]
    exact h8
  · rw [hunits]
    exact h9

variable [DecidableEq ι]

/-! ## The units behind the combine -/

/-- The steps and the dispatch heard the state of the line. -/
structure Told (steps : List ι) (d : ι) (state : Int) (r r' : rack ι) : Prop where
  others : ∀ x, x ∉ steps → x ≠ d → r'.units x = r.units x
  registers : ∀ x, x ∈ steps ∨ x = d → ∃ state', r'.units x =
    unit.register_metric .state state' (r.units x) ∧
      (state' = state ∨ state' = (r.units x).m_unit_profile.state)
  dispatch : (r'.units d).m_unit_profile.state =
    if state = (r.units d).m_global_profile.state then (r.units d).m_unit_profile.state else state
  mainlines : r'.m_raw_mainlines = r.m_raw_mainlines
  profile : r'.m_global_profile = r.m_global_profile
  flags : r'.m_resync_flags =
    if state = (r.units d).m_global_profile.state then r.m_resync_flags
    else r.m_resync_flags ||| sync_flags.glob_sync

theorem has_upstream_self : sync_flag.has sync_flags.upstream sync_flags.upstream = true := by
  decide

theorem has_upstream_glob : ¬ sync_flag.has sync_flags.upstream sync_flags.glob_sync = true := by
  decide

/-- The dispatch hears a state: another one than its own makes it ask for a global sync. -/
theorem dispatch_told (env : environment ι) {k : Nat} {d : ι} {p : sync_profile} {line : Nat}
    {r : rack ι} (hclass : (r.units d).m_class = .dispatch) (hmounted : (r.units d).m_rack = true) :
    ∃ r', sync_line env (k + 1) d p sync_flags.upstream line r = some (p, r') ∧
      Told [] d p.state r r' := by
  unfold sync_line dispatch_sync_line
  rw [hclass]
  unfold dispatch.sync_line
  simp only
  rw [if_pos has_upstream_self]
  by_cases hsame : p.state = (r.units d).m_global_profile.state
  · rw [if_pos hsame]
    refine ⟨r, rfl, fun _ _ _ => rfl, fun x _ => ⟨_, rfl, .inr rfl⟩, ?_, rfl, rfl, ?_⟩
    · rw [if_pos hsame]
    · rw [if_pos hsame]
  · rw [if_neg hsame]
    have hsync : ∀ r : rack ι, (r.units d).m_rack = true →
        unit.trigger_sync d sync_flags.glob_sync r =
          { r.trigger_sync sync_flags.glob_sync with
            asked := r.asked ++ [(d, sync_flags.glob_sync)] } := by
      intro r hr
      have hnot : ¬ sync_flag.has sync_flags.glob_sync sync_flags.upstream = true := by decide
      unfold unit.trigger_sync
      rw [if_neg hnot]
      simp only
      rw [if_pos hr]
    have hreg : ((r.modify d (unit.register_metric .state p.state)).units d).m_rack = true := by
      rw [modify_units, if_pos rfl]
      exact hmounted
    rw [hsync _ hreg]
    have htold : ∀ r' : rack ι,
        r'.units = (r.modify d (unit.register_metric .state p.state)).units →
        r'.m_raw_mainlines = r.m_raw_mainlines → r'.m_global_profile = r.m_global_profile →
        r'.m_resync_flags = r.m_resync_flags ||| sync_flags.glob_sync → Told [] d p.state r r' := by
      intro r' hunits hmain hprofile hflags
      refine ⟨?_, ?_, ?_, hmain, hprofile, ?_⟩
      · intro x _ hx
        rw [hunits, modify_units, if_neg hx]
      · rintro x (hx | rfl)
        · exact absurd hx List.not_mem_nil
        · exact ⟨p.state, by rw [hunits, modify_units, if_pos rfl], .inl rfl⟩
      · rw [hunits, modify_units, if_pos rfl, if_neg hsame]
        rfl
      · rw [if_neg hsame]
        exact hflags
    split
    · exact ⟨_, rfl, htold _ rfl rfl rfl rfl⟩
    · exact ⟨_, rfl, htold _ rfl rfl rfl rfl⟩

/-- A state that comes in behind the combine goes down to the dispatch. -/
theorem steps_told (env : environment ι) {steps : List ι} {d : ι} {k : Nat} {p : sync_profile}
    (line : Nat) {r : rack ι} (hk : steps.length + 1 ≤ k) (hleads : leads r d steps)
    (hsteps : ∀ x ∈ steps, (r.units x).m_class = .unit ∧ (r.units x).m_upstream = false)
    (hclass : (r.units d).m_class = .dispatch) (hmounted : (r.units d).m_rack = true)
    (hnodup : (steps ++ [d]).Nodup) :
    ∃ r', sync_line env k (steps.headD d) p sync_flags.upstream line r = some (p, r') ∧
      Told steps d p.state r r' := by
  induction steps generalizing k line r with
  | nil =>
    obtain ⟨k, rfl⟩ : ∃ k', k = k' + 1 := ⟨k - 1, by omega⟩
    exact dispatch_told env hclass hmounted
  | cons x steps ih =>
    obtain ⟨k, rfl⟩ : ∃ k', k = k' + 1 := ⟨k - 1, by omega⟩
    obtain ⟨⟨id, hid⟩, hrest⟩ := hleads
    obtain ⟨hx, hnodup⟩ := List.nodup_cons.mp hnodup
    obtain ⟨hxsteps, hxd⟩ : x ∉ steps ∧ x ≠ d := by
      simpa [not_or] using hx
    let r1 := r.modify x (unit.register_metric .state p.state)
    have hother : ∀ y, y ≠ x → r1.units y = r.units y := by
      intro y hy
      rw [modify_units, if_neg hy]
    have hself : r1.units x = unit.register_metric .state p.state (r.units x) := by
      rw [modify_units, if_pos rfl]
    have hlinks : ∀ y, (r1.units y).links = (r.units y).links := by
      intro y
      by_cases hy : y = x
      · rw [hy, hself]
        rfl
      · rw [hother y hy]
    have hd : r1.units d = r.units d := hother d (Ne.symm hxd)
    obtain ⟨r', hr', htold⟩ := ih (k := k) id (r := r1)
      (by rw [List.length_cons] at hk; omega) (leads_congr hlinks hrest)
      (fun y hy => by
        have hyx : y ≠ x := fun h => hxsteps (h ▸ hy)
        rw [hother y hyx]
        exact hsteps y (List.mem_cons_of_mem _ hy))
      (hd ▸ hclass) (hd ▸ hmounted) hnodup
    refine ⟨r', ?_, ?_⟩
    · obtain ⟨h1, h2⟩ := hsteps x List.mem_cons_self
      change sync_line env (k + 1) x p sync_flags.upstream line r = _
      unfold sync_line dispatch_sync_line
      rw [h1]
      unfold unit.sync_line
      simp only
      rw [if_neg has_upstream_glob, if_pos has_upstream_self, h2, if_neg (by decide),
        continue_sync_links]
      change (r1.units x).links.foldlM _ (p, r1) = _
      rw [hlinks, hid, List.foldlM_cons, hr']
      rfl
    · have hdispatch := htold.dispatch
      have hflags := htold.flags
      rw [hd] at hdispatch hflags
      refine ⟨?_, ?_, hdispatch, htold.mainlines, htold.profile, hflags⟩
      · intro y hy hyd
        obtain ⟨hyx, hy⟩ := not_or.mp (mt List.mem_cons.mpr hy)
        rw [htold.others y hy hyd, hother y hyx]
      · intro y hy
        by_cases hyx : y = x
        · subst hyx
          exact ⟨p.state, by rw [htold.others y hxsteps hxd, hself], .inl rfl⟩
        · have hy' : y ∈ steps ∨ y = d := by
            rcases hy with hy | hy
            · exact .inl ((List.mem_cons.mp hy).resolve_left hyx)
            · exact .inr hy
          have := htold.registers y hy'
          rwa [hother y hyx] at this

omit [DecidableEq ι] in
theorem Told.unit_cases {steps : List ι} {d : ι} {state : Int} {r r' : rack ι}
    (h : Told steps d state r r') (x : ι) :
    ∃ state', r'.units x = unit.register_metric .state state' (r.units x) ∧
      (state' = state ∨ state' = (r.units x).m_unit_profile.state) := by
  by_cases hx : x ∈ steps ∨ x = d
  · exact h.registers x hx
  · obtain ⟨h1, h2⟩ := not_or.mp hx
    exact ⟨(r.units x).m_unit_profile.state, h.others x h1 h2, .inr rfl⟩

omit [DecidableEq ι] in
theorem Daisychain.Wired.apart {c : Daisychain ι} {r : rack ι} (h : c.Wired r) :
    (∀ u ∈ c.mainlines, u ≠ c.combine ∧ u ∉ c.steps ∧ u ≠ c.dispatch) ∧
      c.combine ∉ c.steps ∧ c.combine ≠ c.dispatch ∧ (c.steps ++ [c.dispatch]).Nodup ∧
      c.mainlines.Nodup := by
  obtain ⟨hmain, htail, hapart⟩ := List.nodup_append.mp h.distinct
  obtain ⟨hcombine, hrest⟩ := List.nodup_cons.mp htail
  refine ⟨?_, ?_, ?_, hrest, hmain⟩
  · intro u hu
    refine ⟨hapart u hu _ List.mem_cons_self, ?_, ?_⟩
    · exact fun hs => hapart u hu u (List.mem_cons_of_mem _ (List.mem_append_left _ hs)) rfl
    · exact hapart u hu _
        (List.mem_cons_of_mem _ (List.mem_append_right _ (List.mem_singleton_self _)))
  · exact fun hs => hcombine (List.mem_append_left _ hs)
  · intro hs
    exact hcombine (List.mem_append_right _ (List.mem_singleton.mpr hs))

/-! ## The combine -/

section combine

variable {env : environment ι} {c : Daisychain ι} {d : desk.Desk ι} {on : ι → Bool} {r : rack ι}

omit [DecidableEq ι] in
/-- When the units behind the combine hear that the desk turns, it has turned. -/
theorem LineState.told (h : LineState c d on r) {r' : rack ι}
    (ht : Told c.steps c.dispatch (lineInt !d.up) r r') :
    LineState c { d with turned := true } on r' ∧
      r'.m_resync_flags = r.m_resync_flags ||| sync_flags.glob_sync := by
  obtain ⟨hmain, hcsteps, hcd, -⟩ := h.wired.apart
  have hnew : lineInt (!d.up) ≠ (r.units c.dispatch).m_global_profile.state := by
    rw [h.dispatch_state, Ne, lineInt_inj]
    cases d.up <;> decide
  have hcombine : r'.units c.combine = r.units c.combine := ht.others _ hcsteps hcd
  have hglobal : ∀ x, (r'.units x).m_global_profile = (r.units x).m_global_profile := by
    intro x
    obtain ⟨state', hx, -⟩ := ht.unit_cases x
    rw [hx]
    rfl
  constructor
  · refine ⟨h.wired.congr ht.mainlines ?_ (by rw [hcombine]), ?_, ?_, ?_, ?_, ?_, ?_, ?_, ?_⟩
    · intro x
      obtain ⟨state', hx, -⟩ := ht.unit_cases x
      rw [hx]
      exact ⟨rfl, rfl, rfl⟩
    · intro x hx
      obtain ⟨state', he, -⟩ := ht.unit_cases x
      rw [he]
      exact h.unmarked x hx
    · intro x
      obtain ⟨state', he, hstate⟩ := ht.unit_cases x
      rw [he]
      change state' ≠ _
      rcases hstate with rfl | rfl
      · exact lineInt_no_flush _
      · exact h.no_flush x
    · intro u hu
      rw [ht.others u (hmain u hu).2.1 (hmain u hu).2.2]
      exact h.lines u hu
    · rw [ht.profile]
      exact h.rack_state
    · rw [hglobal]
      exact h.combine_state
    · rw [hglobal]
      exact h.dispatch_state
    · rw [ht.dispatch, if_neg hnew, Bool.xor_true]
    · rw [hcombine]
      exact h.inputs
  · rw [ht.flags, if_neg hnew]

/-- A change of one unit, from what it changes of the lines, the dispatch and the inputs. -/
theorem LineState.modify (h : LineState c d on r) (u : ι) {f : unit ι → unit ι}
    {d' : desk.Desk ι} {on' : ι → Bool}
    (hlinks : ∀ x, (f x).m_outputs = x.m_outputs ∧ (f x).m_class = x.m_class ∧
      (f x).m_rack = x.m_rack ∧ (f x).m_global_profile = x.m_global_profile)
    (hmark : u ∈ c.steps → (f (r.units u)).m_upstream = false)
    (hflush : (f (r.units u)).m_unit_profile.state ≠ line_state.flushing.toInt)
    (hup : d'.up = d.up)
    (hlines : ∀ v ∈ c.mainlines,
      ((r.modify u f).units v).m_unit_profile.state = lineInt (on' v))
    (hdispatch : ((r.modify u f).units c.dispatch).m_unit_profile.state =
      lineInt (d'.up ^^ d'.turned))
    (hlength : ((r.modify u f).units c.combine).m_input_state.length =
      (r.units c.combine).m_input_state.length)
    (hinputs : ∀ i, ((r.modify u f).units c.combine).m_input_state[i]? = some true ↔
      ∃ v ∈ c.mainlines, c.line v = i ∧ d'.heard v = true) :
    LineState c d' on' (r.modify u f) := by
  have hglobal := modify_field (·.m_global_profile) (fun x => (hlinks x).2.2.2) r u
  refine ⟨h.wired.congr rfl ?_ hlength, ?_, ?_, hlines, hup ▸ h.rack_state, ?_, ?_, hdispatch,
    hinputs⟩
  · exact fun x => ⟨modify_field (·.m_outputs) (fun x => (hlinks x).1) r u x,
      modify_field (·.m_class) (fun x => (hlinks x).2.1) r u x,
      modify_field (·.m_rack) (fun x => (hlinks x).2.2.1) r u x⟩
  · intro x hx
    rw [modify_units]
    split
    · rename_i hxu
      exact hmark (hxu ▸ hx)
    · exact h.unmarked x hx
  · intro x
    rw [modify_units]
    split
    · exact hflush
    · exact h.no_flush x
  · rw [hglobal, hup]
    exact h.combine_state
  · rw [hglobal, hup]
    exact h.dispatch_state

/-- The combine notes what it hears of a line. -/
theorem LineState.set_input (h : LineState c d on r) {u : ι} (hu : u ∈ c.mainlines) (b : Bool) :
    LineState c { d with heard := Function.update d.heard u b } on
      (r.modify c.combine (combine.set_input (c.line u) b)) := by
  obtain ⟨hmain, hcsteps, hcd, -⟩ := h.wired.apart
  have hinput : ((r.modify c.combine (combine.set_input (c.line u) b)).units
      c.combine).m_input_state = (r.units c.combine).m_input_state.set (c.line u) b := by
    rw [modify_units, if_pos rfl]
    rfl
  have hregistered := modify_field (·.m_unit_profile)
    (f := combine.set_input (c.line u) b) (fun _ => rfl) r c.combine
  apply h.modify c.combine
  · exact fun _ => ⟨rfl, rfl, rfl, rfl⟩
  · exact fun hs => absurd hs hcsteps
  · exact h.no_flush c.combine
  · rfl
  · intro v hv
    rw [hregistered]
    exact h.lines v hv
  · rw [hregistered]
    exact h.dispatch_line
  · rw [hinput, List.length_set]
  · intro i
    rw [hinput, List.getElem?_set]
    by_cases hi : c.line u = i
    · subst hi
      rw [if_pos rfl, if_pos (h.wired.input_exists u hu), Option.some.injEq]
      constructor
      · intro hb
        exact ⟨u, hu, rfl, (Function.update_self _ _ _).trans hb⟩
      · rintro ⟨v, hv, hline, hheard⟩
        obtain rfl := h.wired.own_input v hv u hu hline
        exact (Function.update_self _ _ _).symm.trans hheard
    · rw [if_neg hi, h.inputs i]
      apply exists_congr
      intro v
      apply and_congr_right
      intro hv
      apply and_congr_right
      intro hline
      have hvu : v ≠ u := fun hvu => hi (hvu ▸ hline)
      change _ ↔ Function.update d.heard u b v = true
      rw [Function.update_of_ne hvu]

omit [DecidableEq ι] in
/-- The combine sees that no line is on. -/
theorem LineState.all_inactive (h : LineState c d on r) :
    combine.all_inactive (r.units c.combine) = c.mainlines.all fun v => !d.heard v := by
  rw [Bool.eq_iff_iff]
  unfold combine.all_inactive
  simp only [List.all_eq_true, Bool.not_eq_true']
  constructor
  · intro hall v hv
    rw [← Bool.not_eq_true]
    intro hheard
    have hin := (h.inputs (c.line v)).mpr ⟨v, hv, rfl, hheard⟩
    exact absurd (hall true (List.mem_of_getElem? hin)) (by decide)
  · intro hall b hb
    obtain ⟨i, hi⟩ := List.mem_iff_getElem?.mp hb
    cases b with
    | false => rfl
    | true =>
      obtain ⟨v, hv, -, hheard⟩ := (h.inputs i).mp hi
      rw [hall v hv] at hheard
      cases hheard

/-- The combine registers a state of its own. -/
theorem LineState.register_combine (h : LineState c d on r) (b : Bool) :
    LineState c d on (r.modify c.combine (unit.register_metric .state (lineInt b))) := by
  obtain ⟨hmain, hcsteps, hcd, -⟩ := h.wired.apart
  have hin := modify_field (·.m_input_state)
    (f := unit.register_metric .state (lineInt b)) (fun _ => rfl) r c.combine c.combine
  apply h.modify c.combine
  · exact fun _ => ⟨rfl, rfl, rfl, rfl⟩
  · exact fun hs => absurd hs hcsteps
  · exact lineInt_no_flush b
  · rfl
  · intro u hu
    rw [modify_units, if_neg (hmain u hu).1]
    exact h.lines u hu
  · rw [modify_units, if_neg hcd.symm]
    exact h.dispatch_line
  · rw [hin]
  · rw [hin]
    exact h.inputs

variable (env) in
/-- The combine passes on that the desk turns. -/
theorem LineState.spread (h : LineState c d on r) {k : Nat} (hk : c.steps.length + 1 ≤ k)
    {p : sync_profile} (hp : p.state = lineInt !d.up) :
    ∃ r', continue_sync (sync_line env k) c.combine p sync_flags.upstream
        (r.modify c.combine (unit.register_metric .state (lineInt !d.up))) = some (p, r') ∧
      LineState c { d with turned := true } on r' ∧
      r'.m_resync_flags = r.m_resync_flags ||| sync_flags.glob_sync := by
  have h1 := h.register_combine !d.up
  obtain ⟨⟨id, hid⟩, hleads⟩ := h1.wired.tail
  obtain ⟨-, -, -, hnodup, -⟩ := h1.wired.apart
  obtain ⟨r', hr', htold⟩ := steps_told env (p := p) id hk hleads
    (fun x hx => ⟨h1.wired.step_class x hx, h1.unmarked x hx⟩) h1.wired.dispatch_class
    (h1.wired.mounted _) hnodup
  rw [hp] at htold
  obtain ⟨h2, h3⟩ := h1.told htold
  refine ⟨r', ?_, h2, h3⟩
  rw [continue_sync_links, hid, List.foldlM_cons, hr']
  rfl

/-- The flags that a sync began with, and the request of the dispatch once the desk turns. -/
def asks_turn (d : desk.Desk ι) (flags : sync_flag) (r : rack ι) : Prop :=
  r.m_resync_flags = if d.turned then flags ||| sync_flags.glob_sync else flags

variable (env) in
/-- A combine hears of a line as the desk does. -/
theorem LineState.combine_hears (h : LineState c d on r) {flags : sync_flag}
    (hflags : asks_turn d flags r) {k : Nat} (hk : c.steps.length + 1 ≤ k) {u : ι}
    (hu : u ∈ c.mainlines) {p : sync_profile} (hp : p.state = lineInt (on u)) :
    ∃ r', sync_line env (k + 1) c.combine p sync_flags.upstream (c.line u) r = some (p, r') ∧
      LineState c (d.hear c.mainlines on u) on r' ∧
      asks_turn (d.hear c.mainlines on u) flags r' := by
  have hin := h.set_input hu (on u)
  have hinactive := hin.all_inactive
  have hstate := hin.combine_state
  simp only at hinactive hstate
  have hturn : ∀ r' : rack ι, r'.m_resync_flags = r.m_resync_flags ||| sync_flags.glob_sync →
      ∀ d' : desk.Desk ι, d'.turned = true → asks_turn d' flags r' := by
    intro r' hr' d' hd'
    unfold asks_turn at hflags ⊢
    rw [hr', hflags, if_pos hd']
    split
    · rw [BitVec.or_assoc, BitVec.or_self]
    · rfl
  have hstay : ∀ r' : rack ι, r'.m_resync_flags = r.m_resync_flags →
      ∀ d' : desk.Desk ι, d'.turned = d.turned → asks_turn d' flags r' := by
    intro r' hr' d' hd'
    unfold asks_turn at hflags ⊢
    rw [hr', hflags, hd']
  unfold sync_line dispatch_sync_line
  rw [h.wired.combine_class]
  unfold combine.sync_line
  simp only
  rw [if_pos has_upstream_self]
  cases hon : on u with
  | true =>
    rw [hon] at hin hstate hp
    have hactive : p.state = line_state.active.toInt := hp
    rw [if_pos hactive, hstate]
    cases hup : d.up with
    | false =>
      obtain ⟨r', h1, h2, h3⟩ := hin.spread env hk (p := p) (by rw [hp, hup]; rfl)
      rw [hup] at h1
      rw [if_pos (by decide)]
      refine ⟨r', h1, ?_, ?_⟩
      · simpa [desk.Desk.hear, hon, hup] using h2
      · exact hturn r' h3 _ (by simp [desk.Desk.hear, hon, hup])
    | true =>
      rw [if_neg (by decide)]
      refine ⟨_, rfl, ?_, ?_⟩
      · simpa [desk.Desk.hear, hon, hup] using hin
      · exact hstay _ rfl _ (by simp [desk.Desk.hear, hon, hup])
  | false =>
    rw [hon] at hin hinactive hstate hp
    rw [if_neg (by rw [hp]; decide), hstate]
    cases hup : d.up with
    | false =>
      rw [if_neg (by decide)]
      refine ⟨_, rfl, ?_, ?_⟩
      · simpa [desk.Desk.hear, hon, hup] using hin
      · exact hstay _ rfl _ (by simp [desk.Desk.hear, hon, hup])
    | true =>
      rw [if_pos (by decide), hinactive]
      cases hall : c.mainlines.all fun v => !Function.update d.heard u false v with
      | true =>
        obtain ⟨r', h1, h2, h3⟩ := hin.spread env hk (p := p) (by rw [hp, hup]; rfl)
        rw [hup] at h1
        rw [if_pos rfl]
        refine ⟨r', h1, ?_, ?_⟩
        · simpa [desk.Desk.hear, hon, hup, hall] using h2
        · exact hturn r' h3 _ (by simp [desk.Desk.hear, hon, hup, hall])
      | false =>
        rw [if_neg (by decide)]
        refine ⟨_, rfl, ?_, ?_⟩
        · simpa [desk.Desk.hear, hon, hup, hall] using hin
        · exact hstay _ rfl _ (by simp [desk.Desk.hear, hon, hup, hall])

/-- A mainline passes its own state on to the combine. -/
theorem LineState.line_hears (h : LineState c d on r) (hcalm : env.calm) {flags : sync_flag}
    (hflags : asks_turn d flags r) {fuel : Nat} (hfuel : c.depth ≤ fuel) {u : ι}
    (hu : u ∈ c.mainlines) (p : sync_profile) :
    ∃ pass, sync_line env fuel u p sync_flags.upstream 0 r = some pass ∧
      LineState c (d.hear c.mainlines on u) on pass.2 ∧
      asks_turn (d.hear c.mainlines on u) flags pass.2 := by
  unfold Daisychain.depth at hfuel
  obtain ⟨k, rfl⟩ : ∃ k, fuel = k + 2 := ⟨fuel - 2, by omega⟩
  let r1 := if (r.units u).m_upstream then
    unit.resync env u sync_flags.upstream (r.modify u (unit.set_upstream false)) else r
  have hframe : Frame env false false r r1 := by
    change Frame env false false r (if (r.units u).m_upstream then _ else r)
    split
    · exact (frame_lower env _ _ r u).trans (frame_resync env u _ _)
    · exact Frame.refl _ _ _ r
  have h1 : LineState c d on r1 := h.frame hcalm hframe
  have hflags1 : asks_turn d flags r1 := by
    unfold asks_turn at hflags ⊢
    rw [(calm_frame hcalm hframe h.wired.mounted).2 rfl, hflags]
  obtain ⟨r', h2, h3, h4⟩ := h1.combine_hears env hflags1 (k := k) (by omega) hu
    (p := { p with state := (r1.units u).m_unit_profile.state }) (h1.lines u hu)
  refine ⟨({ p with state := (r1.units u).m_unit_profile.state }, r'), ?_, h3, h4⟩
  unfold sync_line dispatch_sync_line
  rw [h.wired.mainline_class u hu]
  unfold mainline.sync_line
  simp only
  rw [if_pos has_upstream_self, continue_sync_links]
  change (r1.units u).links.foldlM _ ({ p with state := (r1.units u).m_unit_profile.state }, r1) = _
  rw [h1.wired.mainline_links u hu, List.foldlM_cons, h2]
  rfl

/-- The lines are heard one after another. -/
theorem LineState.lines_hear (hcalm : env.calm) {flags : sync_flag} {fuel : Nat}
    (hfuel : c.depth ≤ fuel) (lines : List ι) (hlines : ∀ u ∈ lines, u ∈ c.mainlines)
    (h : LineState c d on r) (hflags : asks_turn d flags r) :
    ∃ r', lines.foldlM (fun r u =>
        (sync_line env fuel u r.m_global_profile sync_flags.upstream 0 r).map (·.2)) r = some r' ∧
      LineState c (lines.foldl (desk.Desk.hear c.mainlines on) d) on r' ∧
      asks_turn (lines.foldl (desk.Desk.hear c.mainlines on) d) flags r' := by
  induction lines generalizing r d with
  | nil => exact ⟨r, rfl, h, hflags⟩
  | cons u lines ih =>
    obtain ⟨pass, h1, h2, h3⟩ := h.line_hears hcalm hflags hfuel (hlines u List.mem_cons_self)
      r.m_global_profile
    obtain ⟨r', h4, h5, h6⟩ := ih (fun v hv => hlines v (List.mem_cons_of_mem _ hv)) h2 h3
    refine ⟨r', ?_, h5, h6⟩
    rw [List.foldlM_cons, h1]
    exact h4

/-! ## The passes over the lines -/

omit [DecidableEq ι] in
theorem within_leads {r : rack ι} {d : ι} {steps : List ι} (h : leads r d steps) :
    walk.Within r.succ (steps.length + 1) (steps.headD d) := by
  induction steps with
  | nil =>
    intro v hv
    rw [rack.succ, show (r.units ([].headD d)).links = [] from h] at hv
    exact absurd hv List.not_mem_nil
  | cons x steps ih =>
    obtain ⟨⟨id, hid⟩, hrest⟩ := h
    intro v hv
    rw [rack.succ, show (r.units ((x :: steps).headD d)).links = _ from hid] at hv
    rw [List.mem_singleton.mp hv]
    exact ih hrest

omit [DecidableEq ι] in
/-- From a mainline on, each unit feeds the next one. -/
theorem Daisychain.Wired.leads {c : Daisychain ι} {r : rack ι} (h : c.Wired r) {u : ι}
    (hu : u ∈ c.mainlines) : leads r c.dispatch (u :: c.combine :: c.steps) :=
  ⟨⟨c.line u, h.mainline_links u hu⟩, h.tail⟩

omit [DecidableEq ι] in
theorem Daisychain.Wired.within {c : Daisychain ι} {r : rack ι} (h : c.Wired r) :
    r.within c.depth := by
  intro u hu
  rw [h.mainlines] at hu
  exact within_leads (h.leads hu)

/-- The upstream sync of a pass tells the combine of every line. -/
theorem LineState.upstream (h : LineState c d on r) (hcalm : env.calm)
    (hfresh : d.turned = false) (hflags : r.m_resync_flags = sync_flags.upstream) :
    ∃ r', rack.upstream_sync env c.depth r = some r' ∧
      LineState c (c.mainlines.foldl (desk.Desk.hear c.mainlines on) d) on r' ∧
      r'.m_resync_flags =
        if (c.mainlines.foldl (desk.Desk.hear c.mainlines on) d).turned then sync_flags.glob_sync
        else 0 := by
  have hask : asks_turn d sync_flags.upstream r := by
    unfold asks_turn
    rw [hfresh, hflags]
    rfl
  obtain ⟨r1, h1, h2, h3⟩ := LineState.lines_hear hcalm (Nat.le_refl c.depth) c.mainlines
    (fun _ hu => hu) h hask
  let r2 := { r1 with performed := r1.performed ++ [sync_type.upstream] }
  have h4 := LineState.of_units r1 r2 rfl rfl rfl h2
  obtain ⟨s, h5⟩ := (cycle_ends env).mpr h4.wired.within
  have hcycle := frame_cycle h5
  have h6 := h4.frame hcalm hcycle
  let r3 := { s.2 with m_resync_flags := s.2.m_resync_flags ^^^ sync_flags.upstream }
  refine ⟨r3, ?_, LineState.of_units s.2 r3 rfl rfl rfl h6, ?_⟩
  · have hlines : backend.sync_upstream env c.depth sync_flags.upstream r = some r1 := by
      unfold backend.sync_upstream
      rw [h.wired.mainlines]
      exact h1
    have hsync : backend.sync env c.depth sync_flags.upstream r = some s.2 := by
      change (backend.sync_lines env c.depth sync_flags.upstream r).bind
        (fun r => (backend.cycle env c.depth .sync r).bind fun s => some s.2) = some s.2
      unfold backend.sync_lines
      rw [if_neg has_upstream_glob, if_pos has_upstream_self, hlines]
      change (backend.cycle env c.depth .sync r2).bind _ = _
      rw [h5]
      rfl
    unfold rack.upstream_sync
    rw [if_pos (by rw [hflags]; exact has_upstream_self), hsync]
    rfl
  · change s.2.m_resync_flags ^^^ sync_flags.upstream = _
    rw [(calm_frame hcalm hcycle h4.wired.mounted).2 rfl]
    change r1.m_resync_flags ^^^ sync_flags.upstream = _
    unfold asks_turn at h3
    rw [h3]
    split
    · decide
    · decide

end combine

end strangeio.component
