-- What an upstream sync touches: the states of the units, the inputs of the
-- combines and the marks of the units that asked. A unit that asked hands its
-- own profile down by reference, and no unit below writes more to it than a state.
import StrangeIO.CycleFlow
import StrangeIO.GlobalSync

namespace strangeio.component

variable {ι : Type}

/-- The profile `q` is `p` but for the state. -/
def same_metrics (p q : sync_profile) : Prop := q = { p with state := q.state }

theorem same_metrics_refl (p : sync_profile) : same_metrics p p := rfl

theorem same_metrics_state (p : sync_profile) (state : Int) :
    same_metrics p { p with state := state } := rfl

theorem same_metrics_trans {p q t : sync_profile} (h : same_metrics p q) (g : same_metrics q t) :
    same_metrics p t := by
  unfold same_metrics at h g ⊢
  rw [g, h]

/-- The unit `y` is `x` but for its state, its mark, and its inputs if it is a combine. -/
structure Restated (x y : unit ι) : Prop where
  rest : y = { x with
    m_unit_profile := { x.m_unit_profile with state := y.m_unit_profile.state }
    m_input_state := y.m_input_state
    m_upstream := y.m_upstream }
  inputs : x.m_class ≠ .combine → y.m_input_state = x.m_input_state

theorem Restated.refl (x : unit ι) : Restated x x := ⟨rfl, fun _ => rfl⟩

theorem Restated.same_class {x y : unit ι} (h : Restated x y) : y.m_class = x.m_class := by
  rw [h.rest]

theorem Restated.trans {x y z : unit ι} (h : Restated x y) (g : Restated y z) : Restated x z where
  rest := by
    rw [g.rest]
    conv_lhs => rw [h.rest]
  inputs hx := (g.inputs (h.same_class ▸ hx)).trans (h.inputs hx)

theorem restated_set_state (x : unit ι) (state : Int) :
    Restated x (unit.register_metric .state state x) := ⟨rfl, fun _ => rfl⟩

theorem restated_set_input {x : unit ι} (h : x.m_class = .combine) (line : Nat) (b : Bool) :
    Restated x (combine.set_input line b x) := ⟨rfl, fun hx => absurd h hx⟩

/-- A profile that differs in its state may take the place of the unit's own. -/
theorem Restated.set_profile {x y : unit ι} (h : Restated x y) {p : sync_profile}
    (hp : same_metrics x.m_unit_profile p) : Restated x (unit.set_profile p y) where
  rest := by
    unfold same_metrics at hp
    unfold unit.set_profile
    rw [hp]
    conv_lhs => rw [h.rest]
  inputs hx := h.inputs hx

variable [DecidableEq ι]

/-! ## One unit -/

theorem restated_modify {r : rack ι} {u : ι} {f : unit ι → unit ι}
    (h : Restated (r.units u) (f (r.units u))) (v : ι) :
    Restated (r.units v) ((r.modify u f).units v) := by
  rw [modify_units]
  split
  · rename_i hv
    rwa [hv]
  · exact Restated.refl _

/-- The requests of a unit mark it at most. -/
theorem restated_requests (u : ι) (requests : List request) (r : rack ι) (v : ι) :
    Restated (r.units v) ((requests.foldl (unit.perform u) r).units v) := by
  have hkeep := (requests_keep (fun x : unit ι => unit.set_upstream false x) (fun _ _ => rfl) u
    requests r).1 v
  generalize (requests.foldl (unit.perform u) r).units v = y at hkeep ⊢
  obtain ⟨_, _, _, _, _, _, _, _, _⟩ := y
  simp only [unit.set_upstream, unit.mk.injEq] at hkeep
  constructor
  · simp [hkeep]
  · simp [hkeep]

theorem restated_resync (env : environment ι) (u : ι) (flags : sync_flag) (r : rack ι) (v : ι) :
    Restated (r.units v) ((unit.resync env u flags r).units v) :=
  restated_requests u (env.resync u flags r) { r with calls := r.calls ++ [.resync u flags] } v

theorem restated_trigger_sync (u : ι) (flags : sync_flag) (r : rack ι) (v : ι) :
    Restated (r.units v) ((unit.trigger_sync u flags r).units v) :=
  restated_requests u [.trigger_sync flags] r v

/-- What the units below do in an upstream sync, to the rack and to the profile. -/
def Restates (flags : sync_flag)
    (cont : ι → sync_profile → sync_flag → rack ι → Option (Pass ι)) : Prop :=
  ∀ u p r pass, cont u p flags r = some pass →
    same_metrics p pass.1 ∧ ∀ v, Restated (r.units v) (pass.2.units v)

section classes

variable {env : environment ι} {flags : sync_flag}
  {cont : ι → sync_profile → sync_flag → rack ι → Option (Pass ι)}

omit [DecidableEq ι] in
theorem Restates.after (h : Restates flags cont) {u : ι} {p : sync_profile} {r r1 : rack ι}
    {pass : Pass ι} (hr : ∀ v, Restated (r.units v) (r1.units v))
    (hcont : cont u p flags r1 = some pass) :
    same_metrics p pass.1 ∧ ∀ v, Restated (r.units v) (pass.2.units v) := by
  obtain ⟨h1, h2⟩ := h u p r1 pass hcont
  exact ⟨h1, fun v => (hr v).trans (h2 v)⟩

theorem restates_unit (h : Restates flags cont) (hup : flags.has sync_flags.upstream = true)
    (hglob : ¬ flags.has sync_flags.glob_sync = true) {u : ι} {p : sync_profile} {line : Nat}
    {r : rack ι} {pass : Pass ι} (hpass : unit.sync_line env cont u p flags line r = some pass) :
    same_metrics p pass.1 ∧ ∀ v, Restated (r.units v) (pass.2.units v) := by
  unfold unit.sync_line at hpass
  rw [if_neg hglob, if_pos hup] at hpass
  split at hpass
  · obtain ⟨s, h1, h2⟩ := Option.bind_eq_some_iff.mp hpass
    cases h2
    let r1 := unit.resync env u flags (r.modify u (unit.set_upstream false))
    have hlower : ∀ v, Restated (r.units v) (r1.units v) := fun v =>
      (restated_modify (f := unit.set_upstream false) ⟨rfl, fun _ => rfl⟩ v).trans
        (restated_resync env u flags _ v)
    obtain ⟨h3, h4⟩ := h u _ r1 s h1
    refine ⟨same_metrics_refl p, fun v => (hlower v).trans ?_⟩
    change Restated (r1.units v) ((s.2.modify u (unit.set_profile s.1)).units v)
    rw [modify_units]
    split
    · rename_i hv
      subst hv
      exact (h4 v).set_profile h3
    · exact h4 v
  · exact h.after (restated_modify (restated_set_state _ _)) hpass

theorem restates_mainline (h : Restates flags cont) (hup : flags.has sync_flags.upstream = true)
    {u : ι} {p : sync_profile} {line : Nat} {r : rack ι} {pass : Pass ι}
    (hpass : mainline.sync_line env cont u p flags line r = some pass) :
    same_metrics p pass.1 ∧ ∀ v, Restated (r.units v) (pass.2.units v) := by
  unfold mainline.sync_line at hpass
  rw [if_pos hup] at hpass
  have hasked : ∀ v, Restated (r.units v) ((if (r.units u).m_upstream then
      unit.resync env u flags (r.modify u (unit.set_upstream false)) else r).units v) := by
    intro v
    split
    · exact (restated_modify (f := unit.set_upstream false) ⟨rfl, fun _ => rfl⟩ v).trans
        (restated_resync env u flags _ v)
    · exact Restated.refl _
  obtain ⟨h1, h2⟩ := h.after hasked hpass
  exact ⟨same_metrics_trans (same_metrics_state p _) h1, h2⟩

theorem restates_combine (h : Restates flags cont) (hup : flags.has sync_flags.upstream = true)
    {u : ι} {p : sync_profile} {line : Nat} {r : rack ι} {pass : Pass ι}
    (hclass : (r.units u).m_class = .combine)
    (hpass : combine.sync_line env cont u p flags line r = some pass) :
    same_metrics p pass.1 ∧ ∀ v, Restated (r.units v) (pass.2.units v) := by
  have hset : ∀ b v, Restated (r.units v) ((r.modify u (combine.set_input line b)).units v) :=
    fun b => restated_modify (restated_set_input hclass line b)
  have hturn : ∀ b state v, Restated (r.units v) (((r.modify u (combine.set_input line b)).modify u
      (unit.register_metric .state state)).units v) := fun b state v =>
    (hset b v).trans (restated_modify (restated_set_state _ state) v)
  unfold combine.sync_line at hpass
  rw [if_pos hup] at hpass
  split at hpass
  · simp only at hpass
    split at hpass
    · exact h.after (hturn true _) hpass
    · cases hpass
      exact ⟨same_metrics_refl p, hset true⟩
  · simp only at hpass
    split at hpass
    · split at hpass
      · exact h.after (hturn false _) hpass
      · cases hpass
        exact ⟨same_metrics_refl p, hset false⟩
    · cases hpass
      exact ⟨same_metrics_refl p, hset false⟩

theorem restates_dispatch (hup : flags.has sync_flags.upstream = true) {u : ι} {p : sync_profile}
    {line : Nat} {r : rack ι} {pass : Pass ι}
    (hpass : dispatch.sync_line env cont u p flags line r = some pass) :
    same_metrics p pass.1 ∧ ∀ v, Restated (r.units v) (pass.2.units v) := by
  unfold dispatch.sync_line at hpass
  rw [if_pos hup] at hpass
  have hsync : ∀ v, Restated (r.units v) ((unit.trigger_sync u sync_flags.glob_sync
      (r.modify u (unit.register_metric .state p.state))).units v) := fun v =>
    (restated_modify (restated_set_state _ _) v).trans (restated_trigger_sync u _ _ v)
  split at hpass
  · cases hpass
    exact ⟨same_metrics_refl p, fun v => Restated.refl _⟩
  · simp only at hpass
    split at hpass
    · cases hpass
      exact ⟨same_metrics_refl p, hsync⟩
    · cases hpass
      exact ⟨same_metrics_refl p, hsync⟩

end classes

/-! ## The lines -/

omit [DecidableEq ι] in
theorem restates_continue {flags : sync_flag}
    {sync_line : ι → sync_profile → sync_flag → Nat → rack ι → Option (Pass ι)}
    (h : ∀ line, Restates flags fun u p flags r => sync_line u p flags line r) :
    Restates flags (continue_sync sync_line) := by
  intro u p r pass hpass
  rw [continue_sync_links] at hpass
  exact walk.foldlM_relates
    (R := fun a b : Pass ι => same_metrics a.1 b.1 ∧ ∀ v, Restated (a.2.units v) (b.2.units v))
    (fun _ => ⟨rfl, fun _ => Restated.refl _⟩)
    (fun _ _ _ hab hbc => ⟨same_metrics_trans hab.1 hbc.1, fun v => (hab.2 v).trans (hbc.2 v)⟩)
    (fun a b l _ hl => h l.2 l.1 a.1 a.2 b hl) hpass

/-- An upstream sync down a line restates the units, and the profile that it hands on. -/
theorem restates_sync_line (env : environment ι) {flags : sync_flag}
    (hup : flags.has sync_flags.upstream = true)
    (hglob : ¬ flags.has sync_flags.glob_sync = true) (fuel line : Nat) :
    Restates flags fun u p flags r => sync_line env fuel u p flags line r := by
  induction fuel generalizing line with
  | zero =>
    intro u p r pass h
    cases h
  | succ fuel ih =>
    have hcont := restates_continue ih
    intro u p r pass h
    change dispatch_sync_line env _ u p flags line r = some pass at h
    unfold dispatch_sync_line at h
    split at h
    · exact restates_unit hcont hup hglob h
    · exact restates_mainline hcont hup h
    · exact restates_combine hcont hup ‹_› h
    · exact restates_dispatch hup h

/-- An upstream sync from every mainline ends, and leaves of each unit all but
its state, its mark and, in a combine, its inputs. -/
theorem an_upstream_sync_touches_only_states [Fintype ι] (env : environment ι) (r : rack ι)
    (fuel : Nat) (h : walk.Acyclic r.succ) (hfuel : Fintype.card ι ≤ fuel) (flags : sync_flag)
    (hup : flags.has sync_flags.upstream = true)
    (hglob : ¬ flags.has sync_flags.glob_sync = true) :
    ∃ r', backend.sync_upstream env fuel flags r = some r' ∧
      ∀ v, Restated (r.units v) (r'.units v) := by
  have hwithin : r.within fuel := within_of_acyclic h hfuel
  obtain ⟨r', hr', -⟩ := walk.foldlM_some (I := fun s : rack ι => s.succ = r.succ)
    (f := fun r u => (sync_line env fuel u r.m_global_profile flags 0 r).map (·.2))
    (l := r.m_raw_mainlines) (fun s hs u hu => by
      obtain ⟨pass, hpass⟩ := ends_sync_line env (hwithin u hu) 0 s.m_global_profile flags s hs
      exact ⟨pass.2, Option.map_eq_some_iff.mpr ⟨pass, hpass, rfl⟩,
        (framed_sync_line env fuel 0 u _ flags s pass hpass).succ.trans hs⟩) (s := r) rfl
  refine ⟨r', hr', ?_⟩
  refine walk.foldlM_relates (R := fun s t : rack ι => ∀ v, Restated (s.units v) (t.units v))
    (fun _ _ => Restated.refl _) (fun _ _ _ hst htu v => (hst v).trans (htu v))
    (fun s t u _ ht => ?_) hr'
  obtain ⟨pass, hpass, rfl⟩ := Option.map_eq_some_iff.mp ht
  exact (restates_sync_line env hup hglob fuel 0 u _ s pass hpass).2

/-- The chain with both units active, which have asked for the sync. -/
def asking_chain : rack (Fin 2) :=
  { chain with
    units := fun u => unit.set_upstream true
      (unit.register_metric .state line_state.active.toInt (chain.units u)) }

theorem an_asking_chain_is_restated :
    ∃ r', backend.sync_upstream .quiet 2 sync_flags.upstream asking_chain = some r' ∧
      ∀ v, Restated (asking_chain.units v) (r'.units v) := by
  have hacyclic : walk.Acyclic asking_chain.succ := walk.acyclic_of_rank Fin.val (by decide)
  exact an_upstream_sync_touches_only_states .quiet asking_chain 2 hacyclic (by decide)
    sync_flags.upstream (by decide) (by decide)

end strangeio.component
