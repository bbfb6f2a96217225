-- The cycles of a rack and the parts of a sync: what they leave alone, and
-- that they end exactly when every path from a mainline does.
import StrangeIO.SyncFrame

namespace strangeio.component

variable {ι : Type}

/-! ## The cycle of a line -/

variable [DecidableEq ι]

/-- The unit's part of a sync cycle starts its line and syncs it. -/
theorem frame_cycle_unit {env : environment ι} {fuel : Nat} {u : ι} {r r' : rack ι}
    {state : cycle_state} (h : cycle_unit env fuel u .sync r = some (state, r')) :
    Frame env false false r r' := by
  obtain ⟨⟨p, r1⟩, h1, h2⟩ := Option.bind_eq_some_iff.mp h
  cases h2
  have hstart : Frame env false false r (r.modify u start_line) :=
    frame_modify r u (fun _ => ⟨rfl, rfl, rfl⟩) (fun _ h => h) (fun _ _ => rfl) (fun _ _ => rfl)
      (fun _ _ => rfl)
  have hline : Frame env false false (r.modify u start_line) r1 :=
    framed_sync_line env fuel 0 u _ sync_flags.source _ _ h1
  exact (hstart.trans hline).trans
    (frame_modify r1 u (fun _ => ⟨rfl, rfl, rfl⟩) (fun _ h => h) (fun _ _ => rfl)
      (fun _ _ => rfl) (fun _ _ => rfl))

/-- The outputs of a unit that are connected are its links. -/
theorem foldlM_outputs (env : environment ι) (fuel : Nat) (type : cycle_type) (x : unit ι)
    (r : rack ι) :
    x.m_outputs.foldlM
      (fun r out =>
        match out.connected, out.to_in with
        | true, some (v, _) => (cycle_line env fuel v type r).map (·.2)
        | _, _ => some r) r =
      (x.links.map Prod.fst).foldlM (fun r v => (cycle_line env fuel v type r).map (·.2)) r := by
  rw [List.foldlM_map]
  refine foldlM_links (fun _ b => ?_) (fun _ _ => rfl) (fun _ _ => rfl) x r
  cases b <;> rfl

/-- The cycles of the units that a unit is linked to. -/
theorem cycle_line_succ (env : environment ι) (fuel : Nat) (u : ι) (type : cycle_type)
    (r : rack ι) :
    cycle_line env (fuel + 1) u type r = (cycle_unit env (fuel + 1) u type r).bind fun s =>
      if s.1 ≠ .complete then some s
      else (((s.2.units u).links.map Prod.fst).foldlM
        (fun r v => (cycle_line env fuel v type r).map (·.2)) s.2).map fun r => (s.1, r) := by
  rw [cycle_line]
  congr 1
  funext s
  obtain ⟨state, r⟩ := s
  simp only
  by_cases hs : state ≠ .complete
  · rw [if_pos hs, if_pos hs]
  · rw [if_neg hs, if_neg hs, ← foldlM_outputs env fuel type (r.units u) r, Option.map_eq_bind]
    rfl

/-- A sync cycle leaves links, registered and recorded profiles as they are. -/
theorem frame_cycle_line {env : environment ι} {fuel : Nat} {u : ι} {r r' : rack ι}
    {state : cycle_state} (h : cycle_line env fuel u .sync r = some (state, r')) :
    Frame env false false r r' := by
  induction fuel generalizing u r r' state with
  | zero => cases h
  | succ fuel ih =>
    rw [cycle_line_succ] at h
    obtain ⟨⟨s, r1⟩, h1, h2⟩ := Option.bind_eq_some_iff.mp h
    have hunit := frame_cycle_unit h1
    split at h2
    · cases h2
      exact hunit
    · obtain ⟨r2, h3, h4⟩ := Option.map_eq_some_iff.mp h2
      cases h4
      refine hunit.trans (walk.foldlM_relates (Frame.refl env false false)
        (fun _ _ _ => Frame.trans) (fun s t v _ hv => ?_) h3)
      obtain ⟨⟨s', t'⟩, h5, rfl⟩ := Option.map_eq_some_iff.mp hv
      exact ih h5

/-- A sync cycle ends where the fuel is as deep as the paths, and only there. -/
theorem cycle_line_ends (env : environment ι) {fuel : Nat} {u : ι} {r : rack ι} :
    (∃ s, cycle_line env fuel u .sync r = some s) ↔ walk.Within r.succ fuel u := by
  induction fuel generalizing u r with
  | zero => simp [cycle_line, walk.Within]
  | succ fuel ih =>
    rw [cycle_line_succ]
    constructor
    · rintro ⟨s, h⟩ v hv
      obtain ⟨⟨state, r1⟩, h1, h2⟩ := Option.bind_eq_some_iff.mp h
      have hsucc := (frame_cycle_unit h1).succ
      obtain ⟨pass, hpass, heq⟩ := Option.bind_eq_some_iff.mp h1
      cases heq
      rw [if_neg (by simp)] at h2
      obtain ⟨r2, h3, -⟩ := Option.map_eq_some_iff.mp h2
      obtain ⟨r3, r4, h4, h5⟩ := walk.foldlM_steps (Frame.refl env false false)
        (fun _ _ _ => Frame.trans) (fun s t v _ hv => by
          obtain ⟨⟨s', t'⟩, h6, rfl⟩ := Option.map_eq_some_iff.mp hv
          exact frame_cycle_line h6) h3 (a := v) (by
            change v ∈ rack.succ _ u
            rw [hsucc]
            exact hv)
      obtain ⟨s', h6, -⟩ := Option.map_eq_some_iff.mp h5
      have := ih.mp ⟨s', h6⟩
      rwa [h4.succ, hsucc] at this
    · intro h
      have hstart : Frame env true true r (r.modify u start_line) :=
        frame_modify r u (fun _ => ⟨rfl, rfl, rfl⟩) (fun _ h => h) (fun _ _ => rfl)
          (fun _ _ => rfl) (fun _ _ => rfl)
      obtain ⟨pass, hpass⟩ := ends_sync_line env h 0
        ((r.modify u start_line).units u).m_line_profile sync_flags.source _ hstart.succ
      have hunit : cycle_unit env (fuel + 1) u .sync r = some (.complete,
          pass.2.modify u fun x => { x with m_line_profile := pass.1 }) :=
        Option.bind_eq_some_iff.mpr ⟨pass, hpass, rfl⟩
      have hsucc := (frame_cycle_unit hunit).succ
      obtain ⟨r', hr', -⟩ := walk.foldlM_some
        (I := fun s : rack ι => s.succ = r.succ)
        (f := fun r v => (cycle_line env fuel v .sync r).map (·.2))
        (l := r.succ u) (fun s hs v hv => by
          obtain ⟨t, ht⟩ := ih.mpr (hs ▸ h v hv : walk.Within s.succ fuel v)
          exact ⟨t.2, Option.map_eq_some_iff.mpr ⟨t, ht, rfl⟩, (frame_cycle_line ht).succ.trans hs⟩)
        hsucc
      refine ⟨(.complete, r'), ?_⟩
      rw [hunit, Option.bind_some, if_neg (by simp)]
      refine Option.map_eq_some_iff.mpr ⟨r', ?_, rfl⟩
      change (rack.succ _ u).foldlM _ _ = _
      rw [hsucc]
      exact hr'

/-! ## The cycle of a rack -/

theorem frame_cycle {env : environment ι} {fuel : Nat} {r : rack ι} {s : cycle_state × rack ι}
    (h : backend.cycle env fuel .sync r = some s) : Frame env false false r s.2 :=
  walk.foldlM_relates (R := fun s t : cycle_state × rack ι => Frame env false false s.2 t.2)
    (fun s => Frame.refl _ _ _ s.2) (fun _ _ _ => Frame.trans)
    (fun _ _ _ _ ht => frame_cycle_line ht) h

/-- Every path from a mainline ends within the fuel. -/
def rack.within (fuel : Nat) (r : rack ι) : Prop :=
  ∀ u ∈ r.m_raw_mainlines, walk.Within r.succ fuel u

omit [DecidableEq ι] in
theorem Frame.within {env : environment ι} {glob up : Bool} {fuel : Nat} {r r' : rack ι}
    (h : Frame env glob up r r') :
    r'.within fuel ↔ r.within fuel := by
  unfold rack.within
  rw [h.mainlines, h.succ]

theorem cycle_ends (env : environment ι) {fuel : Nat} {r : rack ι} :
    (∃ s, backend.cycle env fuel .sync r = some s) ↔ r.within fuel := by
  constructor
  · rintro ⟨s, h⟩ u hu
    obtain ⟨a, b, hab, hb⟩ := walk.foldlM_steps
      (R := fun s t : cycle_state × rack ι => Frame env false false s.2 t.2)
      (fun s => Frame.refl _ _ _ s.2) (fun _ _ _ => Frame.trans)
      (fun _ _ _ _ ht => frame_cycle_line ht) h hu
    rw [← hab.succ]
    exact (cycle_line_ends env).mp ⟨b, hb⟩
  · intro h
    obtain ⟨t, ht, -⟩ := walk.foldlM_some (I := fun s : cycle_state × rack ι => s.2.succ = r.succ)
      (f := fun s u => cycle_line env fuel u .sync s.2) (l := r.m_raw_mainlines)
      (fun s hs u hu => by
        obtain ⟨t, ht⟩ := (cycle_line_ends env).mpr (hs ▸ h u hu : walk.Within s.2.succ fuel u)
        exact ⟨t, ht, (frame_cycle_line ht).succ.trans hs⟩)
      (s := (.empty, r)) rfl
    exact ⟨t, ht⟩

end strangeio.component
