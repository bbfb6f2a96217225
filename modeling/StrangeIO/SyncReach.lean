-- How far a pass goes: what one unit does in a pass, it does to itself, and a
-- unit that the pass does not lead to stays as it is.
import StrangeIO.CycleFrame

namespace strangeio.component

variable {ι : Type}

/-- What happens to the rack is the doing of one unit, which keeps its links. -/
structure Acts (u : ι) (r r' : rack ι) : Prop where
  others : ∀ v, v ≠ u → r'.units v = r.units v
  outputs : ∀ v, (r'.units v).m_outputs = (r.units v).m_outputs

theorem Acts.refl (u : ι) (r : rack ι) : Acts u r r := ⟨fun _ _ => rfl, fun _ => rfl⟩

theorem Acts.trans {u : ι} {a b c : rack ι} (h : Acts u a b) (g : Acts u b c) : Acts u a c :=
  ⟨fun v hv => (g.others v hv).trans (h.others v hv), fun v => (g.outputs v).trans (h.outputs v)⟩

theorem acts_of_units (u : ι) {r r' : rack ι} (h : r'.units = r.units) : Acts u r r' :=
  ⟨fun v _ => by rw [h], fun v => by rw [h]⟩

theorem Acts.succ {u : ι} {r r' : rack ι} (h : Acts u r r') : r'.succ = r.succ := by
  funext v
  unfold rack.succ unit.links
  rw [h.outputs]

variable [DecidableEq ι]

/-! ## What one unit does -/

theorem acts_modify (r : rack ι) (u : ι) (f : unit ι → unit ι)
    (hf : ∀ x, (f x).m_outputs = x.m_outputs) : Acts u r (r.modify u f) := by
  refine ⟨fun v hv => ?_, fun v => modify_field _ hf r u v⟩
  rw [modify_units, if_neg hv]

theorem acts_trigger_sync (u : ι) (flags : sync_flag) (r : rack ι) :
    Acts u r (unit.trigger_sync u flags r) := by
  have hmark : Acts u r
      (if flags.has sync_flags.upstream then r.modify u (unit.set_upstream true) else r) := by
    split
    · exact acts_modify r u _ fun _ => rfl
    · exact Acts.refl u r
  unfold unit.trigger_sync
  generalize (if flags.has sync_flags.upstream then r.modify u (unit.set_upstream true)
    else r) = r' at hmark ⊢
  simp only
  split
  · exact hmark.trans (acts_of_units u rfl)
  · exact hmark

theorem acts_requests (u : ι) (requests : List request) (r : rack ι) :
    Acts u r (requests.foldl (unit.perform u) r) := by
  induction requests generalizing r with
  | nil => exact Acts.refl u r
  | cons q requests ih =>
    rw [List.foldl_cons]
    refine Acts.trans ?_ (ih (unit.perform u r q))
    cases q with
    | trigger_sync flags => exact acts_trigger_sync u flags r
    | trigger_cycle => exact acts_of_units u rfl

theorem acts_resync (env : environment ι) (u : ι) (flags : sync_flag) (r : rack ι) :
    Acts u r (unit.resync env u flags r) := by
  have hcall : Acts u r { r with calls := r.calls ++ [.resync u flags] } := acts_of_units u rfl
  exact hcall.trans (acts_requests u (env.resync u flags r) _)

/-- The unit acts, and it may hand the pass on in between. -/
def Passes (cont : ι → sync_profile → sync_flag → rack ι → Option (Pass ι)) (u : ι) (r : rack ι)
    (pass : Pass ι) : Prop :=
  Acts u r pass.2 ∨
    ∃ q flags r1 s, Acts u r r1 ∧ cont u q flags r1 = some s ∧ Acts u s.2 pass.2

section classes

variable {env : environment ι}
  {cont : ι → sync_profile → sync_flag → rack ι → Option (Pass ι)}

omit [DecidableEq ι] in
theorem passes_on {u : ι} {q : sync_profile} {flags : sync_flag} {r r1 : rack ι} {pass : Pass ι}
    (h : Acts u r r1) (hcont : cont u q flags r1 = some pass) : Passes cont u r pass :=
  .inr ⟨q, flags, r1, pass, h, hcont, Acts.refl u _⟩

theorem passes_unit {u : ι} {p : sync_profile} {flags : sync_flag} {line : Nat} {r : rack ι}
    {pass : Pass ι} (h : unit.sync_line env cont u p flags line r = some pass) :
    Passes cont u r pass := by
  unfold unit.sync_line at h
  split at h
  · obtain ⟨s, h1, h2⟩ := Option.bind_eq_some_iff.mp h
    cases h2
    refine .inr ⟨_, _, r, s, Acts.refl u r, h1, ?_⟩
    exact (acts_modify s.2 u (record_global s.1) fun _ => rfl).trans (acts_resync env u flags _)
  · split at h
    · split at h
      · obtain ⟨s, h1, h2⟩ := Option.bind_eq_some_iff.mp h
        cases h2
        refine .inr ⟨_, _, _, s, ?_, h1, acts_modify s.2 u (unit.set_profile s.1) fun _ => rfl⟩
        exact (acts_modify r u (unit.set_upstream false) fun _ => rfl).trans
          (acts_resync env u flags _)
      · exact passes_on (acts_modify r u (unit.register_metric .state p.state) fun _ => rfl) h
    · obtain ⟨s, h1, h2⟩ := Option.bind_eq_some_iff.mp h
      cases h2
      exact .inr ⟨_, _, r, s, Acts.refl u r, h1, acts_resync env u _ _⟩

theorem passes_mainline {u : ι} {p : sync_profile} {flags : sync_flag} {line : Nat} {r : rack ι}
    {pass : Pass ι} (h : mainline.sync_line env cont u p flags line r = some pass) :
    Passes cont u r pass := by
  unfold mainline.sync_line at h
  split at h
  · refine passes_on ?_ h
    split
    · exact (acts_modify r u (unit.set_upstream false) fun _ => rfl).trans
        (acts_resync env u flags _)
    · exact Acts.refl u r
  · exact passes_unit h

theorem passes_combine {u : ι} {p : sync_profile} {flags : sync_flag} {line : Nat} {r : rack ι}
    {pass : Pass ι} (h : combine.sync_line env cont u p flags line r = some pass) :
    Passes cont u r pass := by
  have hturn : ∀ (b : Bool) (v : Int), Acts u r ((r.modify u (combine.set_input line b)).modify u
      (unit.register_metric .state v)) := fun b v =>
    (acts_modify r u (combine.set_input line b) fun _ => rfl).trans
      (acts_modify _ u (unit.register_metric .state v) fun _ => rfl)
  have hset : ∀ b : Bool, Acts u r (r.modify u (combine.set_input line b)) := fun b =>
    acts_modify r u _ fun _ => rfl
  unfold combine.sync_line at h
  split at h
  · split at h
    · simp only at h
      split at h
      · exact passes_on (hturn true _) h
      · cases h
        exact .inl (hset true)
    · simp only at h
      split at h
      · split at h
        · exact passes_on (hturn false _) h
        · cases h
          exact .inl (hset false)
      · cases h
        exact .inl (hset false)
  · exact passes_unit h

theorem passes_dispatch {u : ι} {p : sync_profile} {flags : sync_flag} {line : Nat} {r : rack ι}
    {pass : Pass ι} (h : dispatch.sync_line env cont u p flags line r = some pass) :
    Passes cont u r pass := by
  unfold dispatch.sync_line at h
  split at h
  · split at h
    · cases h
      exact .inl (Acts.refl u r)
    · have hsync : Acts u r (unit.trigger_sync u sync_flags.glob_sync
          (r.modify u (unit.register_metric .state p.state))) :=
        (acts_modify r u (unit.register_metric .state p.state) fun _ => rfl).trans
          (acts_trigger_sync u _ _)
      simp only at h
      split at h
      · cases h
        exact .inl (hsync.trans (acts_of_units u rfl))
      · cases h
        exact .inl hsync
  · exact passes_unit h

theorem passes_sync_line {u : ι} {p : sync_profile} {flags : sync_flag} {line : Nat} {r : rack ι}
    {pass : Pass ι} (h : dispatch_sync_line env cont u p flags line r = some pass) :
    Passes cont u r pass := by
  unfold dispatch_sync_line at h
  split at h
  · exact passes_unit h
  · exact passes_mainline h
  · exact passes_combine h
  · exact passes_dispatch h

end classes

/-! ## What a pass does not reach -/

omit [DecidableEq ι] in
/-- The units below leave a unit alone that none of them leads to. -/
theorem links_stay {sync_line : ι → sync_profile → sync_flag → Nat → rack ι → Option (Pass ι)}
    {env : environment ι}
    (hframed : ∀ line, Framed env fun u p flags r => sync_line u p flags line r)
    {v : ι}
    (hstays : ∀ u p flags line r pass, sync_line u p flags line r = some pass →
      ¬ Relation.ReflTransGen (walk.Edge r.succ) u v → pass.2.units v = r.units v)
    {u : ι} {p : sync_profile} {flags : sync_flag} {r : rack ι} {pass : Pass ι}
    (h : continue_sync sync_line u p flags r = some pass)
    (hv : ¬ Relation.TransGen (walk.Edge r.succ) u v) : pass.2.units v = r.units v := by
  rw [continue_sync_links] at h
  have hstep : ∀ a b : Pass ι, ∀ l ∈ (r.units u).links,
      sync_line l.1 a.1 flags l.2 a.2 = some b →
      a.2.succ = r.succ → b.2.units v = a.2.units v ∧ b.2.succ = r.succ := by
    intro a b l hl hab ha
    have hframe := (hframed l.2 l.1 a.1 flags a.2 b hab).succ
    refine ⟨hstays _ _ _ _ _ _ hab ?_, hframe.trans ha⟩
    rw [ha]
    exact fun hreach => hv (Relation.TransGen.head' (List.mem_map_of_mem hl) hreach)
  have hfold := walk.foldlM_relates
    (R := fun a b : Pass ι => a.2.succ = r.succ →
      b.2.units v = a.2.units v ∧ b.2.succ = r.succ)
    (fun _ ha => ⟨rfl, ha⟩)
    (fun _ _ _ hab hbc ha => ⟨(hbc (hab ha).2).1.trans (hab ha).1, (hbc (hab ha).2).2⟩) hstep h
  exact (hfold rfl).1

/-- A unit that the pass does not lead to stays as it is. -/
theorem sync_line_stays {env : environment ι} {fuel : Nat} {u v : ι} {p : sync_profile}
    {flags : sync_flag} {line : Nat} {r : rack ι} {pass : Pass ι}
    (h : sync_line env fuel u p flags line r = some pass)
    (hv : ¬ Relation.ReflTransGen (walk.Edge r.succ) u v) : pass.2.units v = r.units v := by
  induction fuel generalizing u p flags line r pass with
  | zero => cases h
  | succ fuel ih =>
    have hne : v ≠ u := fun hvu => hv (hvu ▸ Relation.ReflTransGen.refl)
    rcases passes_sync_line h with hacts | ⟨q, f, r1, s, hacts, hcont, hback⟩
    · exact hacts.others v hne
    · have hbelow : s.2.units v = r1.units v := by
        refine links_stay (framed_sync_line env fuel) (fun _ _ _ _ _ _ => ih) hcont ?_
        rw [hacts.succ]
        exact fun hreach => hv hreach.to_reflTransGen
      rw [hback.others v hne, hbelow, hacts.others v hne]

/-- The units below leave the unit itself alone, where no way leads back to it. -/
theorem continue_sync_stays {env : environment ι} {fuel : Nat} {u v : ι} {p : sync_profile}
    {flags : sync_flag} {r : rack ι} {pass : Pass ι}
    (h : continue_sync (sync_line env fuel) u p flags r = some pass)
    (hv : ¬ Relation.TransGen (walk.Edge r.succ) u v) : pass.2.units v = r.units v :=
  links_stay (framed_sync_line env fuel) (fun _ _ _ _ _ _ => sync_line_stays) h hv

end strangeio.component
