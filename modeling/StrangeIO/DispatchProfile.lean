-- The dispatch at the end of all lines decides the period and the state of a
-- global sync (spec/dispatch.cpp): whatever a unit on the way does to them,
-- the walk goes on to the dispatch before any unit records them.
import StrangeIO.GlobalSync

namespace strangeio.component

variable {ι : Type}

/-- A state with flushing replaced by active. -/
def awake (state : Int) : Int :=
  if state = line_state.flushing.toInt then line_state.active.toInt else state

/-- The profile has the period and the state that the unit registers. -/
def decided (x : unit ι) (p : sync_profile) : Prop :=
  p.period = x.m_unit_profile.period ∧ p.state = awake x.m_unit_profile.state

theorem awake_not_flushing (state : Int) : awake state ≠ line_state.flushing.toInt := by
  unfold awake
  split
  · decide
  · assumption

theorem decided_not_flushing {x : unit ι} {p : sync_profile} (h : decided x p) :
    p.state ≠ line_state.flushing.toInt := by
  rw [h.2]
  exact awake_not_flushing _

theorem entered_dispatch {x : unit ι} {p : sync_profile} (hclass : x.m_class = .dispatch)
    (hp : p.state ≠ line_state.flushing.toInt) : decided x (entered x p) := by
  have hperiod := overridden_period x p
  have hstate := overridden_state (x := x) hp
  rw [if_pos hclass] at hperiod hstate
  refine ⟨?_, ?_⟩
  · rw [entered_eq]
    simp [apply_unit_profile, hperiod]
  · rw [entered_state_eq, hstate]
    unfold awake
    split
    · rfl
    · rfl

variable [DecidableEq ι]

/-! ## The walk to the dispatch -/

/-- The walk comes back with what the dispatch registers, and so do the units
below, whatever it started with: other units that had it keep it. -/
def settles_to (env : environment ι) (r : rack ι) (d : ι) (es : List (walk.Visit ι))
    (below : ι → Prop) : Prop :=
  ∀ (pass : Pass ι) (known : ι → Prop), Frame env true false r pass.2 →
    pass.1.state ≠ line_state.flushing.toInt →
    (∀ v, known v → decided (r.units d) (pass.2.units v).m_global_profile) →
    decided (r.units d) (es.foldl (visit env) pass).1 ∧
      ∀ v, known v ∨ below v →
        decided (r.units d) ((es.foldl (visit env) pass).2.units v).m_global_profile

/-- What a unit records on the way back, and the units that it leaves alone. -/
theorem recorded_leave (env : environment ι) (pass : Pass ι) (u v : ι) :
    ((visit env pass (.leave u)).2.units v).m_global_profile =
      if v = u then (record_global pass.1 (pass.2.units u)).m_global_profile
      else (pass.2.units v).m_global_profile := by
  have hrec : ((visit env pass (.leave u)).2.units v).m_global_profile =
      ((pass.2.modify u (record_global pass.1)).units v).m_global_profile :=
    (frame_resync env u _ _).recorded rfl v
  rw [hrec, modify_units]
  split <;> rfl

section walks

variable {env : environment ι} {r : rack ι} {d : ι} {k : Nat}

/-- The walks from several units in turn, one of them at least. -/
theorem tour_settles {vs : List ι} (hvs : vs ≠ [])
    (h : ∀ w ∈ vs, settles_to env r d (walk.visits r.succ k w)
      (Relation.ReflTransGen (walk.Edge r.succ) w)) :
    settles_to env r d (walk.tour r.succ k vs)
      fun v => ∃ w ∈ vs, Relation.ReflTransGen (walk.Edge r.succ) w v := by
  induction vs with
  | nil => exact absurd rfl hvs
  | cons w vs ih =>
    intro pass known hframe hstate hknown
    obtain ⟨h1, h2⟩ := h w List.mem_cons_self pass known hframe hstate hknown
    rw [walk.tour, List.flatMap_cons, List.foldl_append]
    by_cases hnil : vs = []
    · subst hnil
      refine ⟨h1, fun v hv => h2 v ?_⟩
      simpa using hv
    · obtain ⟨h3, h4⟩ := ih hnil (fun x hx => h x (List.mem_cons_of_mem _ hx)) _ _
        (hframe.trans (frame_visits env _ pass)) (decided_not_flushing h1) h2
      refine ⟨h3, fun v hv => h4 v ?_⟩
      simp only [List.mem_cons, exists_eq_or_imp] at hv
      rwa [or_assoc]

/-- The walk ends with the unit that it started from, which records what came back. -/
theorem settles_leave {es : List (walk.Visit ι)} {below : ι → Prop} {u : ι}
    (h : settles_to env r d es below) :
    settles_to env r d (es ++ [.leave u]) fun v => below v ∨ v = u := by
  intro pass known hframe hstate hknown
  obtain ⟨h1, h2⟩ := h pass known hframe hstate hknown
  rw [List.foldl_append]
  refine ⟨h1, ?_⟩
  intro v hv
  simp only [List.foldl_cons, List.foldl_nil]
  rw [recorded_leave]
  split
  · exact h1
  · rename_i hne
    exact h2 v (by tauto)

theorem visit_enter {pass : Pass ι} (hframe : Frame env true false r pass.2) (u : ι) :
    visit env pass (.enter u) = (entered (r.units u) pass.1, pass.2) :=
  congrArg (·, pass.2)
    (congrFun (entered_congr (hframe.same_class u) (hframe.registered rfl u)) pass.1)

/-- A walk whose paths all end at the dispatch goes on to it from every other unit. -/
theorem visits_settle_to (hclass : (r.units d).m_class = .dispatch) {u : ι}
    (hwithin : walk.Within r.succ k u)
    (hends : ∀ v, Relation.ReflTransGen (walk.Edge r.succ) u v → r.succ v = [] → v = d) :
    settles_to env r d (walk.visits r.succ k u) (Relation.ReflTransGen (walk.Edge r.succ) u) := by
  induction k generalizing u with
  | zero => exact hwithin.elim
  | succ k ih =>
    intro pass known hframe hstate hknown
    rw [walk.visits, List.foldl_cons, visit_enter hframe]
    by_cases hlast : r.succ u = []
    · obtain rfl := hends u .refl hlast
      have hdecided := entered_dispatch hclass hstate
      rw [hlast]
      refine ⟨hdecided, ?_⟩
      intro v hv
      change decided _ ((visit env _ (.leave u)).2.units v).m_global_profile
      rw [recorded_leave]
      split
      · exact hdecided
      · rename_i hne
        refine hknown v (hv.resolve_right fun hreach => ?_)
        rcases Relation.ReflTransGen.cases_head hreach with rfl | ⟨w, hw, -⟩
        · exact hne rfl
        · rw [walk.Edge, hlast] at hw
          cases hw
    · have hbelow : settles_to env r d (walk.tour r.succ k (r.succ u)) _ :=
        tour_settles hlast fun w hw => ih (hwithin w hw)
          fun v hv => hends v (Relation.ReflTransGen.head hw hv)
      obtain ⟨h1, h2⟩ := settles_leave (u := u) hbelow (entered (r.units u) pass.1, pass.2) known
        hframe (entered_not_flushing _ _) hknown
      refine ⟨h1, fun v hv => h2 v ?_⟩
      rcases hv with hv | hv
      · exact .inl hv
      · rcases Relation.ReflTransGen.cases_head hv with rfl | ⟨w, hw, hreach⟩
        · exact .inr (.inr rfl)
        · exact .inr (.inl ⟨w, hw, hreach⟩)

end walks

/-- Where every path from a mainline ends at one dispatch, a global sync leaves
the period and the state that the dispatch registers, flushing replaced by
active, in the rack's profile and in every unit below a mainline. -/
theorem the_dispatch_decides_period_and_state [Fintype ι] (env : environment ι) (r : rack ι)
    (fuel : Nat) (d : ι) (hacyclic : walk.Acyclic r.succ) (hfuel : Fintype.card ι ≤ fuel)
    (hlines : r.m_raw_mainlines ≠ []) (hclass : (r.units d).m_class = .dispatch)
    (hends : ∀ u ∈ r.m_raw_mainlines, ∀ v, Relation.ReflTransGen (walk.Edge r.succ) u v →
      r.succ v = [] → v = d)
    (hstate : r.m_global_profile.state ≠ line_state.flushing.toInt) :
    ∃ r', backend.sync env fuel sync_flags.glob_sync r = some r' ∧
      decided (r.units d) r'.m_global_profile ∧
      ∀ u ∈ r.m_raw_mainlines, ∀ v, Relation.ReflTransGen (walk.Edge r.succ) u v →
        decided (r.units d) (r'.units v).m_global_profile := by
  have hwithin := within_of_acyclic hacyclic hfuel
  obtain ⟨r', hr'⟩ := (sync_ends env sync_flags.glob_sync).mpr hwithin
  obtain ⟨hunits, hprofile⟩ := sync_glob_recorded hr'
  have htour : settles_to env r d (walk.tour r.succ fuel r.m_raw_mainlines) _ :=
    tour_settles hlines fun u hu => visits_settle_to hclass (hwithin u hu) (hends u hu)
  obtain ⟨h1, h2⟩ := htour (r.m_global_profile, r) (fun _ => False) (Frame.refl _ _ _ r) hstate
    fun _ h => h.elim
  refine ⟨r', hr', ?_, ?_⟩
  · rwa [hprofile]
  · intro u hu v hreach
    rw [hunits v]
    exact h2 v (.inr ⟨u, hu, hreach⟩)

/-- The dispatch of the chain registers its period, and is inactive. -/
theorem a_chain_ends_at_its_dispatch :
    ∃ r', backend.sync .quiet 2 sync_flags.glob_sync chain = some r' ∧
      decided (chain.units 1) r'.m_global_profile ∧
      ∀ u ∈ chain.m_raw_mainlines, ∀ v, Relation.ReflTransGen (walk.Edge chain.succ) u v →
        decided (chain.units 1) (r'.units v).m_global_profile := by
  have hacyclic : walk.Acyclic chain.succ := walk.acyclic_of_rank Fin.val (by decide)
  have hlast : ∀ v, chain.succ v = [] → v = 1 := by decide
  exact the_dispatch_decides_period_and_state .quiet chain 2 1 hacyclic (by decide) (by decide) rfl
    (fun _ _ v _ hv => hlast v hv) (by decide)

end strangeio.component
