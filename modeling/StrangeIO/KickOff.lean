-- How many cycles an activation kicks off (spec/combine.cpp and
-- spec/dispatch.cpp). The combine and the dispatch both decide by the global
-- state that they have recorded, which is the same for all lines of a pass, so
-- each line that is active comes through to the dispatch.
import StrangeIO.CombineInputs
import StrangeIO.LineLaws

namespace strangeio.component

variable {ι : Type}

/-- No unit asks for a cycle when it resyncs. -/
def environment.starts_no_cycle (env : environment ι) : Prop :=
  ∀ u flags r, .trigger_cycle ∉ env.resync u flags r

/-- A unit that was marked by its own request does not ask for an upstream sync again. -/
def environment.asks_once (env : environment ι) (u : ι) : Prop :=
  ∀ flags, env.may_ask u flags → ¬ flags.has sync_flags.upstream = true

/-- The state that comes out behind the steps: a marked one hands on its own. -/
def handed_on (r : rack ι) : List ι → Int → Int
  | [], state => state
  | x :: steps, state =>
    handed_on r steps
      (if (r.units x).m_upstream then (r.units x).m_unit_profile.state else state)

theorem handed_on_congr {r r' : rack ι} {steps : List ι} (state : Int)
    (h : ∀ x ∈ steps, r'.units x = r.units x) :
    handed_on r' steps state = handed_on r steps state := by
  induction steps generalizing state with
  | nil => rfl
  | cons x steps ih =>
    rw [handed_on, handed_on, h x List.mem_cons_self]
    exact ih _ fun y hy => h y (List.mem_cons_of_mem _ hy)

theorem handed_on_unmarked {r : rack ι} {steps : List ι} (state : Int)
    (h : ∀ x ∈ steps, (r.units x).m_upstream = false) : handed_on r steps state = state := by
  induction steps with
  | nil => rfl
  | cons x steps ih =>
    rw [handed_on, h x List.mem_cons_self]
    exact ih fun y hy => h y (List.mem_cons_of_mem _ hy)

/-! ## What the dispatch has to do with it -/

/-- The dispatch asked for a global sync and stands registered active: that is
where it calls `trigger_cycle`, and the only place. -/
def kicked [DecidableEq ι] (d : ι) (r r' : rack ι) : Prop :=
  (d, sync_flags.glob_sync) ∈ r'.asked.drop r.asked.length ∧
    (r'.units d).m_unit_profile.state = line_state.active.toInt

instance [DecidableEq ι] (d : ι) (r r' : rack ι) : Decidable (kicked d r r') :=
  inferInstanceAs (Decidable (_ ∧ _))

/-- What happens without the dispatch. -/
structure Aside (env : environment ι) (d : ι) (r r' : rack ι) : Prop where
  asked : ∃ asks, r'.asked = r.asked ++ asks ∧ ∀ ask ∈ asks, ask.1 ≠ d
  dispatch : r'.units d = r.units d
  queue : env.starts_no_cycle → r'.m_cycle_queue = r.m_cycle_queue

/-- The dispatch kicks off a cycle, or it does not. -/
structure Kicks (env : environment ι) (d : ι) (kick : Prop) (r r' : rack ι) : Prop where
  asked : ∃ asks, r'.asked = r.asked ++ asks ∧
    ((d, sync_flags.glob_sync) ∈ asks ∧
      (r'.units d).m_unit_profile.state = line_state.active.toInt ↔ kick)
  queue : env.starts_no_cycle →
    (kick → r'.m_cycle_queue = memory.int32 (r.m_cycle_queue + 1)) ∧
    (¬ kick → r'.m_cycle_queue = r.m_cycle_queue)

section kicks

variable {env : environment ι} {d : ι} {kick : Prop} {a b c : rack ι}

theorem Aside.refl (env : environment ι) (d : ι) (r : rack ι) : Aside env d r r :=
  ⟨⟨[], (List.append_nil _).symm, fun _ h => absurd h List.not_mem_nil⟩, rfl, fun _ => rfl⟩

theorem Aside.trans (h : Aside env d a b) (g : Aside env d b c) : Aside env d a c := by
  obtain ⟨⟨asks, h1, h2⟩, h3, h4⟩ := h
  obtain ⟨⟨more, g1, g2⟩, g3, g4⟩ := g
  refine ⟨⟨asks ++ more, ?_, ?_⟩, g3.trans h3, fun hcalm => (g4 hcalm).trans (h4 hcalm)⟩
  · rw [g1, h1, List.append_assoc]
  · intro ask hask
    rcases List.mem_append.mp hask with hask | hask
    · exact h2 ask hask
    · exact g2 ask hask

theorem Aside.kicks (h : Aside env d a b) : Kicks env d False a b := by
  obtain ⟨⟨asks, h1, h2⟩, -, h3⟩ := h
  refine ⟨⟨asks, h1, ?_⟩, fun hcalm => ⟨False.elim, fun _ => h3 hcalm⟩⟩
  exact iff_of_false (fun hboth => h2 _ hboth.1 rfl) not_false

theorem Kicks.after (h : Aside env d a b) (g : Kicks env d kick b c) : Kicks env d kick a c := by
  obtain ⟨⟨asks, h1, h2⟩, -, h3⟩ := h
  obtain ⟨⟨more, g1, g2⟩, g3⟩ := g
  refine ⟨⟨asks ++ more, ?_, ?_⟩, fun hcalm => ?_⟩
  · rw [g1, h1, List.append_assoc]
  · rw [List.mem_append, ← g2]
    apply and_congr_left
    intro _
    exact or_iff_right fun hask => h2 _ hask rfl
  · rw [← h3 hcalm]
    exact g3 hcalm

theorem Kicks.before (h : Kicks env d kick a b) (g : Aside env d b c) : Kicks env d kick a c := by
  obtain ⟨⟨asks, h1, h2⟩, h3⟩ := h
  obtain ⟨⟨more, g1, g2⟩, g3, g4⟩ := g
  refine ⟨⟨asks ++ more, ?_, ?_⟩, fun hcalm => ?_⟩
  · rw [g1, h1, List.append_assoc]
  · rw [List.mem_append, g3, ← h2]
    apply and_congr_left
    intro _
    exact or_iff_left fun hask => g2 _ hask rfl
  · rw [g4 hcalm]
    exact h3 hcalm

theorem Kicks.congr {kick' : Prop} (h : Kicks env d kick a b) (hkick : kick ↔ kick') :
    Kicks env d kick' a b := propext hkick ▸ h

theorem Kicks.kicked [DecidableEq ι] (h : Kicks env d kick a b) : kicked d a b ↔ kick := by
  obtain ⟨⟨asks, h1, h2⟩, -⟩ := h
  unfold component.kicked
  rw [h1, List.drop_left]
  exact h2

end kicks

variable [DecidableEq ι]

/-! ## One unit -/

/-- A unit asks in its own name. -/
theorem aside_requests (env : environment ι) {u d : ι} (hne : u ≠ d) (requests : List request)
    (hcalm : env.starts_no_cycle → .trigger_cycle ∉ requests) (r : rack ι) :
    Aside env d r (requests.foldl (unit.perform u) r) := by
  induction requests generalizing r with
  | nil => exact Aside.refl env d r
  | cons q requests ih =>
    rw [List.foldl_cons]
    refine Aside.trans ?_ (ih (fun h => fun hmem => hcalm h (List.mem_cons_of_mem _ hmem)) _)
    have hunit : (unit.perform u r q).units d = r.units d :=
      (acts_requests u [q] r).others d hne.symm
    cases q with
    | trigger_cycle => exact ⟨⟨[], (List.append_nil _).symm, fun _ h => absurd h List.not_mem_nil⟩,
        hunit, fun h => absurd List.mem_cons_self (hcalm h)⟩
    | trigger_sync flags =>
      have hmark : ∀ r' : rack ι, r' = (if flags.has sync_flags.upstream then
          r.modify u (unit.set_upstream true) else r) → r'.asked = r.asked ∧
            r'.m_cycle_queue = r.m_cycle_queue := by
        rintro r' rfl
        split
        · exact ⟨rfl, rfl⟩
        · exact ⟨rfl, rfl⟩
      change Aside env d r (unit.trigger_sync u flags r)
      change (unit.trigger_sync u flags r).units d = r.units d at hunit
      unfold unit.trigger_sync at hunit ⊢
      generalize (if flags.has sync_flags.upstream then r.modify u (unit.set_upstream true)
        else r) = r' at hmark hunit ⊢
      obtain ⟨h1, h2⟩ := hmark r' rfl
      simp only at hunit ⊢
      split at hunit
      · rename_i hrack
        rw [if_pos hrack]
        refine ⟨⟨[(u, flags)], by rw [← h1], ?_⟩, hunit, fun _ => h2⟩
        intro ask hask
        rw [List.mem_singleton.mp hask]
        exact hne
      · rename_i hrack
        rw [if_neg hrack]
        refine ⟨⟨[], by rw [h1, List.append_nil], ?_⟩, hunit, fun _ => h2⟩
        exact fun _ h => absurd h List.not_mem_nil

theorem aside_resync (env : environment ι) {u d : ι} (hne : u ≠ d) (flags : sync_flag)
    (r : rack ι) : Aside env d r (unit.resync env u flags r) := by
  have hcall : Aside env d r { r with calls := r.calls ++ [.resync u flags] } :=
    ⟨⟨[], (List.append_nil _).symm, fun _ h => absurd h List.not_mem_nil⟩, rfl, fun _ => rfl⟩
  exact hcall.trans (aside_requests env hne (env.resync u flags r) (fun h => h u flags r) _)

theorem aside_modify (env : environment ι) {u d : ι} (hne : u ≠ d) (r : rack ι)
    (f : unit ι → unit ι) : Aside env d r (r.modify u f) := by
  refine ⟨⟨[], (List.append_nil _).symm, fun _ h => absurd h List.not_mem_nil⟩, ?_, fun _ => rfl⟩
  rw [modify_units, if_neg hne.symm]

/-- The dispatch kicks off where it hears that the line turned active. -/
theorem dispatch_kicks (env : environment ι) (k : Nat) {d : ι} (p : sync_profile) (line : Nat)
    {r : rack ι} (hclass : (r.units d).m_class = .dispatch) (hmounted : (r.units d).m_rack = true)
    (hstate : (r.units d).m_global_profile.state = line_state.inactive.toInt) :
    ∃ pass, sync_line env (k + 1) d p sync_flags.upstream line r = some pass ∧
      Kicks env d (p.state = line_state.active.toInt) r pass.2 := by
  unfold sync_line dispatch_sync_line
  rw [hclass]
  unfold dispatch.sync_line
  simp only
  rw [if_pos has_upstream_self, hstate]
  by_cases hsame : p.state = line_state.inactive.toInt
  · rw [if_pos hsame]
    refine ⟨(p, r), rfl, (Aside.refl env d r).kicks.congr ?_⟩
    rw [hsame]
    decide
  · rw [if_neg hsame]
    have hself : (r.modify d (unit.register_metric .state p.state)).units d =
        unit.register_metric .state p.state (r.units d) := by
      rw [modify_units, if_pos rfl]
    have hglob : ¬ sync_flag.has sync_flags.glob_sync sync_flags.upstream = true := by decide
    have hsync : unit.trigger_sync d sync_flags.glob_sync
        (r.modify d (unit.register_metric .state p.state)) =
        { (r.modify d (unit.register_metric .state p.state)).trigger_sync sync_flags.glob_sync with
          asked := r.asked ++ [(d, sync_flags.glob_sync)] } := by
      unfold unit.trigger_sync
      rw [if_neg hglob]
      simp only
      rw [if_pos (by rw [hself]; exact hmounted)]
      rfl
    rw [hsync]
    have hregistered : ((r.modify d (unit.register_metric .state p.state)).units
        d).m_unit_profile.state = p.state := by
      rw [hself]
      rfl
    split
    · rename_i hactive
      refine ⟨_, rfl, ⟨⟨[(d, sync_flags.glob_sync)], rfl, ?_⟩, fun _ => ⟨fun _ => rfl, ?_⟩⟩⟩
      · exact iff_of_true ⟨List.mem_singleton_self _, hregistered.trans hactive⟩ hactive
      · exact fun hnot => absurd hactive hnot
    · rename_i hactive
      refine ⟨_, rfl, ⟨⟨[(d, sync_flags.glob_sync)], rfl, ?_⟩, fun _ => ⟨?_, fun _ => rfl⟩⟩⟩
      · exact iff_of_false (fun hboth => hactive (hregistered.symm.trans hboth.2)) hactive
      · exact fun hyes => absurd hyes hactive

/-! ## The steps -/

omit [DecidableEq ι] in
/-- A row of units leads to those in it. -/
theorem reach_leads {r : rack ι} {d : ι} {steps : List ι} (h : leads r d steps) {v : ι}
    (hv : Relation.ReflTransGen (walk.Edge r.succ) (steps.headD d) v) : v ∈ steps ++ [d] := by
  have hleave := (walk.leave_mem_visits (within_leads h)).mpr hv
  rw [visits_leads h] at hleave
  simpa [or_comm] using hleave

/-- A marked unit takes back its mark and resyncs. -/
def lowered (env : environment ι) (x : ι) (r : rack ι) : rack ι :=
  unit.resync env x sync_flags.upstream (r.modify x (unit.set_upstream false))

/-- It stays unmarked if it asks once. -/
theorem lowered_resync (env : environment ι) {x : ι} {r : rack ι}
    (hmounted : (r.units x).m_rack = true) (honce : env.asks_once x) :
    ((lowered env x r).units x).m_upstream = false := by
  obtain ⟨asks, -, -, hallowed, hraised⟩ :=
    (frame_resync env x sync_flags.upstream (r.modify x (unit.set_upstream false))).requested
  have hself : (r.modify x (unit.set_upstream false)).units x =
      unit.set_upstream false (r.units x) := by
    rw [modify_units, if_pos rfl]
  have hraised := hraised x (by rw [hself]; exact hmounted)
  rw [← Bool.not_eq_true]
  intro hmark
  rcases hraised hmark with hmark | ⟨flags, hmem, hup⟩
  · rw [hself] at hmark
    cases hmark
  · rcases hallowed _ hmem with hask | ⟨hno, -⟩
    · exact honce flags hask hup
    · cases hno

theorem lowers (env : environment ι) {x d : ι} (hxd : x ≠ d) (r : rack ι) :
    Frame env false false r (lowered env x r) ∧ Acts x r (lowered env x r) ∧
      Aside env d r (lowered env x r) := by
  refine ⟨(frame_lower env false false r x).trans (frame_resync env x _ _), ?_, ?_⟩
  · exact (acts_modify r x (unit.set_upstream false) fun _ => rfl).trans
      (acts_resync env x sync_flags.upstream _)
  · exact (aside_modify env hxd r (unit.set_upstream false)).trans
      (aside_resync env hxd sync_flags.upstream _)

/-- What a pass behind the combine finds. -/
structure Behind (env : environment ι) (steps : List ι) (d : ι) (r : rack ι) : Prop where
  tail : leads r d steps
  mounted : ∀ x, (r.units x).m_rack = true
  step_class : ∀ x ∈ steps, (r.units x).m_class = .unit
  asks_once : ∀ x ∈ steps, (r.units x).m_upstream = true → env.asks_once x
  dispatch_class : (r.units d).m_class = .dispatch
  dispatch_state : (r.units d).m_global_profile.state = line_state.inactive.toInt

omit [DecidableEq ι] in
theorem Behind.next {env : environment ι} {steps : List ι} {d x : ι} {r : rack ι}
    (h : Behind env (x :: steps) d r) : Behind env steps d r where
  tail := h.tail.2
  mounted := h.mounted
  step_class y hy := h.step_class y (List.mem_cons_of_mem _ hy)
  asks_once y hy := h.asks_once y (List.mem_cons_of_mem _ hy)
  dispatch_class := h.dispatch_class
  dispatch_state := h.dispatch_state

omit [DecidableEq ι] in
/-- A unit in front of the steps acts, and they are as they were. -/
theorem Behind.after {env : environment ι} {steps : List ι} {d x : ι} {r r1 : rack ι}
    (h : Behind env steps d r) (hx : x ∉ steps ++ [d]) (hacts : Acts x r r1)
    (hframe : Frame env false true r r1) : Behind env steps d r1 := by
  have hother : ∀ y ∈ steps ++ [d], r1.units y = r.units y := by
    intro y hy
    apply hacts.others
    rintro rfl
    exact hx hy
  have hd := hother d (List.mem_append_right _ (List.mem_singleton_self d))
  refine ⟨leads_congr hframe.links h.tail,
    fun y => (hframe.mounted y).trans (h.mounted y), ?_, ?_, ?_, ?_⟩
  · intro y hy
    rw [hother y (List.mem_append_left _ hy)]
    exact h.step_class y hy
  · intro y hy
    rw [hother y (List.mem_append_left _ hy)]
    exact h.asks_once y hy
  · rw [hd]
    exact h.dispatch_class
  · rw [hd]
    exact h.dispatch_state

/-- A pass behind the combine kicks off where it comes to the dispatch with the
line active, and leaves no step marked. -/
theorem steps_kick (env : environment ι) {steps : List ι} {d : ι} {k : Nat} {p : sync_profile}
    (line : Nat) {r : rack ι} (hk : steps.length + 1 ≤ k) (h : Behind env steps d r)
    (hnodup : (steps ++ [d]).Nodup) :
    ∃ pass, sync_line env k (steps.headD d) p sync_flags.upstream line r = some pass ∧
      Kicks env d (handed_on r steps p.state = line_state.active.toInt) r pass.2 ∧
      ∀ x ∈ steps, (pass.2.units x).m_upstream = false := by
  induction steps generalizing k p line r with
  | nil =>
    obtain ⟨k, rfl⟩ : ∃ k', k = k' + 1 := ⟨k - 1, by omega⟩
    obtain ⟨pass, hpass, hkicks⟩ :=
      dispatch_kicks env k p line h.dispatch_class (h.mounted d) h.dispatch_state
    exact ⟨pass, hpass, hkicks, fun x hx => absurd hx List.not_mem_nil⟩
  | cons x steps ih =>
    obtain ⟨k, rfl⟩ : ∃ k', k = k' + 1 := ⟨k - 1, by omega⟩
    obtain ⟨hx, hnodup⟩ := List.nodup_cons.mp hnodup
    have hxd : x ≠ d := fun hxd => hx (List.mem_append_right _ (List.mem_singleton.mpr hxd))
    have hclass := h.step_class x List.mem_cons_self
    obtain ⟨id, hid⟩ := h.tail.1
    -- what the step does first, and what it hands to the rest
    have hrest : ∀ (r1 : rack ι) (q : sync_profile), Acts x r r1 → Frame env false true r r1 →
        ∃ s, continue_sync (sync_line env k) x q sync_flags.upstream r1 = some s ∧
          Kicks env d (handed_on r steps q.state = line_state.active.toInt) r1 s.2 ∧
          s.2.units x = r1.units x ∧ ∀ y ∈ steps, (s.2.units y).m_upstream = false := by
      intro r1 q hacts hframe
      have hbehind := h.next.after hx hacts hframe
      obtain ⟨s, hs, hkicks, hlow⟩ := ih (k := k) (p := q) id
        (by rw [List.length_cons] at hk; omega) hbehind hnodup
      refine ⟨s, ?_, ?_, ?_, hlow⟩
      · have hlinks : (r1.units x).links = [(steps.headD d, id)] := by
          rw [hframe.links, hid]
        rw [continue_sync_links, hlinks, List.foldlM_cons, hs]
        rfl
      · rwa [handed_on_congr q.state fun y hy => hacts.others y fun hyx =>
          hx (hyx ▸ List.mem_append_left _ hy)] at hkicks
      · apply sync_line_stays hs
        exact fun hreach => hx (reach_leads hbehind.tail hreach)
    change ∃ pass, sync_line env (k + 1) x p sync_flags.upstream line r = some pass ∧ _
    unfold sync_line dispatch_sync_line
    rw [hclass]
    unfold unit.sync_line
    simp only
    rw [if_neg has_upstream_glob, if_pos has_upstream_self, handed_on]
    by_cases hmark : (r.units x).m_upstream = true
    · rw [if_pos hmark, if_pos hmark]
      obtain ⟨hframe, hacts, haside⟩ := lowers env hxd r
      obtain ⟨s, hs, hkicks, hself, hlow⟩ := hrest (lowered env x r)
        ((lowered env x r).units x).m_unit_profile hacts (hframe.weaken false true)
      refine ⟨(p, s.2.modify x (unit.set_profile s.1)), ?_, ?_, ?_⟩
      · change (continue_sync (sync_line env k) x ((lowered env x r).units x).m_unit_profile
          sync_flags.upstream (lowered env x r)).bind _ = _
        rw [hs]
        rfl
      · rw [hframe.registered rfl x] at hkicks
        exact (Kicks.after haside hkicks).before (aside_modify env hxd s.2 _)
      · intro y hy
        have hset := modify_field (·.m_upstream) (f := unit.set_profile s.1) (fun _ => rfl) s.2 x y
        refine hset.trans ?_
        rcases List.mem_cons.mp hy with rfl | hy
        · rw [hself]
          exact lowered_resync env (h.mounted y) (h.asks_once y List.mem_cons_self hmark)
        · exact hlow y hy
    · rw [if_neg hmark, if_neg hmark]
      let r1 := r.modify x (unit.register_metric .state p.state)
      have hself : r1.units x = unit.register_metric .state p.state (r.units x) := by
        rw [modify_units, if_pos rfl]
      have hlow : (r1.units x).m_upstream = false := by
        rw [hself]
        exact Bool.not_eq_true _ ▸ hmark
      have hframe : Frame env false true r r1 :=
        frame_modify r x (fun _ => ⟨rfl, rfl, rfl⟩) (fun _ h => h) (fun _ _ => rfl)
          (fun hf => by cases hf) (fun hf => by cases hf)
      obtain ⟨s, hs, hkicks, hstays, hlows⟩ := hrest r1 p
        (acts_modify r x (unit.register_metric .state p.state) fun _ => rfl) hframe
      refine ⟨s, hs, Kicks.after (aside_modify env hxd r _) hkicks, ?_⟩
      intro y hy
      rcases List.mem_cons.mp hy with rfl | hy
      · rw [hstays]
        exact hlow
      · exact hlows y hy

/-! ## The lines -/

/-- The combine and the dispatch have recorded that the rack is inactive. -/
structure Idle (env : environment ι) (c : Daisychain ι) (r : rack ι) : Prop where
  wired : c.Wired r
  asks_once : ∀ x ∈ c.steps, (r.units x).m_upstream = true → env.asks_once x
  combine_state : (r.units c.combine).m_global_profile.state = line_state.inactive.toInt
  dispatch_state : (r.units c.dispatch).m_global_profile.state = line_state.inactive.toInt

omit [DecidableEq ι] in
theorem Idle.behind {env : environment ι} {c : Daisychain ι} {r : rack ι} (h : Idle env c r) :
    Behind env c.steps c.dispatch r where
  tail := h.wired.tail.2
  mounted := h.wired.mounted
  step_class := h.wired.step_class
  asks_once := h.asks_once
  dispatch_class := h.wired.dispatch_class
  dispatch_state := h.dispatch_state

omit [DecidableEq ι] in
theorem Daisychain.Wired.combine_apart {c : Daisychain ι} {r : rack ι} (h : c.Wired r) :
    c.combine ∉ c.steps ++ [c.dispatch] := by
  obtain ⟨-, h1, h2, -⟩ := h.apart
  simp [h1, h2]

/-- What the units behind the combine make of a line: an active one may kick off
a cycle, and leaves no step marked. -/
structure Hears (env : environment ι) (c : Daisychain ι) (state : Int) (r r' : rack ι) : Prop where
  active : state = line_state.active.toInt →
    Kicks env c.dispatch (handed_on r c.steps state = line_state.active.toInt) r r' ∧
      ∀ x ∈ c.steps, (r'.units x).m_upstream = false
  other : state ≠ line_state.active.toInt →
    Kicks env c.dispatch False r r' ∧ ∀ x ∈ c.steps, r'.units x = r.units x

section combine

variable {env : environment ι} {c : Daisychain ι} {r : rack ι}

/-- The combine lets every active line through while its recorded state is inactive. -/
theorem Idle.combine_hears (h : Idle env c r) {k : Nat} (hk : c.steps.length + 1 ≤ k)
    (p : sync_profile) (line : Nat) :
    ∃ pass, sync_line env (k + 1) c.combine p sync_flags.upstream line r = some pass ∧
      Hears env c p.state r pass.2 := by
  have hapart := h.wired.combine_apart
  obtain ⟨-, hcs, hcd, hnodup, -⟩ := h.wired.apart
  have hset : ∀ b, Acts c.combine r (r.modify c.combine (combine.set_input line b)) := fun b =>
    acts_modify r c.combine _ fun _ => rfl
  have hglobal : ∀ b, ((r.modify c.combine (combine.set_input line b)).units
      c.combine).m_global_profile.state = line_state.inactive.toInt := by
    intro b
    rw [modify_units, if_pos rfl]
    exact h.combine_state
  have hoff : ¬ line_state.inactive.toInt = line_state.active.toInt := by decide
  unfold sync_line dispatch_sync_line
  rw [h.wired.combine_class]
  unfold combine.sync_line
  simp only
  rw [if_pos has_upstream_self, hglobal, hglobal, if_pos rfl, if_neg hoff]
  by_cases hactive : p.state = line_state.active.toInt
  · rw [if_pos hactive]
    let r1 := (r.modify c.combine (combine.set_input line true)).modify c.combine
      (unit.register_metric .state line_state.active.toInt)
    have hacts : Acts c.combine r r1 := (hset true).trans (acts_modify _ c.combine
      (unit.register_metric .state line_state.active.toInt) fun _ => rfl)
    have hframe : Frame env false true r r1 := by
      have hinput : Frame env false true r (r.modify c.combine (combine.set_input line true)) :=
        frame_modify r c.combine (fun _ => ⟨rfl, rfl, rfl⟩) (fun _ h => h) (fun _ _ => rfl)
          (fun hf => by cases hf) (fun hf => by cases hf)
      exact hinput.trans (frame_modify _ c.combine (fun _ => ⟨rfl, rfl, rfl⟩) (fun _ h => h)
        (fun _ _ => rfl) (fun hf => by cases hf) (fun hf => by cases hf))
    have haside : Aside env c.dispatch r r1 :=
      (aside_modify env hcd r _).trans (aside_modify env hcd _ _)
    obtain ⟨⟨id, hid⟩, -⟩ := h.wired.tail
    obtain ⟨s, hs, hkicks, hlow⟩ := steps_kick env id hk (p := p)
      (h.behind.after hapart hacts hframe) hnodup
    rw [handed_on_congr p.state fun y hy => hacts.others y fun hyc => hcs (hyc ▸ hy)] at hkicks
    refine ⟨s, ?_, fun _ => ⟨Kicks.after haside hkicks, hlow⟩, fun hno => absurd hactive hno⟩
    have hlinks : (r1.units c.combine).links = [(c.steps.headD c.dispatch, id)] := by
      rw [hframe.links, hid]
    change continue_sync (sync_line env k) c.combine p sync_flags.upstream r1 = some s
    rw [continue_sync_links, hlinks, List.foldlM_cons, hs]
    rfl
  · rw [if_neg hactive]
    refine ⟨_, rfl, fun hyes => absurd hyes hactive, fun _ => ⟨?_, ?_⟩⟩
    · exact (aside_modify env hcd r _).kicks
    · exact fun x hx => (hset false).others x fun hxc => hcs (hxc ▸ hx)

/-- What a mainline does first, before it tells the combine: the units behind it
stay as they are. -/
theorem Idle.lowers (h : Idle env c r) {u : ι} (hu : u ∈ c.mainlines) {r1 : rack ι}
    (hr1 : r1 = if (r.units u).m_upstream then lowered env u r else r) :
    Idle env c r1 ∧ Frame env false false r r1 ∧ Aside env c.dispatch r r1 ∧
      ∀ x ∈ c.steps, r1.units x = r.units x := by
  obtain ⟨hus, -⟩ := h.wired.apart
  obtain ⟨huc, husteps, hud⟩ := hus u hu
  have hboth : Frame env false false r r1 ∧ Acts u r r1 ∧ Aside env c.dispatch r r1 := by
    rw [hr1]
    split
    · exact component.lowers env hud r
    · exact ⟨Frame.refl _ _ _ r, Acts.refl u r, Aside.refl env _ r⟩
  obtain ⟨hframe, hacts, haside⟩ := hboth
  have hsteps : ∀ x ∈ c.steps, r1.units x = r.units x := fun x hx =>
    hacts.others x fun hxu => husteps (hxu ▸ hx)
  have hcombine : r1.units c.combine = r.units c.combine := hacts.others _ (Ne.symm huc)
  refine ⟨⟨h.wired.congr hframe.mainlines
    (fun x => ⟨hframe.outputs x, hframe.same_class x, hframe.mounted x⟩) (by rw [hcombine]),
    ?_, ?_, ?_⟩, hframe, haside, hsteps⟩
  · intro x hx
    rw [hsteps x hx]
    exact h.asks_once x hx
  · rw [hframe.recorded rfl]
    exact h.combine_state
  · rw [hframe.recorded rfl]
    exact h.dispatch_state

/-- A mainline tells the combine its own state. The other mainlines stay as they are. -/
theorem Idle.line_hears (h : Idle env c r) {fuel : Nat} (hfuel : c.depth ≤ fuel) {u : ι}
    (hu : u ∈ c.mainlines) (p : sync_profile) :
    ∃ pass, sync_line env fuel u p sync_flags.upstream 0 r = some pass ∧ Idle env c pass.2 ∧
      Hears env c (r.units u).m_unit_profile.state r pass.2 ∧
      ∀ v ∈ c.mainlines,
        (pass.2.units v).m_unit_profile.state = (r.units v).m_unit_profile.state := by
  unfold Daisychain.depth at hfuel
  obtain ⟨k, rfl⟩ : ∃ k, fuel = k + 2 := ⟨fuel - 2, by omega⟩
  obtain ⟨hus, -⟩ := h.wired.apart
  let r1 := if (r.units u).m_upstream then lowered env u r else r
  have hr1 : r1 = if (r.units u).m_upstream then lowered env u r else r := rfl
  obtain ⟨h1, hframe, haside, hsteps⟩ := h.lowers hu hr1
  let q : sync_profile := { p with state := (r1.units u).m_unit_profile.state }
  have hq : q.state = (r.units u).m_unit_profile.state := by
    change (r1.units u).m_unit_profile.state = _
    rw [hframe.registered rfl]
  obtain ⟨pass, hpass, hhears⟩ := h1.combine_hears (k := k) (by omega) q (c.line u)
  have hwhole : sync_line env (k + 2) u p sync_flags.upstream 0 r = some pass := by
    change dispatch_sync_line env _ u p sync_flags.upstream 0 r = some pass
    unfold dispatch_sync_line
    rw [h.wired.mainline_class u hu]
    unfold mainline.sync_line
    simp only
    rw [if_pos has_upstream_self, continue_sync_links]
    change (r1.units u).links.foldlM _ (q, r1) = _
    rw [h1.wired.mainline_links u hu, List.foldlM_cons, hpass]
    rfl
  have hback := not_back_of_within (within_leads h1.wired.tail)
  have htold := combine_told h1.wired.combine_class has_upstream_self hback hpass
  have hpassed : Frame env false true r1 pass.2 :=
    framed_sync_line env (k + 1) (c.line u) c.combine q sync_flags.upstream r1 pass hpass
  have hhears' : Hears env c (r.units u).m_unit_profile.state r pass.2 := by
    rw [← hq]
    constructor
    · intro hactive
      obtain ⟨hkicks, hlow⟩ := hhears.active hactive
      rw [handed_on_congr q.state hsteps] at hkicks
      exact ⟨Kicks.after haside hkicks, hlow⟩
    · intro hother
      obtain ⟨hkicks, hsame⟩ := hhears.other hother
      exact ⟨Kicks.after haside hkicks, fun x hx => (hsame x hx).trans (hsteps x hx)⟩
  refine ⟨pass, hwhole, ⟨?_, ?_, ?_, ?_⟩, hhears', ?_⟩
  · refine h1.wired.congr hpassed.mainlines
      (fun x => ⟨hpassed.outputs x, hpassed.same_class x, hpassed.mounted x⟩) ?_
    rw [htold, (told_fields _ _ _).2, List.length_set]
  · intro x hx hmark
    by_cases hactive : (r.units u).m_unit_profile.state = line_state.active.toInt
    · rw [(hhears'.active hactive).2 x hx] at hmark
      cases hmark
    · rw [(hhears'.other hactive).2 x hx] at hmark
      exact h.asks_once x hx hmark
  · rw [hpassed.recorded rfl]
    exact h1.combine_state
  · rw [hpassed.recorded rfl]
    exact h1.dispatch_state
  · intro v hv
    obtain ⟨hvc, hvsteps, hvd⟩ := hus v hv
    have hstays : pass.2.units v = r1.units v := by
      apply sync_line_stays hpass
      intro hreach
      have hmem : v ∈ c.combine :: c.steps ++ [c.dispatch] := reach_leads h1.wired.tail hreach
      simp [hvc, hvsteps, hvd] at hmem
    rw [hstays, hframe.registered rfl]

end combine

/-! ## The upstream sync of a pass -/

/-- How often the dispatch kicks off a cycle while the lines are synced upstream in turn. -/
def kick_offs (env : environment ι) (fuel : Nat) (d : ι) : List ι → rack ι → Option (Nat × rack ι)
  | [], r => some (0, r)
  | u :: lines, r => do
    let pass ← sync_line env fuel u r.m_global_profile sync_flags.upstream 0 r
    let rest ← kick_offs env fuel d lines pass.2
    some ((if kicked d r pass.2 then 1 else 0) + rest.1, rest.2)

/-- The lines that are registered active. -/
def active_lines (r : rack ι) (lines : List ι) : Nat :=
  lines.countP fun u => (r.units u).m_unit_profile.state = line_state.active.toInt

theorem kick_offs_rack {env : environment ι} {fuel : Nat} {d : ι} {lines : List ι}
    {r r' : rack ι} {n : Nat} (h : kick_offs env fuel d lines r = some (n, r')) :
    lines.foldlM (fun r u =>
      (sync_line env fuel u r.m_global_profile sync_flags.upstream 0 r).map (·.2)) r = some r' := by
  induction lines generalizing r n with
  | nil =>
    cases h
    rfl
  | cons u lines ih =>
    obtain ⟨pass, hpass, h⟩ := Option.bind_eq_some_iff.mp h
    obtain ⟨⟨m, r2⟩, hrest, h⟩ := Option.bind_eq_some_iff.mp h
    cases h
    rw [List.foldlM_cons, hpass]
    exact ih hrest

/-- The first active line brings the state that the steps hand on, and each
line after it brings its own. -/
theorem Idle.lines_hear {env : environment ι} {c : Daisychain ι} {r : rack ι} (h : Idle env c r)
    {fuel : Nat} (hfuel : c.depth ≤ fuel) (lines : List ι) (hlines : ∀ u ∈ lines, u ∈ c.mainlines) :
    ∃ n r', kick_offs env fuel c.dispatch lines r = some (n, r') ∧
      n = (if handed_on r c.steps line_state.active.toInt = line_state.active.toInt then
        active_lines r lines else active_lines r lines - 1) ∧
      (env.starts_no_cycle →
        r'.m_cycle_queue = (fun q => memory.int32 (q + 1))^[n] r.m_cycle_queue) := by
  induction lines generalizing r with
  | nil => exact ⟨0, r, rfl, by simp [active_lines], fun _ => rfl⟩
  | cons u lines ih =>
    have hu := hlines u List.mem_cons_self
    have hrest := fun v hv => hlines v (List.mem_cons_of_mem u hv)
    obtain ⟨pass, hpass, hidle, hhears, hstates⟩ := h.line_hears hfuel hu r.m_global_profile
    obtain ⟨n, r', hkicks, hn, hqueue⟩ := ih hidle hrest
    have hcount : active_lines pass.2 lines = active_lines r lines := by
      apply List.countP_congr
      intro v hv
      rw [hstates v (hrest v hv)]
    rw [hcount] at hn
    refine ⟨(if kicked c.dispatch r pass.2 then 1 else 0) + n, r', ?_, ?_, ?_⟩
    · rw [kick_offs, hpass]
      change (kick_offs env fuel c.dispatch lines pass.2).bind _ = _
      rw [hkicks]
      rfl
    · unfold active_lines at hn ⊢
      rw [List.countP_cons]
      by_cases hactive : (r.units u).m_unit_profile.state = line_state.active.toInt
      · obtain ⟨hkick, hlow⟩ := hhears.active hactive
        rw [handed_on_unmarked _ hlow, if_pos rfl] at hn
        rw [hactive] at hkick
        simp only [hkick.kicked, hactive, decide_true, if_true, hn]
        split <;> omega
      · obtain ⟨hkick, hsame⟩ := hhears.other hactive
        rw [handed_on_congr _ hsame] at hn
        simp only [hkick.kicked, hactive, decide_false, if_false, Nat.zero_add]
        exact hn
    · intro hcalm
      rw [hqueue hcalm]
      by_cases hactive : (r.units u).m_unit_profile.state = line_state.active.toInt
      · obtain ⟨hkick, -⟩ := hhears.active hactive
        obtain ⟨hmoved, hheld⟩ := hkick.queue hcalm
        by_cases hkicked : kicked c.dispatch r pass.2
        · rw [if_pos hkicked, hmoved (hkick.kicked.mp hkicked), Nat.add_comm 1 n,
            Function.iterate_succ_apply]
        · rw [if_neg hkicked, hheld (mt hkick.kicked.mpr hkicked), Nat.zero_add]
      · obtain ⟨hkick, -⟩ := hhears.other hactive
        rw [if_neg hkick.kicked.mp, (hkick.queue hcalm).2 not_false, Nat.zero_add]

/-- The upstream sync of a rack that is inactive ends, and its dispatch kicks
off one cycle just when one line is active. Where a step has asked too and
hands on a state that is not active, the first active line brings that one, and
there is one cycle just when two lines are active. -/
theorem one_active_line_kicks_off_one_cycle (env : environment ι) (c : Daisychain ι) (r : rack ι)
    (h : Idle env c r) (hactive : 1 ≤ active_lines r c.mainlines) (fuel : Nat)
    (hfuel : c.depth ≤ fuel) :
    ∃ n r', backend.sync_upstream env fuel sync_flags.upstream r = some r' ∧
      kick_offs env fuel c.dispatch c.mainlines r = some (n, r') ∧
      (env.starts_no_cycle →
        r'.m_cycle_queue = (fun q => memory.int32 (q + 1))^[n] r.m_cycle_queue) ∧
      (n = 1 ↔ active_lines r c.mainlines =
        if handed_on r c.steps line_state.active.toInt = line_state.active.toInt
          then 1 else 2) := by
  obtain ⟨n, r', hkicks, hn, hqueue⟩ := h.lines_hear hfuel c.mainlines fun _ hu => hu
  have hsync : backend.sync_upstream env fuel sync_flags.upstream r = some r' := by
    unfold backend.sync_upstream
    rw [h.wired.mainlines]
    exact kick_offs_rack hkicks
  refine ⟨n, r', hsync, hkicks, hqueue, ?_⟩
  rw [hn]
  split <;> omega

/-! ## Two mainlines -/

/-- The first `k` of two mainlines have become active and have asked for the sync. -/
def two_mainlines_active (k : Nat) : rack (Fin 5) :=
  { two_mainlines_rack with
    units := fun u =>
      if u ∈ two_mainlines.mainlines.take k then
        unit.set_upstream true
          (unit.register_metric .state line_state.active.toInt (two_mainlines_rack.units u))
      else two_mainlines_rack.units u }

theorem two_mainlines_idle (k : Nat) :
    Idle .quiet two_mainlines (two_mainlines_active k) := by
  have hkeeps : ∀ {β : Type} (g : unit (Fin 5) → β),
      (∀ x, g (unit.set_upstream true (unit.register_metric .state line_state.active.toInt x)) =
        g x) → ∀ u, g ((two_mainlines_active k).units u) = g (two_mainlines_rack.units u) := by
    intro β g hg u
    unfold two_mainlines_active
    simp only
    split
    · exact hg _
    · rfl
  refine ⟨two_mainlines_fresh.wired.congr rfl (fun x => ⟨hkeeps _ (fun _ => rfl) x,
    hkeeps _ (fun _ => rfl) x, hkeeps _ (fun _ => rfl) x⟩) ?_, ?_, ?_, ?_⟩
  · rw [hkeeps (·.m_input_state) fun _ => rfl]
  · rintro x - - flags ⟨given, r, hask⟩
    cases hask
  · rw [hkeeps (·.m_global_profile) fun _ => rfl]
    rfl
  · rw [hkeeps (·.m_global_profile) fun _ => rfl]
    rfl

/-- One mainline turns active: the dispatch kicks off one cycle. -/
theorem the_first_mainline_kicks_off_once :
    ∃ r', kick_offs .quiet 4 two_mainlines.dispatch two_mainlines.mainlines
      (two_mainlines_active 1) = some (1, r') := by
  obtain ⟨n, r', -, hkicks, -, hiff⟩ := one_active_line_kicks_off_one_cycle .quiet two_mainlines
    (two_mainlines_active 1) (two_mainlines_idle 1) (by decide) 4 (by decide)
  obtain rfl : n = 1 := hiff.mpr (by decide)
  exact ⟨r', hkicks⟩

/-- Both mainlines turn active in one pass: the dispatch kicks off two cycles. -/
theorem two_mainlines_kick_off_twice :
    Idle .quiet two_mainlines (two_mainlines_active 2) ∧
    1 ≤ active_lines (two_mainlines_active 2) two_mainlines.mainlines ∧
    ∃ r', kick_offs .quiet 4 two_mainlines.dispatch two_mainlines.mainlines
        (two_mainlines_active 2) = some (2, r') ∧ r'.m_cycle_queue = 2 := by
  refine ⟨two_mainlines_idle 2, by decide, ?_⟩
  have hcount : (kick_offs .quiet 4 two_mainlines.dispatch two_mainlines.mainlines
      (two_mainlines_active 2)).map (fun s => (s.1, s.2.m_cycle_queue)) = some (2, 2) := by
    decide
  obtain ⟨s, hs, hpair⟩ := Option.map_eq_some_iff.mp hcount
  obtain ⟨hn, hqueue⟩ := Prod.mk.inj hpair
  refine ⟨s.2, ?_, hqueue⟩
  rw [hs, ← hn]

end strangeio.component
