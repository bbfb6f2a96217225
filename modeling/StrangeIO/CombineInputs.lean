-- A combine beside its inputs (spec/combine.cpp). It writes its own state only
-- where the global state that it has recorded is not the new one yet, so the
-- state follows the inputs as long as the global syncs come in between.
import StrangeIO.GlobalSync
import StrangeIO.SyncReach
import StrangeIO.Transition

namespace strangeio.component

variable {ι : Type}

/-- The inputs of a combine are all off at first. `n` is the number of them. -/
def combine.init_input_states (n : Nat) (x : unit ι) : unit ι :=
  { x with m_input_state := List.replicate n false }

/-- What is left of a combine after an upstream sync on a line. -/
def combine.told (line : Nat) (state : Int) (x : unit ι) : unit ι :=
  if state = line_state.active.toInt then
    let x := combine.set_input line true x
    if x.m_global_profile.state = line_state.inactive.toInt then
      unit.register_metric .state line_state.active.toInt x
    else x
  else
    let x := combine.set_input line false x
    if x.m_global_profile.state = line_state.active.toInt ∧ combine.all_inactive x then
      unit.register_metric .state line_state.inactive.toInt x
    else x

/-! ## The calls -/

/-- A call of `sync_line`. -/
structure arrival where
  profile : sync_profile
  flags : sync_flag
  line : Nat

/-- An upstream sync on one of `n` lines, active or inactive, or a global sync. -/
def arrival.fits (n : Nat) (a : arrival) : Prop :=
  (a.flags.has sync_flags.upstream = true → a.line < n ∧
    (a.profile.state = line_state.active.toInt ∨ a.profile.state = line_state.inactive.toInt)) ∧
  (¬ a.flags.has sync_flags.upstream = true → a.flags.has sync_flags.glob_sync = true)

instance (n : Nat) (a : arrival) : Decidable (a.fits n) :=
  inferInstanceAs (Decidable (_ ∧ _))

/-- The last upstream state of each line: whether it was active. -/
def arrival.noted (a : arrival) (heard : Nat → Bool) : Nat → Bool :=
  if a.flags.has sync_flags.upstream then
    Function.update heard a.line (a.profile.state = line_state.active.toInt)
  else heard

/-- The rack of the combine, and the last upstream state of each of its lines. -/
structure listening (ι : Type) where
  whole : rack ι
  heard : Nat → Bool

/-- The combine's own state is active just when that of a line was. -/
def tracks (u : ι) (n : Nat) (s : listening ι) : Prop :=
  (s.whole.units u).m_unit_profile.state = line_state.active.toInt ↔ ∃ i < n, s.heard i = true

/-- An upstream sync that turns on the first line, or turns off the last one,
meets a combine whose recorded global state is the old one. -/
def in_step (u : ι) (n : Nat) (s : listening ι) (a : arrival) : Prop :=
  a.flags.has sync_flags.upstream = true →
    (a.profile.state = line_state.active.toInt → (∀ i < n, s.heard i = false) →
      (s.whole.units u).m_global_profile.state = line_state.inactive.toInt) ∧
    (¬ a.profile.state = line_state.active.toInt → (∀ i < n, s.heard i = true ↔ i = a.line) →
      (s.whole.units u).m_global_profile.state = line_state.active.toInt)

instance (u : ι) (n : Nat) (s : listening ι) : Decidable (tracks u n s) :=
  inferInstanceAs (Decidable (_ ↔ _))

instance (u : ι) (n : Nat) (s : listening ι) (a : arrival) : Decidable (in_step u n s a) :=
  inferInstanceAs (Decidable (_ → _ ∧ _))

/-- A combine of `n` inputs that has just been initialised. What is below it
ends, and so does not lead back to it. -/
structure Initialised (u : ι) (n fuel : Nat) (s : listening ι) : Prop where
  same_class : (s.whole.units u).m_class = .combine
  inputs : s.whole.units u = combine.init_input_states n (s.whole.units u)
  state : (s.whole.units u).m_unit_profile.state = line_state.inactive.toInt
  silent : ∀ i, s.heard i = false
  ends : walk.Within s.whole.succ fuel u

/-- The inputs are what the lines have told. -/
structure Listens (u : ι) (n fuel : Nat) (s : listening ι) : Prop where
  same_class : (s.whole.units u).m_class = .combine
  length : (s.whole.units u).m_input_state.length = n
  inputs : ∀ i < n, (s.whole.units u).m_input_state[i]? = some (s.heard i)
  ends : walk.Within s.whole.succ fuel u

theorem Initialised.listens {u : ι} {n fuel : Nat} {s : listening ι}
    (h : Initialised u n fuel s) : Listens u n fuel s where
  same_class := h.same_class
  length := by
    rw [h.inputs]
    simp [combine.init_input_states]
  inputs i hi := by
    rw [h.inputs, h.silent]
    simp [combine.init_input_states, hi]
  ends := h.ends

theorem Initialised.tracks {u : ι} {n fuel : Nat} {s : listening ι}
    (h : Initialised u n fuel s) : tracks u n s := by
  unfold component.tracks
  rw [h.state]
  simp [h.silent, line_state.toInt]

/-- Where the paths from a unit end, none comes back to it. -/
theorem not_back_of_within {succ : ι → List ι} {k : Nat} {u : ι} (h : walk.Within succ k u) :
    ¬ Relation.TransGen (walk.Edge succ) u u :=
  h.acyclicFrom u Relation.ReflTransGen.refl

variable [DecidableEq ι]

/-- The calls of the combine `u`, each to its end. -/
def listening.hear (env : environment ι) (fuel : Nat) (u : ι) (n : Nat) (s : listening ι)
    (a : arrival) : Option (listening ι) :=
  if a.fits n then
    (sync_line env fuel u a.profile a.flags a.line s.whole).map fun pass =>
      { whole := pass.2, heard := a.noted s.heard }
  else none

def hearings (env : environment ι) (fuel : Nat) (u : ι) (n : Nat) :
    transition.System (listening ι) arrival :=
  transition.machine (Initialised u n fuel) (listening.hear env fuel u n)

/-! ## One call -/

section calls

variable {env : environment ι} {fuel : Nat} {u : ι} {n : Nat}

/-- The units below do not come back to the combine, so it is left as it was told. -/
theorem combine_told {p : sync_profile} {flags : sync_flag} {line : Nat} {r : rack ι}
    {pass : Pass ι} (hclass : (r.units u).m_class = .combine)
    (hup : flags.has sync_flags.upstream = true)
    (hback : ¬ Relation.TransGen (walk.Edge r.succ) u u)
    (h : sync_line env fuel u p flags line r = some pass) :
    pass.2.units u = combine.told line p.state (r.units u) := by
  obtain ⟨k, rfl⟩ : ∃ k, fuel = k + 1 := by
    cases fuel with
    | zero => cases h
    | succ k => exact ⟨k, rfl⟩
  unfold sync_line dispatch_sync_line at h
  rw [hclass] at h
  unfold combine.sync_line at h
  simp only at h
  rw [if_pos hup] at h
  have hself : ∀ (r : rack ι) (f : unit ι → unit ι), (r.modify u f).units u = f (r.units u) := by
    intro r f
    rw [modify_units, if_pos rfl]
  have hbelow : ∀ (b : Bool) (state : Int) (s : Pass ι),
      continue_sync (sync_line env k) u p flags ((r.modify u (combine.set_input line b)).modify u
        (unit.register_metric .state state)) = some s →
      s.2.units u = unit.register_metric .state state (combine.set_input line b (r.units u)) := by
    intro b state s hs
    have hacts : Acts u r ((r.modify u (combine.set_input line b)).modify u
        (unit.register_metric .state state)) :=
      (acts_modify r u (combine.set_input line b) fun _ => rfl).trans
        (acts_modify _ u (unit.register_metric .state state) fun _ => rfl)
    rw [continue_sync_stays hs (by rwa [hacts.succ]), hself, hself]
  unfold combine.told
  split at h
  · rename_i hactive
    rw [if_pos hactive]
    simp only [hself] at h ⊢
    split at h
    · rename_i hglobal
      rw [if_pos hglobal]
      exact hbelow true _ pass h
    · rename_i hglobal
      cases h
      rw [if_neg hglobal, hself]
  · rename_i hactive
    rw [if_neg hactive]
    simp only [hself] at h ⊢
    split at h
    · rename_i hglobal
      split at h
      · rename_i hall
        rw [if_pos ⟨hglobal, hall⟩]
        exact hbelow false _ pass h
      · rename_i hall
        cases h
        rw [if_neg fun hboth => hall hboth.2, hself]
    · rename_i hglobal
      cases h
      rw [if_neg fun hboth => hglobal hboth.1, hself]

omit [DecidableEq ι] in
theorem told_fields (line : Nat) (state : Int) (x : unit ι) :
    (combine.told line state x).m_class = x.m_class ∧
      (combine.told line state x).m_input_state =
        x.m_input_state.set line (state = line_state.active.toInt) := by
  unfold combine.told
  split
  · rename_i hactive
    simp only [hactive, decide_true]
    split
    · exact ⟨rfl, rfl⟩
    · exact ⟨rfl, rfl⟩
  · rename_i hactive
    simp only [hactive, decide_false]
    split
    · exact ⟨rfl, rfl⟩
    · exact ⟨rfl, rfl⟩

/-- A call leaves the inputs as the lines have told. -/
theorem Listens.hear {s t : listening ι} {a : arrival} (h : Listens u n fuel s)
    (ht : s.hear env fuel u n a = some t) : Listens u n fuel t := by
  unfold listening.hear at ht
  split at ht
  · obtain ⟨pass, hpass, rfl⟩ := Option.map_eq_some_iff.mp ht
    have hframe := framed_sync_line env fuel a.line u a.profile a.flags s.whole pass hpass
    have hends : walk.Within pass.2.succ fuel u := hframe.succ ▸ h.ends
    by_cases hup : a.flags.has sync_flags.upstream = true
    · have htold := combine_told h.same_class hup (not_back_of_within h.ends) hpass
      obtain ⟨hclass, hinputs⟩ := told_fields a.line a.profile.state (s.whole.units u)
      refine ⟨?_, ?_, ?_, hends⟩
      · rw [htold, hclass]
        exact h.same_class
      · rw [htold, hinputs, List.length_set]
        exact h.length
      · intro i hi
        simp only [htold, hinputs, arrival.noted]
        rw [if_pos hup, List.getElem?_set, Function.update_apply]
        by_cases hline : i = a.line
        · subst hline
          rw [if_pos rfl, if_pos rfl, h.length, if_pos hi]
        · rw [if_neg (Ne.symm hline), if_neg hline]
          exact h.inputs i hi
    · have hno : a.flags.has sync_flags.upstream = false := by simpa using hup
      refine ⟨(hframe.same_class u).trans h.same_class, ?_, ?_, hends⟩
      · rw [hframe.inputs hno]
        exact h.length
      · intro i hi
        simp only [hframe.inputs hno, arrival.noted]
        rw [if_neg hup]
        exact h.inputs i hi
  · cases ht

omit [DecidableEq ι] in
/-- After a line was turned off no input is on just when no other line is. -/
theorem Listens.all_inactive {s : listening ι} (h : Listens u n fuel s) (line : Nat) :
    combine.all_inactive (combine.set_input line false (s.whole.units u)) = true ↔
      ∀ i < n, i ≠ line → s.heard i = false := by
  unfold combine.all_inactive combine.set_input
  simp only [List.all_eq_true, Bool.not_eq_true']
  constructor
  · intro hall i hi hne
    apply hall
    apply List.mem_of_getElem? (i := i)
    rw [List.getElem?_set_ne (Ne.symm hne), h.inputs i hi]
  · intro hothers b hb
    obtain ⟨i, hi⟩ := List.mem_iff_getElem?.mp hb
    obtain ⟨hlt, -⟩ := List.getElem?_eq_some_iff.mp hi
    rw [List.length_set, h.length] at hlt
    by_cases hline : i = line
    · subst hline
      rw [List.getElem?_set_self (by rw [h.length]; exact hlt)] at hi
      exact (Option.some.inj hi).symm
    · rw [List.getElem?_set_ne (Ne.symm hline), h.inputs i hlt] at hi
      rw [← Option.some.inj hi]
      exact hothers i hlt hline

omit [DecidableEq ι] in
/-- A line that turns on leaves the combine active, unless the combine waits
for a global sync that it has not had. -/
theorem tracks_active {s : listening ι} (hs : tracks u n s) {line : Nat} (hline : line < n) :
    ((combine.told line line_state.active.toInt (s.whole.units u)).m_unit_profile.state =
        line_state.active.toInt ↔ ∃ i < n, Function.update s.heard line true i = true) ↔
      ((∀ i < n, s.heard i = false) →
        (s.whole.units u).m_global_profile.state = line_state.inactive.toInt) := by
  have hon : ∃ i < n, Function.update s.heard line true i = true :=
    ⟨line, hline, Function.update_self line true s.heard⟩
  have hquiet : (∀ i < n, s.heard i = false) ↔ ¬ ∃ i < n, s.heard i = true := by
    simp
  rw [iff_true_right hon, hquiet, ← not_congr hs]
  unfold combine.told
  rw [if_pos rfl]
  by_cases hglobal : (s.whole.units u).m_global_profile.state = line_state.inactive.toInt
  · have hset : (combine.set_input line true (s.whole.units u)).m_global_profile.state =
        line_state.inactive.toInt := hglobal
    simp only [hset, hglobal, if_true, implies_true, iff_true]
    rfl
  · have hset : ¬ (combine.set_input line true (s.whole.units u)).m_global_profile.state =
        line_state.inactive.toInt := hglobal
    simp only [hset, hglobal, if_false, imp_false, not_not]
    rfl

omit [DecidableEq ι] in
/-- A line that turns off leaves the combine as it is or inactive: it is active
after the last line only where the combine waits for a global sync. -/
theorem tracks_inactive {s : listening ι} (hl : Listens u n fuel s) (hs : tracks u n s)
    {line : Nat} (hline : line < n) {state : Int} (hstate : state ≠ line_state.active.toInt) :
    ((combine.told line state (s.whole.units u)).m_unit_profile.state =
        line_state.active.toInt ↔ ∃ i < n, Function.update s.heard line false i = true) ↔
      ((∀ i < n, s.heard i = true ↔ i = line) →
        (s.whole.units u).m_global_profile.state = line_state.active.toInt) := by
  have hrest : (∃ i < n, Function.update s.heard line false i = true) ↔
      ∃ i < n, i ≠ line ∧ s.heard i = true := by
    simp only [Function.update_apply]
    grind
  have hall := hl.all_inactive line
  unfold combine.told
  rw [if_neg hstate, hrest]
  simp only
  by_cases hothers : ∀ i < n, i ≠ line → s.heard i = false
  · have hnone : ¬ ∃ i < n, i ≠ line ∧ s.heard i = true := by
      rintro ⟨i, hi, hne, hon⟩
      rw [hothers i hi hne] at hon
      cases hon
    have hlast : (∀ i < n, s.heard i = true ↔ i = line) ↔ ∃ i < n, s.heard i = true := by
      grind
    rw [iff_false_right hnone, hlast]
    unfold tracks at hs
    rw [← hs]
    by_cases hglobal : (s.whole.units u).m_global_profile.state = line_state.active.toInt
    · rw [if_pos ⟨hglobal, hall.mpr hothers⟩]
      simp only [hglobal, implies_true, iff_true]
      change line_state.inactive.toInt ≠ line_state.active.toInt
      decide
    · rw [if_neg fun hboth => hglobal hboth.1]
      simp only [hglobal, imp_false]
      rfl
  · obtain ⟨i, hi, hne, hon⟩ : ∃ i < n, i ≠ line ∧ s.heard i = true := by
      push Not at hothers
      obtain ⟨i, hi, hne, hon⟩ := hothers
      exact ⟨i, hi, hne, by simpa using hon⟩
    rw [if_neg fun hboth => hothers (hall.mp hboth.2)]
    have hactive : (combine.set_input line false (s.whole.units u)).m_unit_profile.state =
        line_state.active.toInt := hs.mpr ⟨i, hi, hon⟩
    refine iff_of_true (iff_of_true hactive ⟨i, hi, hne, hon⟩) fun honly => ?_
    exact absurd ((honly i hi).mp hon) hne

/-- A call keeps the combine in line with its inputs just when it comes in step. -/
theorem tracks_hear {s t : listening ι} {a : arrival} (hl : Listens u n fuel s)
    (hs : tracks u n s) (ht : s.hear env fuel u n a = some t) :
    tracks u n t ↔ in_step u n s a := by
  unfold listening.hear at ht
  split at ht
  · rename_i hfits
    obtain ⟨pass, hpass, rfl⟩ := Option.map_eq_some_iff.mp ht
    by_cases hup : a.flags.has sync_flags.upstream = true
    · have htold := combine_told hl.same_class hup (not_back_of_within hl.ends) hpass
      obtain ⟨hline, -⟩ := hfits.1 hup
      unfold tracks in_step arrival.noted
      simp only [htold, hup, if_true, forall_const]
      by_cases hactive : a.profile.state = line_state.active.toInt
      · simp only [hactive, decide_true, forall_const, not_true_eq_false, false_implies, and_true]
        exact tracks_active hs hline
      · simp only [hactive, decide_false, not_false_eq_true, forall_const, false_implies, true_and]
        exact tracks_inactive hl hs hline hactive
    · have hno : a.flags.has sync_flags.upstream = false := by simpa using hup
      have hframe := framed_sync_line env fuel a.line u a.profile a.flags s.whole pass hpass
      refine iff_of_true ?_ fun h => absurd h hup
      unfold tracks arrival.noted
      rw [if_neg hup, hframe.registered hno]
      exact hs
  · cases ht

/-- Every call of the combine ends. -/
theorem Listens.ends_call {s : listening ι} (h : Listens u n fuel s) {a : arrival}
    (hfits : a.fits n) : ∃ t, s.hear env fuel u n a = some t := by
  obtain ⟨pass, hpass⟩ := ends_sync_line env h.ends a.line a.profile a.flags s.whole rfl
  refine ⟨{ whole := pass.2, heard := a.noted s.heard }, ?_⟩
  unfold listening.hear
  rw [if_pos hfits]
  exact Option.map_eq_some_iff.mpr ⟨pass, hpass, rfl⟩

theorem listens_run {s t : listening ι} {as : List arrival}
    (h : transition.Run (hearings env fuel u n) s as t) (hs : Listens u n fuel s) :
    Listens u n fuel t :=
  h.keeps (fun _ _ _ hl hstep => hl.hear hstep) hs

end calls

/-! ## Whole runs -/

/-- Every call of a combine ends, and its state follows its inputs over the
runs in which each call comes in step with the global syncs, and over no others. -/
theorem a_combine_tracks_its_inputs_in_step (env : environment ι) (fuel : Nat) (u : ι) (n : Nat)
    (s : listening ι) (h : Initialised u n fuel s) :
    (∀ as t, transition.Run (hearings env fuel u n) s as t →
      ∀ a : arrival, a.fits n → ∃ t', t.hear env fuel u n a = some t') ∧
    ∀ as t, transition.Run ((hearings env fuel u n).within (tracks u n)) s as t ↔
      transition.Run ((hearings env fuel u n).guarded (in_step u n)) s as t := by
  constructor
  · intro as t hrun a hfits
    exact (listens_run hrun h.listens).ends_call hfits
  · intro as t
    exact transition.run_within_iff (I := Listens u n fuel)
      (fun _ _ _ hl hs hstep => ⟨hl.hear hstep, tracks_hear hl hs hstep⟩) h.listens h.tracks

/-! ## A combine alone -/

/-- A combine of one input with nothing behind it. -/
def lone_combine : listening Unit where
  whole := rack.new (fun _ => combine.init_input_states 1 { m_class := .combine }) []
  heard _ := false

theorem lone_combine_initialised : Initialised () 1 1 lone_combine := by
  refine ⟨rfl, rfl, rfl, fun _ => rfl, ?_⟩
  intro v hv
  cases hv

/-- An upstream sync on the one line. -/
def arrival.on_line (state : line_state) : arrival :=
  ⟨{ state := state.toInt }, sync_flags.upstream, 0⟩

/-- A global sync with the state of the rack. -/
def arrival.of_rack (state : line_state) : arrival :=
  ⟨{ state := state.toInt }, sync_flags.glob_sync, 0⟩

/-- With a global sync after each change the combine follows its line. -/
theorem a_combine_follows_its_line :
    ∃ t, transition.Run ((hearings .quiet 1 () 1).within (tracks () 1)) lone_combine
      [.on_line .active, .of_rack .active, .on_line .inactive, .of_rack .inactive] t := by
  obtain ⟨-, hruns⟩ := a_combine_tracks_its_inputs_in_step .quiet 1 () 1 lone_combine
    lone_combine_initialised
  have hstates : (([.on_line .active, .of_rack .active, .on_line .inactive, .of_rack .inactive] :
      List arrival).foldlM (fun s a => if in_step () 1 s a then
        listening.hear .quiet 1 () 1 s a else none) lone_combine).isSome = true := by decide
  obtain ⟨t, ht⟩ := Option.isSome_iff_exists.mp hstates
  exact ⟨t, (hruns _ t).mpr ((transition.Run.nil _).machine_guarded ht)⟩

/-- The line turns on and off again before the global sync: the combine stays active. -/
theorem a_combine_misses_its_line_turning_off :
    Initialised () 1 1 lone_combine ∧
    ∃ t, transition.Run (hearings .quiet 1 () 1) lone_combine
      [.on_line .active, .on_line .inactive] t ∧ ¬ tracks () 1 t := by
  refine ⟨lone_combine_initialised, ?_⟩
  have hstates : (([.on_line .active, .on_line .inactive] : List arrival).foldlM
      (listening.hear .quiet 1 () 1) lone_combine).any (fun t => ¬ tracks () 1 t) = true := by
    decide
  obtain ⟨t, ht, hnot⟩ := (Option.any_eq_true _ _).mp hstates
  exact ⟨t, (transition.Run.nil _).machine ht, of_decide_eq_true hnot⟩

end strangeio.component
