-- The laws of the links between units: when the flags on both ends of the
-- links say what the pointers say. A call updates the ends that it sees, so
-- an input that an output leaves without `disconnect` keeps its flag, and
-- one of two outputs on an input takes the flag of both with it.
import StrangeIO.Linkable
import StrangeIO.Transition

namespace strangeio.component

variable {ι : Type} [DecidableEq ι]

/-! ## The calls -/

/-- A call of `connect` takes the pointer that `get_input` gives. -/
inductive link_call (ι : Type) where
  | connect (u : ι) (id : Int) (v : ι) (k : Int)
  | disconnect (u : ι) (id : Int)

namespace links

def perform (s : links ι) : link_call ι → Option (links ι)
  | .connect u id v k => some (s.connect u id (((s v).get_input k).map fun k => (v, k))).2
  | .disconnect u id => s.disconnect u id

theorem perform_connect (s : links ι) (u : ι) (id : Int) (v : ι) (k : Int) :
    s.perform (.connect u id v k) =
      some (s.connect u id (((s v).get_input k).map fun k => (v, k))).2 := rfl

theorem perform_disconnect (s : links ι) (u : ι) (id : Int) :
    s.perform (.disconnect u id) = s.disconnect u id := rfl

/-- No output is linked, and no input has its flag set. -/
def Unlinked (s : links ι) : Prop :=
  (∀ u i l, s.out u i = some l → l = { to_in := none, connected := false }) ∧
    ∀ v k b, s.inp v k = some b → b = false

/-- The runs of calls. Nothing is known of the links after an undefined call. -/
def calls : transition.System (Option (links ι)) (link_call ι) where
  start s := ∃ s', s = some s' ∧ s'.Unlinked
  step s c t := t = s.bind fun s => s.perform c

/-! ## The flags and the pointers -/

/-- The output is connected to the input. -/
def Leads (s : links ι) (u : ι) (i : Nat) (to_in : ι × Nat) : Prop :=
  ∃ l, s.out u i = some l ∧ l.connected = true ∧ l.to_in = some to_in

/-- The flags on both ends of the links agree with the pointers. -/
structure Agree (s : links ι) : Prop where
  outputs : ∀ u i l, s.out u i = some l → (l.connected = true ↔ l.to_in ≠ none)
  inputs : ∀ v k b, s.inp v k = some b → (b = true ↔ ∃ u i, s.Leads u i (v, k))

/-- Every pointer of an output points to an input. -/
def Targets (s : links ι) : Prop :=
  ∀ u i l v k, s.out u i = some l → l.to_in = some (v, k) → ∃ b, s.inp v k = some b

/-- Some other output is connected to the input too. -/
def Shared (s : links ι) (u : ι) (i : Nat) (to_in : ι × Nat) : Prop :=
  ∃ w j, ¬ (w = u ∧ j = i) ∧ s.Leads w j to_in

/-- The calls that keep the flags: a `connect` that does not leave an input
behind which no other output is connected to, and a `disconnect` that is
turned away or finds a linked output with an input of its own. -/
def Keeps (s : links ι) : link_call ι → Prop
  | .connect u id v k => ∀ k' l old, (s v).get_input k = some k' → s.out u (uint id) = some l →
      l.to_in = some old → old = (v, k') ∨ s.Shared u (uint id) old
  | .disconnect u id => uint id < (s u).m_inputs.length →
      ∃ l old, s.out u (uint id) = some l ∧ l.to_in = some old ∧ ¬ s.Shared u (uint id) old

/-! ## A link rewritten -/

section
variable {s t : links ι} {u v : ι} {i k : Nat} {l l' : LinkOut ι} {b : Bool}

/-- What is connected to an input: the output itself, or others that share it. -/
theorem leads_iff (h : s.Agree) (hl : s.out u i = some l) (e : ι × Nat) :
    (∃ w j, s.Leads w j e) ↔ l.to_in = some e ∨ s.Shared u i e := by
  constructor
  · rintro ⟨w, j, hlead⟩
    by_cases hwj : w = u ∧ j = i
    · obtain ⟨rfl, rfl⟩ := hwj
      obtain ⟨l0, hl0, -, hto⟩ := hlead
      cases hl.symm.trans hl0
      exact .inl hto
    · exact .inr ⟨w, j, hwj, hlead⟩
  · rintro (hto | ⟨w, j, -, hlead⟩)
    · exact ⟨u, i, l, hl, (h.outputs u i l hl).mpr (by simp [hto]), hto⟩
    · exact ⟨w, j, hlead⟩

/-- The same after the output was given another link. -/
theorem leads_set_out (hout : t.out = (s.set_out u i l').out) (hl : s.out u i = some l)
    (hl' : l'.connected = true ↔ l'.to_in ≠ none) (e : ι × Nat) :
    (∃ w j, t.Leads w j e) ↔ l'.to_in = some e ∨ s.Shared u i e := by
  have hself : t.out u i = some l' := by simp [hout, set_out_out, hl]
  have hother : ∀ w j, ¬ (w = u ∧ j = i) → t.out w j = s.out w j := by
    intro w j hwj
    rw [hout, set_out_out, if_neg hwj]
  constructor
  · rintro ⟨w, j, l0, hl0, hcon, hto⟩
    by_cases hwj : w = u ∧ j = i
    · obtain ⟨rfl, rfl⟩ := hwj
      cases hself.symm.trans hl0
      exact .inl hto
    · exact .inr ⟨w, j, hwj, l0, by rwa [← hother w j hwj], hcon, hto⟩
  · rintro (hto | ⟨w, j, hwj, l0, hl0, hcon, hto⟩)
    · exact ⟨u, i, l', hself, hl'.mpr (by simp [hto]), hto⟩
    · exact ⟨w, j, l0, by rwa [hother w j hwj], hcon, hto⟩

/-- An output is given a link to the input `(v, k)`, or none, and the flag of
that input is set to `b`. The flags still agree when `b` is right for that
input, and the input that the output leaves is shared. -/
theorem agree_set (h : s.Agree) (ht : s.Targets) (hout : t.out = (s.set_out u i l').out)
    (hinp : t.inp = (s.set_in v k b).inp) (hl : s.out u i = some l)
    (hin : ∃ b0, s.inp v k = some b0) (hl' : l'.connected = true ↔ l'.to_in ≠ none)
    (hto : ∀ e, l'.to_in = some e → e = (v, k)) :
    t.Agree ↔ (b = true ↔ l'.to_in = some (v, k) ∨ s.Shared u i (v, k)) ∧
      ∀ old, l.to_in = some old → old = (v, k) ∨ s.Shared u i old := by
  have hbefore := leads_iff h hl
  have hafter := leads_set_out hout hl hl'
  obtain ⟨b0, hb0⟩ := hin
  have hhere : t.inp v k = some b := by simp [hinp, set_in_inp, hb0]
  have hthere : ∀ e : ι × Nat, e ≠ (v, k) → t.inp e.1 e.2 = s.inp e.1 e.2 := by
    intro e he
    rw [hinp, set_in_inp, if_neg]
    rintro ⟨h1, h2⟩
    exact he (Prod.ext h1 h2)
  constructor
  · intro hagree
    refine ⟨(hagree.inputs v k b hhere).trans (hafter (v, k)), ?_⟩
    intro old hold
    by_cases he : old = (v, k)
    · exact .inl he
    right
    obtain ⟨b1, hb1⟩ := ht u i l old.1 old.2 hl hold
    have hset := (h.inputs old.1 old.2 b1 hb1).mpr ((hbefore old).mpr (.inl hold))
    obtain hnew | hshared := (hafter old).mp
      ((hagree.inputs old.1 old.2 b1 (by rwa [hthere old he])).mp hset)
    · exact absurd (hto old hnew) he
    · exact hshared
  · rintro ⟨hflag, hleft⟩
    constructor
    · intro w j l0 hl0
      rw [hout, set_out_out] at hl0
      split at hl0
      · obtain ⟨_, _, rfl⟩ := Option.map_eq_some_iff.mp hl0
        exact hl'
      · exact h.outputs w j l0 hl0
    · intro w j b1 hb1
      rw [hafter]
      by_cases he : (w, j) = (v, k)
      · cases he
        cases hhere.symm.trans hb1
        exact hflag
      · have hb1' : s.inp w j = some b1 := by rw [← hthere (w, j) he, hb1]
        rw [h.inputs w j b1 hb1', hbefore]
        constructor
        · rintro (hold | hshared)
          · obtain hsame | hshared := hleft (w, j) hold
            · exact absurd hsame he
            · exact .inr hshared
          · exact .inr hshared
        · rintro (hnew | hshared)
          · exact absurd (hto (w, j) hnew) he
          · exact .inr hshared

theorem targets_set (ht : s.Targets) (hout : t.out = (s.set_out u i l').out)
    (hinp : t.inp = (s.set_in v k b).inp) (hin : ∃ b0, s.inp v k = some b0)
    (hto : ∀ e, l'.to_in = some e → e = (v, k)) : t.Targets := by
  have hsome : ∀ w j, (∃ b0, s.inp w j = some b0) → ∃ b0, t.inp w j = some b0 := by
    rintro w j ⟨b0, hb0⟩
    rw [hinp, set_in_inp, hb0]
    split
    · exact ⟨b, rfl⟩
    · exact ⟨b0, rfl⟩
  intro w j l0 v' k' hl0 hto'
  apply hsome
  rw [hout, set_out_out] at hl0
  split at hl0
  · obtain ⟨_, _, rfl⟩ := Option.map_eq_some_iff.mp hl0
    cases hto _ hto'
    exact hin
  · exact ht w j l0 v' k' hl0 hto'

end

/-! ## The law -/

/-- The links are known, and their flags agree with the pointers. -/
def Consistent : Option (links ι) → Prop
  | none => False
  | some s => s.Agree

theorem agree_connect {s : links ι} (h : s.Agree) (ht : s.Targets) (u : ι) (id : Int) (v : ι)
    (k : Int) : (∀ t, s.perform (.connect u id v k) = some t → t.Targets) ∧
      (Consistent (s.perform (.connect u id v k)) ↔ s.Keeps (.connect u id v k)) := by
  rw [perform_connect]
  obtain ⟨hno, heq⟩ | ⟨l, v', k', hl, hinput, heq⟩ :=
    s.connect_cases u id (((s v).get_input k).map fun k => (v, k))
  · rw [heq]
    refine ⟨?_, iff_of_true h ?_⟩
    · intro t hts
      cases hts
      exact ht
    · intro k' l old hk hl _
      rw [hk, hl] at hno
      rcases hno with hno | hno <;> cases hno
  · rw [heq]
    obtain ⟨k0, hk0, hpair⟩ := Option.map_eq_some_iff.mp hinput
    obtain ⟨rfl, rfl⟩ := Prod.mk.inj hpair
    have hin := inp_of_get_input hk0
    have hto : ∀ e, some (v, k0) = some e → e = (v, k0) := fun e he => (Option.some.inj he).symm
    have hout := set_in_out (s.set_out u (uint id) { to_in := some (v, k0), connected := true })
      v k0 true
    have hinp := set_out_set_in_inp s u v (uint id) k0 true
      { to_in := some (v, k0), connected := true }
    refine ⟨?_, ?_⟩
    · intro t hts
      cases hts
      exact targets_set ht hout hinp hin hto
    · refine (agree_set h ht hout hinp hl hin (by simp) hto).trans ?_
      constructor
      · rintro ⟨-, hleft⟩ k' l0 old hk' hl0 hold
        cases hk0.symm.trans hk'
        cases hl.symm.trans hl0
        exact hleft old hold
      · intro hkeeps
        exact ⟨by simp, fun old hold => hkeeps k0 l old hk0 hl hold⟩

theorem agree_disconnect {s : links ι} (h : s.Agree) (ht : s.Targets) (u : ι) (id : Int) :
    (∀ t, s.perform (.disconnect u id) = some t → t.Targets) ∧
      (Consistent (s.perform (.disconnect u id)) ↔ s.Keeps (.disconnect u id)) := by
  rw [perform_disconnect]
  obtain ⟨hle, heq⟩ | ⟨hlt, hnone, heq⟩ | ⟨hlt, l, v, k, hl, hto, heq⟩ := s.disconnect_cases u id
  · rw [heq]
    refine ⟨?_, iff_of_true h ?_⟩
    · intro t hts
      cases hts
      exact ht
    · intro hlt
      omega
  · rw [heq]
    refine ⟨?_, iff_of_false (fun hc => hc) ?_⟩
    · intro t hts
      cases hts
    · intro hkeeps
      obtain ⟨l, old, hl, hold, -⟩ := hkeeps hlt
      rw [hnone l hl] at hold
      cases hold
  · rw [heq]
    have hin := ht u (uint id) l v k hl hto
    have hnowhere : ∀ e, (none : Option (ι × Nat)) = some e → e = (v, k) := fun e he => by cases he
    have hout := set_in_set_out_out s u v (uint id) k false { to_in := none, connected := false }
    have hinp := set_out_inp (s.set_in v k false) u (uint id) { to_in := none, connected := false }
    refine ⟨?_, ?_⟩
    · intro t hts
      cases hts
      exact targets_set ht hout hinp hin hnowhere
    · refine (agree_set h ht hout hinp hl hin (by simp) hnowhere).trans ?_
      constructor
      · rintro ⟨hflag, -⟩ -
        exact ⟨l, (v, k), hl, hto, fun hshared => by simp [hshared] at hflag⟩
      · intro hkeeps
        obtain ⟨l0, old, hl0, hold, hshared⟩ := hkeeps hlt
        cases hl.symm.trans hl0
        cases hto.symm.trans hold
        exact ⟨by simpa using hshared, fun e he => .inl (Option.some.inj (he.symm.trans hto))⟩

/-- A call keeps the flags just when it is one of those that do. -/
theorem agree_perform {s : links ι} (h : s.Agree) (ht : s.Targets) (c : link_call ι) :
    (∀ t, s.perform c = some t → t.Targets) ∧ (Consistent (s.perform c) ↔ s.Keeps c) := by
  cases c with
  | connect u id v k => exact agree_connect h ht u id v k
  | disconnect u id => exact agree_disconnect h ht u id

omit [DecidableEq ι] in
theorem agree_unlinked {s : links ι} (h : s.Unlinked) : s.Agree ∧ s.Targets := by
  refine ⟨⟨?_, ?_⟩, ?_⟩
  · intro u i l hl
    rw [h.1 u i l hl]
    simp
  · intro v k b hb
    rw [h.2 v k b hb]
    refine iff_of_false Bool.false_ne_true ?_
    rintro ⟨u, i, l, hl, hcon, -⟩
    rw [h.1 u i l hl] at hcon
    cases hcon
  · intro u i l v k hl hto
    rw [h.1 u i l hl] at hto
    cases hto

omit [DecidableEq ι] in
/-- Units as built have no links. -/
theorem unlinked_make (ins outs : ι → List String) :
    Unlinked fun u => linkable.make (ins u) (outs u) := by
  constructor
  · intro u i l hl
    obtain ⟨o, ho, rfl⟩ := Option.map_eq_some_iff.mp hl
    exact (linkable.loose_make (ins u) (outs u)).1 o (List.mem_of_getElem? ho)
  · intro v k b hb
    obtain ⟨input, hinput, rfl⟩ := Option.map_eq_some_iff.mp hb
    exact (linkable.loose_make (ins v) (outs v)).2 input (List.mem_of_getElem? hinput)

/-- A call keeps the flags of what it finds. -/
def KeepsFlags : Option (links ι) → link_call ι → Prop
  | none, _ => False
  | some s, c => s.Keeps c

/-- The flags of outputs and inputs agree with the pointers after every call
of a run, just when every call of the run keeps them. -/
theorem the_flags_agree_where_no_input_is_left_or_shared (s : links ι) (hs : s.Unlinked)
    (cs : List (link_call ι)) (t : Option (links ι)) :
    transition.Run (calls.within Consistent) (some s) cs t ↔
      transition.Run (calls.guarded KeepsFlags) (some s) cs t := by
  have hstep : ∀ (s : Option (links ι)) (c : link_call ι) (t : Option (links ι)),
      (∀ s', s = some s' → s'.Targets) → Consistent s → calls.step s c t →
      (∀ t', t = some t' → t'.Targets) ∧ (Consistent t ↔ KeepsFlags s c) := by
    rintro s c t hts hc rfl
    cases s with
    | none => cases hc
    | some s => exact agree_perform hc (hts s rfl) c
  obtain ⟨hagree, htargets⟩ := agree_unlinked hs
  refine transition.run_within_iff hstep ?_ hagree
  rintro s' hs'
  cases hs'
  exact htargets

/-! ## Three units -/

inductive three_units where
  | source
  | first
  | second
deriving DecidableEq, Repr

/-- A unit without inputs and two units with one input each. -/
def three : links three_units := fun u =>
  linkable.make (if u = .source then [] else ["audio_in"]) ["audio"]

/-- Two links along a line keep the flags. -/
theorem a_line_of_links_agrees :
    transition.Run (calls.within Consistent) (some three)
      ([] ++ [link_call.connect .source 0 .first 0] ++ [link_call.connect .first 0 .second 0])
      (((some three).bind fun s => s.perform (.connect .source 0 .first 0)).bind fun s =>
        s.perform (.connect .first 0 .second 0)) := by
  refine (the_flags_agree_where_no_input_is_left_or_shared three (unlinked_make _ _) _ _).mpr ?_
  refine .snoc (.snoc (.nil _) ⟨?_, rfl⟩) ⟨?_, rfl⟩
  · intro k l old _ hl hold
    cases hl
    cases hold
  · intro k l old _ hl hold
    cases hl
    cases hold

/-- An output that is connected to a second input leaves the flag of the first. -/
theorem a_link_overwritten_leaves_its_input_connected :
    ¬ ∀ (s : links three_units), s.Unlinked → ∀ cs t,
      transition.Run calls (some s) cs t → Consistent t := by
  intro hall
  have hrun :=
    (transition.Run.one (S := calls) (s := some three) (a := .connect .source 0 .first 0) rfl).snoc
    (a := link_call.connect .source 0 .second 0) rfl
  have hagree : links.Agree _ := hall three (unlinked_make _ _) _ _ hrun
  obtain ⟨u, i, l, hl, hcon, hto⟩ := (hagree.inputs .first 0 true rfl).mp rfl
  -- the only output that is linked leads to the second input
  cases i with
  | zero =>
    cases u with
    | source => cases hl; cases hto
    | first => cases hl; cases hto
    | second => cases hl; cases hto
  | succ i => cases u <;> cases hl

end links

end strangeio.component
