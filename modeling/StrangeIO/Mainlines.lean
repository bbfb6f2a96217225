-- The bookkeeping of the mainlines: when the list that a cycle walks says
-- what the map of the mainlines says, and names mounted units only. The
-- list only grows, so a mainline that is connected a second time stands in
-- it twice, and the units that it names are dropped without a look at it.
import Mathlib.Data.List.Forall2
import Mathlib.Data.List.Perm.Basic
import StrangeIO.Mount
import StrangeIO.Transition

namespace strangeio.component

variable {ι : Type} [DecidableEq ι]

namespace mount

/-- The name is connected to the unit. -/
def Feeds (m : mount ι) (name : String) (u : ι) : Prop := m.m_mainlines name = some (some u)

/-- The list of the mainlines holds the unit of every connected name, once
for each name, and no unit that is not mounted. -/
structure Bookkept (m : mount ι) : Prop where
  live : ∀ u ∈ m.m_raw_mainlines, ∃ label, m.m_mounted label = some u
  listed : ∃ names : List String, names.Nodup ∧ (∀ name, name ∈ names ↔ ∃ u, m.Feeds name u) ∧
    List.Forall₂ m.Feeds names m.m_raw_mainlines

/-- The calls that keep the books: a mainline is connected once, and the
units are cleared before any mainline is connected. -/
def KeepsBooks (m : mount ι) : mount_call ι → Prop
  | .connect_mainline mainline unit => ∀ u, m.Feeds mainline u → m.m_mounted unit = none
  | .clear_units => ∀ name u, ¬ m.Feeds name u
  | _ => True

def calls : transition.System (mount ι) (mount_call ι) where
  start m := ∃ l, m = new l
  step m c m' := m' = m.perform c

/-! ## What each call does to the books -/

omit [DecidableEq ι] in
/-- Books that agree on the connected names agree. -/
theorem Bookkept.of_feeds {m m' : mount ι} (h : m.Bookkept)
    (hraw : m'.m_raw_mainlines = m.m_raw_mainlines)
    (hlive : ∀ label u, m.m_mounted label = some u → m'.m_mounted label = some u)
    (hfeeds : ∀ name u, m'.Feeds name u ↔ m.Feeds name u) : m'.Bookkept := by
  obtain ⟨names, hnodup, hmem, hlist⟩ := h.listed
  refine ⟨?_, names, hnodup, ?_, ?_⟩
  · intro u hu
    rw [hraw] at hu
    obtain ⟨label, hlabel⟩ := h.live u hu
    exact ⟨label, hlive label u hlabel⟩
  · intro name
    simp only [hmem, hfeeds]
  · rw [hraw]
    exact hlist.imp fun name u hu => (hfeeds name u).mpr hu

omit [DecidableEq ι] in
theorem bookkept_add_unit {m : mount ι} (h : m.Bookkept) (u : ι) (ulabel : String) :
    (m.add_unit u ulabel).Bookkept := by
  unfold add_unit
  split
  · exact h
  · rename_i hnot
    refine h.of_feeds rfl ?_ fun _ _ => Iff.rfl
    intro label v hlabel
    have hne : label ≠ ulabel := by
      rintro rfl
      simp [has_unit, hlabel] at hnot
    simp only [Function.update_of_ne hne, hlabel]

omit [DecidableEq ι] in
theorem bookkept_add_mainline {m : mount ι} (h : m.Bookkept) (name : String) :
    (m.add_mainline name).Bookkept := by
  unfold add_mainline
  split
  · exact h
  · rename_i hnot
    refine h.of_feeds rfl (fun _ _ hlabel => hlabel) ?_
    intro name' u
    unfold Feeds
    by_cases hname : name' = name
    · subst hname
      simp only [Function.update_self]
      simp at hnot
      simp [hnot]
    · simp only [Function.update_of_ne hname]

theorem bookkept_connect_units {m : mount ι} (h : m.Bookkept) (source out dest input : String) :
    (m.connect_units source out dest input).2.Bookkept := by
  obtain heq | ⟨_, _, _, _, _, _, _, _, heq⟩ := m.connect_units_cases source out dest input
  · rwa [heq]
  · rw [heq]
    exact h.of_feeds rfl (fun _ _ hlabel => hlabel) fun _ _ => Iff.rfl

omit [DecidableEq ι] in
/-- The units of a kept book are dropped: it names none after that only if it named none. -/
theorem bookkept_clear_units {m : mount ι} (h : m.Bookkept) :
    m.clear_units.Bookkept ↔ ∀ name u, ¬ m.Feeds name u := by
  obtain ⟨names, hnodup, hmem, hlist⟩ := h.listed
  constructor
  · intro hclear name u hfeeds
    have hname := (hmem name).mpr ⟨u, hfeeds⟩
    cases hraw : m.m_raw_mainlines with
    | nil =>
      rw [hraw] at hlist
      cases hlist
      cases hname
    | cons v vs =>
      obtain ⟨label, hlabel⟩ := hclear.live v (hraw ▸ List.mem_cons_self)
      cases hlabel
  · intro hnone
    have hnil : names = [] := by
      apply List.eq_nil_iff_forall_not_mem.mpr
      intro name hname
      obtain ⟨u, hu⟩ := (hmem name).mp hname
      exact hnone name u hu
    subst hnil
    have hraw : m.m_raw_mainlines = [] := List.forall₂_nil_left_iff.mp hlist
    refine ⟨?_, [], List.nodup_nil, hmem, hlist⟩
    intro u hu
    have hu' : u ∈ m.m_raw_mainlines := hu
    rw [hraw] at hu'
    cases hu'

omit [DecidableEq ι] in
theorem feeds_update {m : mount ι} {name : String} {u : ι} (name' : String) (v : ι) :
    Function.update m.m_mainlines name (some (some u)) name' = some (some v) ↔
      if name' = name then u = v else m.Feeds name' v := by
  by_cases hname : name' = name
  · subst hname
    simp
  · simp [hname, Feeds]

omit [DecidableEq ι] in
/-- A name that is connected again: no name joins those that are connected, but the list grows. -/
theorem not_bookkept_connect_again {m : mount ι} (h : m.Bookkept) {name : String} {u v : ι}
    (hv : m.Feeds name v) :
    ¬ { m with
      m_mainlines := Function.update m.m_mainlines name (some (some u))
      m_raw_mainlines := m.m_raw_mainlines ++ [u] : mount ι }.Bookkept := by
  obtain ⟨names, hnodup, hmem, hlist⟩ := h.listed
  rintro ⟨-, names', hnodup', hmem', hlist'⟩
  have hsame : names'.Perm names := by
    refine (List.perm_ext_iff_of_nodup hnodup' hnodup).mpr ?_
    intro name'
    rw [hmem', hmem]
    unfold Feeds
    simp only [feeds_update]
    split
    · rename_i hname
      subst hname
      exact iff_of_true ⟨u, rfl⟩ ⟨v, hv⟩
    · rfl
  have h1 := hlist'.length_eq
  have h2 := hlist.length_eq
  have h3 := hsame.length_eq
  simp only [List.length_append, List.length_singleton] at h1
  omega

omit [DecidableEq ι] in
theorem bookkept_connect_new {m : mount ι} (h : m.Bookkept) {name label : String} {u : ι}
    (hu : m.m_mounted label = some u) (hnew : ∀ v, ¬ m.Feeds name v) :
    { m with
      m_mainlines := Function.update m.m_mainlines name (some (some u))
      m_raw_mainlines := m.m_raw_mainlines ++ [u] : mount ι }.Bookkept := by
  obtain ⟨names, hnodup, hmem, hlist⟩ := h.listed
  have hne : ∀ name' v, m.Feeds name' v → name' ≠ name := by
    rintro name' v hv rfl
    exact hnew v hv
  have hnot : name ∉ names := by
    intro hname
    obtain ⟨v, hv⟩ := (hmem name).mp hname
    exact hnew v hv
  refine ⟨?_, names ++ [name], ?_, ?_, ?_⟩
  · intro v hv
    rcases List.mem_append.mp hv with hv | hv
    · exact h.live v hv
    · obtain rfl := List.mem_singleton.mp hv
      exact ⟨label, hu⟩
  · refine List.nodup_append.mpr ⟨hnodup, List.pairwise_singleton _ name, ?_⟩
    rintro name' hname' _ hname rfl
    exact hnot (List.mem_singleton.mp hname ▸ hname')
  · intro name'
    rw [List.mem_append, List.mem_singleton, hmem]
    unfold Feeds
    simp only [feeds_update]
    split
    · rename_i hname
      exact iff_of_true (.inr hname) ⟨u, rfl⟩
    · rename_i hname
      simp [hname, Feeds]
  · refine List.rel_append ?_ (.cons ?_ .nil)
    · refine hlist.imp ?_
      intro name' v hv
      exact (feeds_update name' v).mpr (by rwa [if_neg (hne name' v hv)])
    · exact (feeds_update name u).mpr (by rw [if_pos rfl])

omit [DecidableEq ι] in
/-- A name is connected: the books are kept when it was not connected before. -/
theorem bookkept_connect {m : mount ι} (h : m.Bookkept) {name label : String} {u : ι}
    (hu : m.m_mounted label = some u) :
    { m with
      m_mainlines := Function.update m.m_mainlines name (some (some u))
      m_raw_mainlines := m.m_raw_mainlines ++ [u] : mount ι }.Bookkept ↔ ∀ v, ¬ m.Feeds name v :=
  ⟨fun hkept _ hv => not_bookkept_connect_again h hv hkept, bookkept_connect_new h hu⟩

/-- A call keeps the books just when it is one of those that do. -/
theorem bookkept_perform {m : mount ι} (h : m.Bookkept) (c : mount_call ι) :
    (m.perform c).Bookkept ↔ m.KeepsBooks c := by
  cases c with
  | add_unit u ulabel => exact iff_of_true (bookkept_add_unit h u ulabel) trivial
  | clear_units => exact bookkept_clear_units h
  | add_mainline name => exact iff_of_true (bookkept_add_mainline h name) trivial
  | connect_units source out dest input =>
    exact iff_of_true (bookkept_connect_units h source out dest input) trivial
  | connect_mainline mainline unit =>
    obtain ⟨hno, heq⟩ | ⟨line, u, hline, hu, heq⟩ := m.connect_mainline_cases mainline unit
    · change (m.connect_mainline mainline unit).2.Bookkept ↔ _
      rw [heq]
      refine iff_of_true h ?_
      intro u hfeeds
      rcases hno with hno | hno
      · rw [Feeds, hno] at hfeeds
        cases hfeeds
      · exact hno
    · change (m.connect_mainline mainline unit).2.Bookkept ↔ _
      rw [heq]
      refine (bookkept_connect h hu).trans ?_
      constructor
      · intro hnew v hv
        exact absurd hv (hnew v)
      · intro hkeeps v hv
        have := hkeeps v hv
        rw [hu] at this
        cases this

omit [DecidableEq ι] in
theorem bookkept_new (l : links ι) : (new l).Bookkept := by
  refine ⟨?_, [], List.nodup_nil, ?_, .nil⟩
  · intro u hu
    cases hu
  · intro name
    refine iff_of_false List.not_mem_nil ?_
    rintro ⟨u, hu⟩
    cases hu

/-- The list of the mainlines and their map agree after every call of a run,
just when no mainline is connected twice and no units are cleared while a
mainline is connected. -/
theorem the_mainlines_are_kept_while_connected_once (l : links ι) (cs : List (mount_call ι))
    (m : mount ι) :
    transition.Run (calls.within Bookkept) (new l) cs m ↔
      transition.Run (calls.guarded KeepsBooks) (new l) cs m := by
  refine transition.run_within_iff (I := fun _ => True) ?_ trivial (bookkept_new l)
  rintro m c m' - hm rfl
  exact ⟨trivial, bookkept_perform hm c⟩

/-- A mainline that is connected again to the unit it had stands in the list twice. -/
theorem a_mainline_connected_again_runs_twice :
    ¬ ∀ (l : links Unit) (cs : List (mount_call Unit)) (m : mount Unit),
      transition.Run calls (new l) cs m → m.Bookkept := by
  intro hall
  let l : links Unit := fun _ => linkable.make ["power"] ["audio"]
  have h1 := transition.Run.one (S := calls) (s := new l) (a := .add_unit () "phi") rfl
  have h2 := (h1.snoc (a := .add_mainline "ac1") rfl).snoc (a := .connect_mainline "ac1" "phi") rfl
  have h3 := h2.snoc (a := .connect_mainline "ac1" "phi") rfl
  have hbook := hall l _ _ h2
  have hkeeps := (bookkept_perform hbook (.connect_mainline "ac1" "phi")).mp (hall l _ _ h3)
  have hnone := hkeeps ()
    (by simp [Feeds, perform, connect_mainline, get_unit, add_mainline, add_unit,
    has_unit, new])
  simp [perform, connect_mainline, get_unit, add_mainline, add_unit, has_unit, new] at hnone

end mount

end strangeio.component
