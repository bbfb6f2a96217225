-- The order of the links in a description: an assembly that makes all of them
-- does not depend on it, and all of them are made just when each comes after
-- one that leads to the unit it comes from.
import StrangeIO.Wiring

namespace strangeio.config

open component (mount links)

variable {ι : Type} [DecidableEq ι] {f : unit_factory ι} {desc : description} {l : links ι}

/-! ## A list of links -/

theorem wired_link {ds pre rest : List s_link} {link : s_link} (hds : WellDescribed f desc l ds)
    (hsplit : ds = pre ++ link :: rest) (hf : f.Labelled) {m0 : mount ι}
    (hdeclared : ∀ name ∈ desc.setup.mainlines, (m0.m_mainlines name).isSome) {sys : assembly ι}
    (h : Wired f desc l m0 pre sys.mount) :
    ∃ sys', assemble_link f desc sys link = some sys' ∧
      Wired f desc l m0 (pre ++ [link]) sys'.mount := by
  have hmem : link ∈ ds := by simp [hsplit]
  have hapart : ∀ a ∈ pre, Apart f desc l a link := by
    have hpairs := hds.apart
    rw [hsplit] at hpairs
    exact fun a ha => (List.pairwise_append.mp hpairs).2.2 a ha link List.mem_cons_self
  obtain ⟨v, hv⟩ := hds.target link hmem
  obtain ⟨hnone, -⟩ | ⟨ud, sys1, hud, hcheck, hmount⟩ := check_unit_cases hf sys link.to_label
  · rw [unit_of, hnone] at hv
    cases hv
  · have hload : loaded f ud = some v := by
      rw [unit_of, hud] at hv
      exact hv
    refine ⟨{ sys1 with mount := (connect_link sys1.mount link).2 }, ?_, ?_⟩
    · unfold assemble_link
      rw [hcheck]
      rfl
    · change Wired f desc l m0 (pre ++ [link]) (connect_link sys1.mount link).2
      rw [hmount]
      by_cases hrack : link.from_label = "rack"
      · exact wired_mainline h hud hload hrack (hdeclared _ (hds.declared link hmem hrack)) hapart
      · obtain ⟨u, hu, hout⟩ := hds.source link hmem hrack
        exact wired_units h hud hload hrack hu hout (hds.jack link hmem hrack v hv) hapart

theorem wired_links {ds : List s_link} (hds : WellDescribed f desc l ds) (hf : f.Labelled)
    {m0 : mount ι} (hdeclared : ∀ name ∈ desc.setup.mainlines, (m0.m_mainlines name).isSome)
    (pre : List s_link) {rest : List s_link} (hsplit : ds = pre ++ rest) {sys : assembly ι}
    (h : Wired f desc l m0 pre sys.mount) :
    ∃ sys', rest.foldlM (assemble_link f desc) sys = some sys' ∧
      Wired f desc l m0 ds sys'.mount := by
  induction rest generalizing pre sys with
  | nil =>
    rw [List.append_nil] at hsplit
    exact ⟨sys, rfl, hsplit ▸ h⟩
  | cons link rest ih =>
    obtain ⟨sys1, h1, hwired⟩ := wired_link hds hsplit hf hdeclared h
    obtain ⟨sys', h2, hall⟩ := ih _ (by rw [hsplit, List.append_assoc]; rfl) hwired
    exact ⟨sys', walk.foldlM_cons_some.mpr ⟨sys1, h1, h2⟩, hall⟩

/-! ## An assembly from the start -/

omit [DecidableEq ι] in
/-- The mainlines are declared, and nothing else is changed. -/
theorem declared_mainlines (names : List String) (sys : assembly ι) :
    let sys' := names.foldl
      (fun sys mainline => { sys with mount := sys.mount.add_mainline mainline }) sys
    sys'.mount.m_mounted = sys.mount.m_mounted ∧ sys'.mount.m_links = sys.mount.m_links ∧
      ∀ name, name ∈ names ∨ (sys.mount.m_mainlines name).isSome →
        (sys'.mount.m_mainlines name).isSome := by
  induction names generalizing sys with
  | nil =>
    refine ⟨rfl, rfl, ?_⟩
    rintro name (hname | hname)
    · cases hname
    · exact hname
  | cons mainline names ih =>
    obtain ⟨h1, h2, h3⟩ := ih { sys with mount := sys.mount.add_mainline mainline }
    obtain ⟨hmounted, hlinks⟩ := sys.mount.add_mainline_frame mainline
    refine ⟨h1.trans hmounted, h2.trans hlinks, ?_⟩
    intro name hname
    apply h3
    rw [component.mount.add_mainline_isSome]
    rcases hname with hname | hname
    · rcases List.mem_cons.mp hname with rfl | hname
      · exact .inr (.inl rfl)
      · exact .inl hname
    · exact .inr (.inr hname)

omit [DecidableEq ι] in
theorem devices_mount (desc : description) (sys : assembly ι) :
    (assemble_devices desc sys).mount = sys.mount := by
  unfold assemble_devices
  induction desc.midi.controllers generalizing sys with
  | nil => rfl
  | cons controller controllers ih => exact ih _

/-- The description with its links in another order, or with other links. -/
def description.reordered (desc : description) (ds : List s_link) : description :=
  { desc with setup := { desc.setup with daisychains := ds } }

/-- A description whose links are well described is assembled as they say. -/
theorem assemble_wired (hf : f.Labelled) (hl : l.Unlinked) {ds : List s_link}
    (hds : WellDescribed f desc l ds) {sys : assembly ι} (hsys : sys.mount = mount.new l) :
    ∃ sys', assemble f (desc.reordered ds) sys = some sys' ∧
      Wired f desc l (assemble_mainlines desc sys).mount ds sys'.mount := by
  obtain ⟨h1, h2, h3⟩ := declared_mainlines desc.setup.mainlines sys
  rw [hsys] at h1 h2
  -- the order of the links is not looked at in the assembly of one of them
  change ∃ sys', ds.foldlM (assemble_link f desc)
    (assemble_devices desc (assemble_mainlines desc sys)) = some sys' ∧ _
  refine wired_links hds hf (fun name hname => h3 name (.inl hname)) [] rfl ?_
  rw [devices_mount]
  refine ⟨fun label => congrFun h1 label, fun u => ?_, ?_, fun name _ => rfl, ?_⟩
  · unfold assemble_mainlines
    rw [h2]
    exact ⟨rfl, rfl⟩
  · intro link hlink
    cases hlink
  · intro u i t
    unfold assemble_mainlines
    rw [h2]
    refine iff_of_false ?_ ?_
    · rintro ⟨o, ho, hconnected, -⟩
      rw [hl.1 u i o ho] at hconnected
      cases hconnected
    · rintro ⟨a, link, b, heq, -⟩
      exact absurd heq (by simp)

/-! ## The links that are made -/

/-- The link is there: its mainline starts at the unit, or its output leads to its input. -/
def Made (f : unit_factory ι) (desc : description) (l : links ι) (m : mount ι) (link : s_link) :
    Prop :=
  if link.from_label = "rack" then
    ∃ v, unit_of f desc link.to_label = some v ∧ m.m_mainlines link.plug = some (some v)
  else ∃ o t, Joins f desc l link o t ∧ m.m_links.Leads o.1 o.2 t

/-- Each link between units comes after one that leads to its source, or leads to it itself. -/
def AllFed (ds : List s_link) : Prop :=
  ∀ pre link post, ds = pre ++ link :: post → link.from_label ≠ "rack" → Fed pre link

theorem all_fed_snoc {pre : List s_link} {link : s_link} (hpre : AllFed pre)
    (hlink : link.from_label ≠ "rack" → Fed pre link) : AllFed (pre ++ [link]) := by
  intro a link' b heq hunits
  rcases List.eq_nil_or_concat b with rfl | ⟨b, x, rfl⟩
  · obtain ⟨rfl, hlast⟩ := List.append_inj' heq rfl
    obtain rfl := (List.cons.inj hlast).1
    exact hlink hunits
  · rw [List.concat_eq_append, ← List.cons_append, ← List.append_assoc] at heq
    obtain ⟨rfl, -⟩ := List.append_inj' heq rfl
    exact hpre a link' b rfl hunits

/-- Members that are not apart stand at the same place. -/
theorem same_place {α : Type} {R : α → α → Prop} {pre post pre' post' : List α} {x y : α}
    (hapart : (pre ++ x :: post).Pairwise R) (heq : pre ++ x :: post = pre' ++ y :: post')
    (hxy : ¬ R x y) (hyx : ¬ R y x) : pre = pre' := by
  rcases List.append_eq_append_iff.mp heq with ⟨mid, hpre, hmid⟩ | ⟨mid, hpre, hmid⟩
  · cases mid with
    | nil => simpa using hpre.symm
    | cons z mid =>
      obtain ⟨rfl, hpost⟩ := List.cons.inj hmid
      have hrest := (List.pairwise_cons.mp (List.pairwise_append.mp hapart).2.1).1
      exact absurd (hrest y (by simp [hpost])) hxy
  · cases mid with
    | nil => simpa using hpre
    | cons z mid =>
      obtain ⟨rfl, hpost⟩ := List.cons.inj hmid
      rw [heq] at hapart
      have hrest := (List.pairwise_cons.mp (List.pairwise_append.mp hapart).2.1).1
      exact absurd (hrest x (by simp [hpost])) hyx

section made

variable {m0 m : mount ι} {ds : List s_link}

omit [DecidableEq ι] in
theorem WellDescribed.joins (hds : WellDescribed f desc l ds) {link : s_link} (hlink : link ∈ ds)
    (hunits : link.from_label ≠ "rack") : ∃ o t, Joins f desc l link o t := by
  obtain ⟨u, hu, -⟩ := hds.source link hlink hunits
  obtain ⟨v, hv⟩ := hds.target link hlink
  exact ⟨_, _, (joins_iff hunits hu hv).mpr ⟨rfl, rfl⟩⟩

omit [DecidableEq ι] in
/-- All links of a list are made just when all of them are fed. -/
theorem all_made_iff (hds : WellDescribed f desc l ds) (h : Wired f desc l m0 ds m) :
    (∀ link ∈ ds, Made f desc l m link) ↔ AllFed ds := by
  constructor
  · rintro hmade pre link post rfl hunits
    have hlink := hmade link (by simp)
    unfold Made at hlink
    rw [if_neg hunits] at hlink
    obtain ⟨o, t, hjoins, hleads⟩ := hlink
    obtain ⟨pre', link', post', heq, hfed, hjoins'⟩ := (h.leads o.1 o.2 t).mp hleads
    -- no other link has this output
    have hout : output_of f desc l link = output_of f desc l link' :=
      hjoins.output_eq.trans hjoins'.output_eq.symm
    have hsame := same_place hds.apart heq
      (fun hapart => hapart.outputs hjoins.units hjoins'.units hout)
      (fun hapart => hapart.outputs hjoins'.units hjoins.units hout.symm)
    subst hsame
    obtain ⟨rfl, -⟩ := List.cons.inj (List.append_cancel_left heq)
    exact hfed
  · intro hfed link hlink
    unfold Made
    split
    · rename_i hrack
      obtain ⟨v, hv⟩ := hds.target link hlink
      exact ⟨v, hv, by rw [h.mainlines link hlink hrack, hv]⟩
    · rename_i hunits
      obtain ⟨o, t, hjoins⟩ := hds.joins hlink hunits
      obtain ⟨pre, post, heq⟩ := List.append_of_mem hlink
      exact ⟨o, t, hjoins, (h.leads o.1 o.2 t).mpr
        ⟨pre, link, post, heq, hfed pre link post heq hunits, hjoins⟩⟩

omit [DecidableEq ι] in
/-- When all links are fed, the outputs lead where the links say. -/
theorem leads_of_all_fed (h : Wired f desc l m0 ds m) (hfed : AllFed ds) (u : ι) (i : Nat)
    (t : ι × Nat) :
    m.m_links.Leads u i t ↔ ∃ link ∈ ds, Joins f desc l link (u, i) t := by
  rw [h.leads]
  constructor
  · rintro ⟨pre, link, post, heq, -, hjoins⟩
    exact ⟨link, by simp [heq], hjoins⟩
  · rintro ⟨link, hlink, hjoins⟩
    obtain ⟨pre, post, heq⟩ := List.append_of_mem hlink
    exact ⟨pre, link, post, heq, hfed pre link post heq hjoins.units, hjoins⟩

end made

/-! ## Two orders -/

/-- The same units are mounted, the same outputs are connected to the same
inputs, and the same mainlines to the same units. -/
structure SameAssembly (m m' : mount ι) : Prop where
  mounted : ∀ label, m.m_mounted label = m'.m_mounted label
  connections : ∀ u i t, m.m_links.Leads u i t ↔ m'.m_links.Leads u i t
  mainlines : ∀ name, m.m_mainlines name = m'.m_mainlines name

omit [DecidableEq ι] in
theorem same_assembly {m0 m m' : mount ι} {ds ds' : List s_link} (hperm : ds.Perm ds')
    (h : Wired f desc l m0 ds m) (h' : Wired f desc l m0 ds' m') (hfed : AllFed ds)
    (hfed' : AllFed ds') : SameAssembly m m' := by
  refine ⟨?_, ?_, ?_⟩
  · intro label
    rw [h.mounted, h'.mounted]
    simp only [(hperm.map s_link.to_label).mem_iff]
  · intro u i t
    rw [leads_of_all_fed h hfed, leads_of_all_fed h' hfed']
    simp only [hperm.mem_iff]
  · intro name
    by_cases hname : ∃ link ∈ ds, link.from_label = "rack" ∧ link.plug = name
    · obtain ⟨link, hlink, hrack, rfl⟩ := hname
      rw [h.mainlines link hlink hrack, h'.mainlines link (hperm.mem_iff.mp hlink) hrack]
    · have hnot : ∀ link ∈ ds, link.from_label = "rack" → link.plug ≠ name :=
        fun link hlink hrack heq => hname ⟨link, hlink, hrack, heq⟩
      rw [h.others name hnot, h'.others name fun link hlink =>
        hnot link (hperm.mem_iff.mpr hlink)]

/-- **What is assembled does not depend on the order of the links, and all of
them are made, just when in both orders each link between units comes after
one that leads to its source.** -/
theorem the_order_of_links_does_not_matter_when_all_are_fed (hf : f.Labelled) (hl : l.Unlinked)
    (hds : WellDescribed f desc l desc.setup.daisychains) {ds : List s_link}
    (hperm : desc.setup.daisychains.Perm ds) {sys : assembly ι} (hsys : sys.mount = mount.new l) :
    ∃ sys1 sys2, assemble f desc sys = some sys1 ∧
      assemble f (desc.reordered ds) sys = some sys2 ∧
      ((SameAssembly sys1.mount sys2.mount ∧
          (∀ link ∈ desc.setup.daisychains, Made f desc l sys1.mount link) ∧
          ∀ link ∈ ds, Made f desc l sys2.mount link) ↔
        AllFed desc.setup.daisychains ∧ AllFed ds) := by
  have hds' : WellDescribed f desc l ds := hds.perm hperm
  obtain ⟨sys1, h1, hwired1⟩ := assemble_wired hf hl hds hsys
  obtain ⟨sys2, h2, hwired2⟩ := assemble_wired hf hl hds' hsys
  refine ⟨sys1, sys2, h1, h2, ?_⟩
  rw [all_made_iff hds hwired1, all_made_iff hds' hwired2]
  constructor
  · exact fun hall => hall.2
  · rintro ⟨hfed, hfed'⟩
    exact ⟨same_assembly hperm hwired1 hwired2 hfed hfed', hfed, hfed'⟩

/-! ## Three links -/

def to_phi : s_link := ⟨"rack", "ac1", "phi", "power"⟩

def to_tau : s_link := ⟨"rack", "ac2", "tau", "power"⟩

def phi_to_tau : s_link := ⟨"phi", "audio", "tau", "audio_in"⟩

/-- Two units, a mainline to each, and a link from one to the other. -/
def duo : description where
  setup :=
    { mainlines := ["ac1", "ac2"]
      daisychains := [to_phi, to_tau, phi_to_tau]
      units := [{ label := "phi" }, { label := "tau" }] }

inductive duo_unit where
  | phi
  | tau
deriving DecidableEq, Repr

def duo_links : links duo_unit := fun _ => component.linkable.make ["power", "audio_in"] ["audio"]

def duo_factory : unit_factory duo_unit where
  load _ label _ := if label = "phi" then some .phi else if label = "tau" then some .tau else none
  ulabel
    | .phi => "phi"
    | .tau => "tau"
  midi_handlers _ := []
  midi_leds _ := []

def duo_start : assembly duo_unit := ⟨mount.new duo_links, ⟨[], fun _ => none⟩⟩

theorem duo_labelled : duo_factory.Labelled := by
  intro model label library u h
  by_cases hphi : label = "phi"
  · subst hphi
    obtain rfl := Option.some.inj h
    rfl
  · by_cases htau : label = "tau"
    · subst htau
      obtain rfl := Option.some.inj h
      rfl
    · have hnone : duo_factory.load model label library = none :=
        (if_neg hphi).trans (if_neg htau)
      rw [hnone] at h
      cases h

theorem duo_unlinked : duo_links.Unlinked := links.unlinked_make _ _

theorem duo_described :
    WellDescribed duo_factory duo duo_links [to_phi, to_tau, phi_to_tau] := by
  have hrack : to_phi.from_label = "rack" ∧ to_tau.from_label = "rack" := ⟨rfl, rfl⟩
  have hunits : phi_to_tau.from_label ≠ "rack" := by decide
  refine ⟨?_, ?_, ?_, ?_, ?_⟩
  · simp only [List.mem_cons, List.not_mem_nil, or_false, forall_eq_or_imp, forall_eq]
    exact ⟨⟨.phi, rfl⟩, ⟨.tau, rfl⟩, ⟨.tau, rfl⟩⟩
  · simp only [List.mem_cons, List.not_mem_nil, or_false, forall_eq_or_imp, forall_eq]
    exact ⟨absurd hrack.1, absurd hrack.2, fun _ => ⟨.phi, rfl, by decide⟩⟩
  · simp only [List.mem_cons, List.not_mem_nil, or_false, forall_eq_or_imp, forall_eq]
    exact ⟨absurd hrack.1, absurd hrack.2, fun _ v _ => by cases v <;> decide⟩
  · simp only [List.mem_cons, List.not_mem_nil, or_false, forall_eq_or_imp, forall_eq]
    exact ⟨fun _ => by decide, fun _ => by decide, fun h => absurd h hunits⟩
  · refine .cons ?_ (List.pairwise_pair.mpr ?_)
    · simp only [List.mem_cons, List.not_mem_nil, or_false, forall_eq_or_imp, forall_eq]
      exact ⟨⟨fun _ _ => by decide, absurd hrack.1, absurd hrack.1⟩,
        ⟨fun _ h => absurd h hunits, absurd hrack.1, absurd hrack.1⟩⟩
    · exact ⟨fun _ h => absurd h hunits, absurd hrack.2, absurd hrack.2⟩

theorem duo_order_of_mainlines : ([to_phi, to_tau, phi_to_tau] : List s_link).Perm
    [to_tau, to_phi, phi_to_tau] := .swap _ _ _

theorem mainlines_first_are_fed {a b : s_link} (ha : a.from_label = "rack")
    (hb : b.from_label = "rack") (hfed : Fed [a, b] phi_to_tau) :
    AllFed [a, b, phi_to_tau] := by
  have hnil : AllFed [] := by
    intro pre link post heq
    cases pre with
    | nil => cases heq
    | cons x pre => cases heq
  have hone : AllFed [a] := all_fed_snoc hnil (absurd ha)
  have htwo : AllFed [a, b] := all_fed_snoc hone (absurd hb)
  exact all_fed_snoc htwo fun _ => hfed

/-- The mainlines may change places. -/
theorem the_mainlines_of_a_duo_may_change_places :
    ∃ sys1 sys2, assemble duo_factory duo duo_start = some sys1 ∧
      assemble duo_factory (duo.reordered [to_tau, to_phi, phi_to_tau]) duo_start = some sys2 ∧
      SameAssembly sys1.mount sys2.mount := by
  have hds : WellDescribed duo_factory duo duo_links duo.setup.daisychains := duo_described
  have hperm : duo.setup.daisychains.Perm [to_tau, to_phi, phi_to_tau] := duo_order_of_mainlines
  have hstart : duo_start.mount = mount.new duo_links := rfl
  obtain ⟨sys1, sys2, h1, h2, hiff⟩ := the_order_of_links_does_not_matter_when_all_are_fed
    duo_labelled duo_unlinked hds hperm hstart
  refine ⟨sys1, sys2, h1, h2, (hiff.mpr ⟨?_, ?_⟩).1⟩
  · exact mainlines_first_are_fed rfl rfl (by simp [Fed, phi_to_tau, to_phi])
  · exact mainlines_first_are_fed rfl rfl (by simp [Fed, phi_to_tau, to_phi])

/-- A link before the one that leads to its source is not made. -/
theorem a_link_before_its_source_is_not_made :
    ¬ ∀ (f : unit_factory duo_unit) (desc : description) (l : links duo_unit), f.Labelled →
      l.Unlinked → WellDescribed f desc l desc.setup.daisychains →
      ∀ ds, desc.setup.daisychains.Perm ds → ∀ sys : assembly duo_unit, sys.mount = mount.new l →
      ∀ sys1 sys2, assemble f desc sys = some sys1 →
        assemble f (desc.reordered ds) sys = some sys2 →
        SameAssembly sys1.mount sys2.mount ∧
          (∀ link ∈ desc.setup.daisychains, Made f desc l sys1.mount link) ∧
          ∀ link ∈ ds, Made f desc l sys2.mount link := by
  intro hall
  have hperm : ([to_phi, to_tau, phi_to_tau] : List s_link).Perm [phi_to_tau, to_phi, to_tau] := by
    decide
  have hds := duo_described.perm hperm
  obtain ⟨sys1, h1, -⟩ := assemble_wired duo_labelled duo_unlinked duo_described
    (show duo_start.mount = mount.new duo_links from rfl)
  obtain ⟨sys2, h2, hwired⟩ := assemble_wired duo_labelled duo_unlinked hds
    (show duo_start.mount = mount.new duo_links from rfl)
  have hmade := (hall duo_factory duo duo_links duo_labelled duo_unlinked duo_described _ hperm
    duo_start rfl sys1 sys2 h1 h2).2.2
  have hfed := (all_made_iff hds hwired).mp hmade [] phi_to_tau [to_phi, to_tau] rfl (by decide)
  -- nothing leads to the first unit before this link, and it leads to the second
  simp [Fed, phi_to_tau] at hfed

end strangeio.config
