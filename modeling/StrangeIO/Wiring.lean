-- What the assembler makes of a list of links: the units that are mounted,
-- the mainlines that are connected and the outputs that lead to inputs, each
-- in terms of the list. A link from a unit is made when the unit is mounted
-- by then, which only the links that lead to it see to.
import StrangeIO.Assemblable
import StrangeIO.LinkGraph

namespace strangeio

namespace component

variable {ι : Type}

/-! ## The plugs and the jacks -/

namespace linkable

/-- Where the label is found depends on the labels only. -/
theorem find_label {α : Type} (labelOf : α → String) (l : List α) (label : String) :
    (match l.findIdx? fun x => labelOf x = label with
      | some id => (id : Int)
      | none => -1) = ((l.map labelOf).findIdx? fun l => l = label).elim (-1) Nat.cast := by
  rw [List.findIdx?_map]
  split
  · rename_i id hid
    exact (congrArg (Option.elim · (-1) Nat.cast) hid).symm
  · rename_i hid
    exact (congrArg (Option.elim · (-1) Nat.cast) hid).symm

theorem has_output_congr {x y : linkable ι}
    (h : x.m_outputs.map plug.label = y.m_outputs.map plug.label) (label : String) :
    x.has_output label = y.has_output label := by
  have hfind := find_label plug.label x.m_outputs label
  rw [h] at hfind
  exact hfind.trans (find_label plug.label y.m_outputs label).symm

theorem has_input_congr {x y : linkable ι}
    (h : x.m_inputs.map LinkIn.label = y.m_inputs.map LinkIn.label) (label : String) :
    x.has_input label = y.has_input label := by
  have hfind := find_label LinkIn.label x.m_inputs label
  rw [h] at hfind
  exact hfind.trans (find_label LinkIn.label y.m_inputs label).symm

theorem uint_le (n : Nat) : uint (n : Int) ≤ n := by
  unfold uint
  change ((n : Int) % (memory.u32 : Int)).toNat ≤ n
  rw [← Int.natCast_mod, Int.toNat_natCast]
  exact Nat.mod_le n memory.u32

/-- The id of a plug that there is addresses an output. -/
theorem has_output_lt {x : linkable ι} {label : String} (h : 0 ≤ x.has_output label) :
    uint (x.has_output label) < x.m_outputs.length := by
  unfold has_output at h ⊢
  split at h
  · rename_i id hid
    obtain ⟨hlt, -⟩ := List.findIdx?_eq_some_iff_getElem.mp hid
    exact (uint_le id).trans_lt hlt
  · omega

theorem has_input_lt {x : linkable ι} {label : String} (h : 0 ≤ x.has_input label) :
    uint (x.has_input label) < x.m_inputs.length := by
  unfold has_input at h ⊢
  split at h
  · rename_i id hid
    obtain ⟨hlt, -⟩ := List.findIdx?_eq_some_iff_getElem.mp hid
    exact (uint_le id).trans_lt hlt
  · omega

end linkable

namespace links

variable [DecidableEq ι]

/-- The units have the same inputs and outputs by label. -/
def SamePorts (s t : links ι) : Prop :=
  ∀ u, (s u).m_outputs.map plug.label = (t u).m_outputs.map plug.label ∧
    (s u).m_inputs.map LinkIn.label = (t u).m_inputs.map LinkIn.label

theorem same_ports_set_out (s : links ι) (u : ι) (i : Nat) (l : LinkOut ι) :
    (s.set_out u i l).SamePorts s := by
  intro w
  unfold set_out
  by_cases hw : w = u
  · subst hw
    rw [Function.update_self]
    refine ⟨?_, rfl⟩
    apply map_modify_same
    intro out
    rfl
  · rw [Function.update_of_ne hw]
    exact ⟨rfl, rfl⟩

theorem same_ports_set_in (s : links ι) (v : ι) (k : Nat) (b : Bool) :
    (s.set_in v k b).SamePorts s := by
  intro w
  unfold set_in
  by_cases hw : w = v
  · subst hw
    rw [Function.update_self]
    refine ⟨rfl, ?_⟩
    apply map_modify_same
    intro input
    rfl
  · rw [Function.update_of_ne hw]
    exact ⟨rfl, rfl⟩

omit [DecidableEq ι] in
theorem SamePorts.trans {s t r : links ι} (h : s.SamePorts t) (g : t.SamePorts r) :
    s.SamePorts r :=
  fun u => ⟨(h u).1.trans (g u).1, (h u).2.trans (g u).2⟩

/-- An output leads where it was connected to last. -/
theorem leads_connected (s : links ι) {u v : ι} {i k : Nat} (hi : i < (s u).m_outputs.length)
    (w : ι) (j : Nat) (t : ι × Nat) :
    ((s.set_out u i { to_in := some (v, k), connected := true }).set_in v k true).Leads w j t ↔
      if w = u ∧ j = i then t = (v, k) else s.Leads w j t := by
  unfold Leads
  rw [set_in_out, set_out_out]
  split
  · rename_i hwj
    obtain ⟨rfl, rfl⟩ := hwj
    have hout : ∃ l, s.out w j = some l :=
      ⟨_, by unfold out; rw [List.getElem?_eq_getElem hi]; rfl⟩
    obtain ⟨l, hl⟩ := hout
    rw [hl]
    constructor
    · rintro ⟨l', hl', -, hto⟩
      cases hl'
      exact (Option.some.inj hto).symm
    · rintro rfl
      exact ⟨_, rfl, rfl, rfl⟩
  · rfl

end links

namespace mount

variable [DecidableEq ι]

/-- Two mounted units are linked when the plug and the jack are there. -/
theorem connect_units_some {m : mount ι} {source out dest input : String} {u v : ι}
    (hu : m.m_mounted source = some u) (hv : m.m_mounted dest = some v)
    (hout : 0 ≤ (m.m_links u).has_output out) (hin : 0 ≤ (m.m_links v).has_input input) :
    m.connect_units source out dest input = (true, { m with
      m_links := (m.m_links.set_out u (uint ((m.m_links u).has_output out))
        { to_in := some (v, uint ((m.m_links v).has_input input)), connected := true }).set_in v
          (uint ((m.m_links v).has_input input)) true }) := by
  have hlt := linkable.has_output_lt hout
  have hlt' := linkable.has_input_lt hin
  unfold connect_units get_unit
  rw [hu, hv]
  simp only
  rw [if_neg (by omega)]
  unfold linkable.get_input links.connect
  rw [if_neg (by omega), if_neg (by omega)]
  rfl

theorem connect_units_none {m : mount ι} {source out dest input : String}
    (hu : m.m_mounted source = none) : m.connect_units source out dest input = (false, m) := by
  unfold connect_units get_unit
  rw [hu]

end mount

end component

namespace config

open component (mount links uint)

variable {ι : Type} [DecidableEq ι]

/-! ## What the links of a description name -/

section names

variable (f : unit_factory ι) (desc : description) (l : links ι)

/-- The unit that is loaded for a label. -/
def unit_of (label : String) : Option ι := (unit_description desc label).bind (loaded f)

/-- The output that a link comes from, and the input that it leads to. -/
def output_of (link : s_link) : Option (ι × Nat) :=
  (unit_of f desc link.from_label).map fun u => (u, uint ((l u).has_output link.plug))

def input_of (link : s_link) : Option (ι × Nat) :=
  (unit_of f desc link.to_label).map fun v => (v, uint ((l v).has_input link.jack))

/-- No mainline, no output and no input is used by both links. -/
structure Apart (a b : s_link) : Prop where
  mainlines : a.from_label = "rack" → b.from_label = "rack" → a.plug ≠ b.plug
  outputs : a.from_label ≠ "rack" → b.from_label ≠ "rack" →
    output_of f desc l a ≠ output_of f desc l b
  inputs : a.from_label ≠ "rack" → b.from_label ≠ "rack" → input_of f desc l a ≠ input_of f desc l b

/-- Every unit that a link names is described and loadable, every plug and jack
exists, every mainline is declared, and none is used twice. -/
structure WellDescribed (ds : List s_link) : Prop where
  target : ∀ link ∈ ds, ∃ v, unit_of f desc link.to_label = some v
  source : ∀ link ∈ ds, link.from_label ≠ "rack" →
    ∃ u, unit_of f desc link.from_label = some u ∧ 0 ≤ (l u).has_output link.plug
  jack : ∀ link ∈ ds, link.from_label ≠ "rack" →
    ∀ v, unit_of f desc link.to_label = some v → 0 ≤ (l v).has_input link.jack
  declared : ∀ link ∈ ds, link.from_label = "rack" → link.plug ∈ desc.setup.mainlines
  apart : ds.Pairwise (Apart f desc l)

/-- The link leads from an output of a unit to an input. -/
structure Joins (link : s_link) (output input : ι × Nat) : Prop where
  units : link.from_label ≠ "rack"
  output_eq : output_of f desc l link = some output
  input_eq : input_of f desc l link = some input

/-- The unit that the link comes from is the target of it or of a link before it. -/
def Fed (pre : List s_link) (link : s_link) : Prop :=
  link.from_label ∈ (pre ++ [link]).map s_link.to_label

/-- What the links of the list make of the mount `m0`. -/
structure Wired (m0 : mount ι) (pre : List s_link) (m : mount ι) : Prop where
  mounted : ∀ label, m.m_mounted label =
    if label ∈ pre.map s_link.to_label then unit_of f desc label else none
  ports : m.m_links.SamePorts l
  mainlines : ∀ link ∈ pre, link.from_label = "rack" →
    m.m_mainlines link.plug = some (unit_of f desc link.to_label)
  others : ∀ name, (∀ link ∈ pre, link.from_label = "rack" → link.plug ≠ name) →
    m.m_mainlines name = m0.m_mainlines name
  leads : ∀ u i t, m.m_links.Leads u i t ↔
    ∃ a link b, pre = a ++ link :: b ∧ Fed a link ∧ Joins f desc l link (u, i) t

end names

section wiring

variable {f : unit_factory ι} {desc : description} {l : links ι}

omit [DecidableEq ι] in
theorem Apart.symm {a b : s_link} (h : Apart f desc l a b) : Apart f desc l b a :=
  ⟨fun hb ha heq => h.mainlines ha hb heq.symm, fun hb ha heq => h.outputs ha hb heq.symm,
    fun hb ha heq => h.inputs ha hb heq.symm⟩

omit [DecidableEq ι] in
theorem WellDescribed.perm {ds ds' : List s_link} (h : WellDescribed f desc l ds)
    (hperm : ds.Perm ds') : WellDescribed f desc l ds' :=
  ⟨fun link hlink => h.target link (hperm.mem_iff.mpr hlink),
    fun link hlink => h.source link (hperm.mem_iff.mpr hlink),
    fun link hlink => h.jack link (hperm.mem_iff.mpr hlink),
    fun link hlink => h.declared link (hperm.mem_iff.mpr hlink),
    (hperm.pairwise_iff fun hab => hab.symm).mp h.apart⟩

/-! ## One link -/

omit [DecidableEq ι] in
theorem unit_of_loaded {label : String} {ud : s_unit} {v : ι}
    (hud : unit_description desc label = some ud) (hv : loaded f ud = some v) :
    unit_of f desc label = some v := by
  unfold unit_of
  rw [hud, Option.bind_some, hv]

theorem target_snoc {pre : List s_link} {link : s_link} {label : String} :
    label ∈ (pre ++ [link]).map s_link.to_label ↔
      label ∈ pre.map s_link.to_label ∨ label = link.to_label := by
  rw [List.map_append, List.map_singleton, List.mem_append, List.mem_singleton]

omit [DecidableEq ι] in
/-- The target of a link is mounted before the link is connected. -/
theorem mounted_target {m0 m : mount ι} {pre : List s_link} (h : Wired f desc l m0 pre m)
    {link : s_link} {ud : s_unit} {v : ι} (hud : unit_description desc link.to_label = some ud)
    (hv : loaded f ud = some v) (label : String) :
    (mount_unit f ud m).m_mounted label =
      if label ∈ (pre ++ [link]).map s_link.to_label then unit_of f desc label else none := by
  have hlabel := unit_description_label hud
  have hmounted := h.mounted
  simp only [target_snoc]
  unfold mount_unit mount.add_unit mount.has_unit
  rw [hv, hlabel]
  simp only
  split
  · rename_i hhas
    -- the target is mounted: a link before this one leads to it too
    have hmem : link.to_label ∈ pre.map s_link.to_label := by
      by_contra hnot
      rw [hmounted, if_neg hnot] at hhas
      cases hhas
    rw [hmounted]
    by_cases hl : label = link.to_label
    · rw [hl, if_pos hmem, if_pos (.inl hmem)]
    · simp only [hl, or_false]
  · change Function.update m.m_mounted link.to_label (some v) label = _
    by_cases hl : label = link.to_label
    · rw [hl, Function.update_self, if_pos (.inr rfl), unit_of_loaded hud hv]
    · rw [Function.update_of_ne hl, hmounted]
      simp only [hl, or_false]

omit [DecidableEq ι] in
theorem mount_unit_frame (ud : s_unit) (m : mount ι) :
    (mount_unit f ud m).m_mainlines = m.m_mainlines ∧ (mount_unit f ud m).m_links = m.m_links := by
  unfold mount_unit mount.add_unit
  split
  · exact ⟨rfl, rfl⟩
  · split
    · exact ⟨rfl, rfl⟩
    · exact ⟨rfl, rfl⟩

omit [DecidableEq ι] in
/-- The links that are made grow by the last one, when it is fed and joins units. -/
theorem joins_snoc {pre : List s_link} {link : s_link} {o t : ι × Nat} :
    (∃ a link' b, pre ++ [link] = a ++ link' :: b ∧ Fed a link' ∧ Joins f desc l link' o t) ↔
      (∃ a link' b, pre = a ++ link' :: b ∧ Fed a link' ∧ Joins f desc l link' o t) ∨
        (Fed pre link ∧ Joins f desc l link o t) := by
  constructor
  · rintro ⟨a, link', b, heq, hfed, hjoins⟩
    rcases List.eq_nil_or_concat b with rfl | ⟨b, x, rfl⟩
    · obtain ⟨rfl, hlast⟩ := List.append_inj' heq rfl
      obtain rfl := (List.cons.inj hlast).1
      exact .inr ⟨hfed, hjoins⟩
    · rw [List.concat_eq_append, ← List.cons_append, ← List.append_assoc] at heq
      obtain ⟨hpre, -⟩ := List.append_inj' heq rfl
      exact .inl ⟨a, link', b, hpre, hfed, hjoins⟩
  · rintro (⟨a, link', b, rfl, hfed, hjoins⟩ | ⟨hfed, hjoins⟩)
    · exact ⟨a, link', b ++ [link], by simp, hfed, hjoins⟩
    · exact ⟨pre, link, [], rfl, hfed, hjoins⟩

omit [DecidableEq ι] in
theorem joins_iff {link : s_link} {u v : ι} (hunits : link.from_label ≠ "rack")
    (hu : unit_of f desc link.from_label = some u) (hto : unit_of f desc link.to_label = some v)
    {o t : ι × Nat} : Joins f desc l link o t ↔
      o = (u, uint ((l u).has_output link.plug)) ∧ t = (v, uint ((l v).has_input link.jack)) := by
  have houtput : output_of f desc l link = some (u, uint ((l u).has_output link.plug)) := by
    unfold output_of
    rw [hu]
    rfl
  have hinput : input_of f desc l link = some (v, uint ((l v).has_input link.jack)) := by
    unfold input_of
    rw [hto]
    rfl
  constructor
  · rintro ⟨-, ho, ht⟩
    exact ⟨Option.some.inj (ho.symm.trans houtput), Option.some.inj (ht.symm.trans hinput)⟩
  · rintro ⟨rfl, rfl⟩
    exact ⟨hunits, houtput, hinput⟩

/-- A mainline is connected to the unit that its link leads to. -/
theorem wired_mainline {m0 m : mount ι} {pre : List s_link} (h : Wired f desc l m0 pre m)
    {link : s_link} {ud : s_unit} {v : ι} (hud : unit_description desc link.to_label = some ud)
    (hv : loaded f ud = some v) (hrack : link.from_label = "rack")
    (hdeclared : (m0.m_mainlines link.plug).isSome) (hapart : ∀ a ∈ pre, Apart f desc l a link) :
    Wired f desc l m0 (pre ++ [link]) (connect_link (mount_unit f ud m) link).2 := by
  have hmounted := mounted_target h hud hv
  obtain ⟨hmain, hlinks⟩ := mount_unit_frame (f := f) ud m
  have hto := unit_of_loaded hud hv
  have hnew : ∀ a ∈ pre, a.from_label = "rack" → a.plug ≠ link.plug :=
    fun a ha hfrom => (hapart a ha).mainlines hfrom hrack
  unfold connect_link
  rw [if_pos hrack]
  obtain ⟨hno, -⟩ | ⟨line, u, hline, hu, heq⟩ :=
    (mount_unit f ud m).connect_mainline_cases link.plug link.to_label
  · exfalso
    rcases hno with hno | hno
    · rw [hmain, h.others link.plug hnew] at hno
      rw [hno] at hdeclared
      cases hdeclared
    · rw [hmounted, if_pos (by simp), hto] at hno
      cases hno
  · rw [hmounted, if_pos (by simp)] at hu
    rw [heq]
    refine ⟨hmounted, by rw [hlinks]; exact h.ports, ?_, ?_, ?_⟩
    · intro a ha hfrom
      change Function.update (mount_unit f ud m).m_mainlines link.plug (some (some u)) a.plug = _
      rcases List.mem_append.mp ha with ha | ha
      · rw [Function.update_of_ne (hnew a ha hfrom), hmain]
        exact h.mainlines a ha hfrom
      · rw [List.mem_singleton.mp ha, Function.update_self, hu]
    · intro name hname
      have hne : name ≠ link.plug := fun heq =>
        hname link (List.mem_append_right _ List.mem_cons_self) hrack heq.symm
      change Function.update (mount_unit f ud m).m_mainlines link.plug (some (some u)) name = _
      rw [Function.update_of_ne hne, hmain]
      exact h.others name fun a ha => hname a (List.mem_append_left _ ha)
    · intro w j t
      change (mount_unit f ud m).m_links.Leads w j t ↔ _
      rw [hlinks, h.leads, joins_snoc]
      refine (or_iff_left ?_).symm
      rintro ⟨-, hjoins⟩
      exact hjoins.units hrack

omit [DecidableEq ι] in
/-- A link between units is no mainline's. -/
theorem mainlines_snoc {m0 m : mount ι} {pre : List s_link} (h : Wired f desc l m0 pre m)
    {link : s_link} (hunits : link.from_label ≠ "rack") :
    (∀ a ∈ pre ++ [link], a.from_label = "rack" →
      m.m_mainlines a.plug = some (unit_of f desc a.to_label)) ∧
    ∀ name, (∀ a ∈ pre ++ [link], a.from_label = "rack" → a.plug ≠ name) →
      m.m_mainlines name = m0.m_mainlines name := by
  constructor
  · intro a ha hfrom
    rcases List.mem_append.mp ha with ha | ha
    · exact h.mainlines a ha hfrom
    · rw [List.mem_singleton.mp ha] at hfrom
      exact absurd hfrom hunits
  · intro name hname
    exact h.others name fun a ha => hname a (List.mem_append_left _ ha)

/-- The outputs lead where they did, and that of a link that is fed to its input. -/
theorem leads_snoc {m0 m : mount ι} {pre : List s_link} (h : Wired f desc l m0 pre m)
    {link : s_link} {u v : ι} {i k : Nat} (hi : i < (m.m_links u).m_outputs.length)
    (hjoins : ∀ o t, Joins f desc l link o t ↔ o = (u, i) ∧ t = (v, k)) (hfed : Fed pre link)
    (hapart : ∀ a ∈ pre, Apart f desc l a link) (w : ι) (j : Nat) (t : ι × Nat) :
    ((m.m_links.set_out u i { to_in := some (v, k), connected := true }).set_in v k true).Leads
        w j t ↔
      ∃ a link' b, pre ++ [link] = a ++ link' :: b ∧ Fed a link' ∧
        Joins f desc l link' (w, j) t := by
  rw [component.links.leads_connected _ hi, joins_snoc, h.leads, hjoins]
  split
  · rename_i hwj
    obtain ⟨rfl, rfl⟩ := hwj
    constructor
    · exact fun ht => .inr ⟨hfed, rfl, ht⟩
    · rintro (⟨a, link', b, hpre, -, hjoins'⟩ | ⟨-, -, ht⟩)
      · -- no link before this one uses its output
        have hmem : link' ∈ pre := by
          rw [hpre]
          simp
        have hown := (hjoins _ _).mpr ⟨rfl, rfl⟩
        exact absurd (hjoins'.output_eq.trans hown.output_eq.symm)
          ((hapart link' hmem).outputs hjoins'.units hown.units)
      · exact ht
  · rename_i hwj
    refine (or_iff_left ?_).symm
    rintro ⟨-, hwj', -⟩
    exact hwj (Prod.mk.inj hwj')

/-- A link between units is made when the unit that it comes from is mounted. -/
theorem wired_units {m0 m : mount ι} {pre : List s_link} (h : Wired f desc l m0 pre m)
    {link : s_link} {ud : s_unit} {u v : ι} (hud : unit_description desc link.to_label = some ud)
    (hv : loaded f ud = some v) (hunits : link.from_label ≠ "rack")
    (hu : unit_of f desc link.from_label = some u) (hout : 0 ≤ (l u).has_output link.plug)
    (hin : 0 ≤ (l v).has_input link.jack) (hapart : ∀ a ∈ pre, Apart f desc l a link) :
    Wired f desc l m0 (pre ++ [link]) (connect_link (mount_unit f ud m) link).2 := by
  have hmounted := mounted_target h hud hv
  obtain ⟨hmain, hlinks⟩ := mount_unit_frame (f := f) ud m
  obtain ⟨hmainlines, hothers⟩ := mainlines_snoc h hunits
  rw [← hmain] at hmainlines hothers
  have hto := unit_of_loaded hud hv
  have hports := h.ports
  have houtput : (m.m_links u).has_output link.plug = (l u).has_output link.plug :=
    component.linkable.has_output_congr (hports u).1 _
  have hinput : (m.m_links v).has_input link.jack = (l v).has_input link.jack :=
    component.linkable.has_input_congr (hports v).2 _
  unfold connect_link
  rw [if_neg hunits]
  by_cases hfed : Fed pre link
  · have hu' : (mount_unit f ud m).m_mounted link.from_label = some u := by
      rw [hmounted, if_pos (show link.from_label ∈ _ from hfed), hu]
    have hv' : (mount_unit f ud m).m_mounted link.to_label = some v := by
      rw [hmounted, if_pos (by simp), hto]
    rw [component.mount.connect_units_some hu' hv' (by rw [hlinks, houtput]; exact hout)
      (by rw [hlinks, hinput]; exact hin)]
    have hlt := component.linkable.has_output_lt (houtput ▸ hout)
    rw [hlinks, houtput, hinput]
    refine ⟨hmounted, ?_, hmainlines, hothers, ?_⟩
    · exact ((component.links.same_ports_set_in _ _ _ _).trans
        (component.links.same_ports_set_out _ _ _ _)).trans hports
    · exact leads_snoc h (houtput ▸ hlt) (fun o t => joins_iff hunits hu hto) hfed hapart
  · have hu' : (mount_unit f ud m).m_mounted link.from_label = none := by
      rw [hmounted, if_neg (show link.from_label ∉ _ from hfed)]
    rw [component.mount.connect_units_none hu']
    refine ⟨hmounted, by rw [hlinks]; exact hports, hmainlines, hothers, ?_⟩
    intro w j t
    rw [hlinks, h.leads, joins_snoc]
    refine (or_iff_left ?_).symm
    rintro ⟨hfed', -⟩
    exact hfed hfed'

end wiring

end config

end strangeio
