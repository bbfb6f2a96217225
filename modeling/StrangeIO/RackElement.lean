-- The rack element of a document: the links that it lists, and the units that
-- it defines. A unit is taken up with the first link that leads to it, when
-- the element holds a definition under its label.
import StrangeIO.Document
import StrangeIO.Fallible

namespace strangeio.config

variable {N : Type} {c : casts N}

/-! ## The definition of a unit -/

/-- What holds with and without the key holds of what is made of it. -/
theorem parse_key_keeps {α : Type} {I : α → Prop} {v : value N} {key : String} {x y : α}
    {parse : value N → Except type_error α} (hx : I x)
    (hparse : ∀ cv y, parse cv = .ok y → I y) (h : parse_key v key x parse = .ok y) : I y := by
  obtain ⟨cv, -, hcv⟩ := fallible.bind_ok.mp h
  split at hcv
  · cases hcv
    exact hx
  · exact hparse cv y hcv

theorem parse_binding_label {unit unit' : s_unit} {bit : String × value N}
    (h : parse_binding c unit bit = .ok unit') : unit'.label = unit.label := by
  obtain ⟨_, -, h⟩ := fallible.bind_ok.mp h
  obtain ⟨_, -, h⟩ := fallible.bind_ok.mp h
  split at h
  · cases h
    rfl
  · obtain ⟨_, -, h⟩ := fallible.bind_ok.mp h
    obtain ⟨_, -, h⟩ := fallible.bind_ok.mp h
    cases h
    rfl

theorem parse_led_label {unit unit' : s_unit} {bit : String × value N}
    (h : parse_led c unit bit = .ok unit') : unit'.label = unit.label := by
  obtain ⟨_, -, h⟩ := fallible.bind_ok.mp h
  obtain ⟨_, -, h⟩ := fallible.bind_ok.mp h
  obtain ⟨_, -, h⟩ := fallible.bind_ok.mp h
  split at h
  · cases h
    rfl
  · obtain ⟨_, -, h⟩ := fallible.bind_ok.mp h
    obtain ⟨_, -, h⟩ := fallible.bind_ok.mp h
    obtain ⟨_, -, h⟩ := fallible.bind_ok.mp h
    obtain ⟨_, -, h⟩ := fallible.bind_ok.mp h
    obtain ⟨_, -, h⟩ := fallible.bind_ok.mp h
    cases h
    rfl

theorem parse_config_label {unit unit' : s_unit} {it : String × value N}
    (h : parse_config unit it = .ok unit') : unit'.label = unit.label := by
  obtain ⟨_, -, h⟩ := fallible.bind_ok.mp h
  cases h
  rfl

/-- A fold over the entries of an object keeps the label when each step does. -/
theorem entries_label {step : s_unit → String × value N → Except type_error s_unit}
    (hstep : ∀ unit unit' e, step unit e = .ok unit' → unit'.label = unit.label)
    {unit unit' : s_unit}
    {v : value N} (h : (v.get_object >>= fun es => es.foldlM step unit) = .ok unit') :
    unit'.label = unit.label := by
  obtain ⟨es, -, h⟩ := fallible.bind_ok.mp h
  exact fallible.foldlM_keeps (I := fun x : s_unit => x.label = unit.label)
    (fun x y e _ hx hy => (hstep x y e hy).trans hx) rfl h

def s_setup.labels (setup : s_setup) : List String := setup.units.map s_unit.label

/-- A label is taken up once: what it was before stays. -/
theorem parse_unit_cases {label : String} {v : value N} {setup setup' : s_setup}
    (h : parse_unit c label v setup = .ok setup') :
    (label ∈ setup.labels ∧ setup' = setup) ∨
    (label ∉ setup.labels ∧ ∃ unit, unit.label = label ∧
      setup' = { setup with units := setup.units ++ [unit] }) := by
  have hany : setup.units.any (·.label = label) = true ↔ label ∈ setup.labels := by
    simp [s_setup.labels]
  unfold parse_unit at h
  split at h
  · rename_i hmem
    cases h
    exact .inl ⟨hany.mp hmem, rfl⟩
  · rename_i hnot
    refine .inr ⟨fun hmem => hnot (hany.mpr hmem), ?_⟩
    obtain ⟨u1, h1, h⟩ := fallible.bind_ok.mp h
    obtain ⟨u2, h2, h⟩ := fallible.bind_ok.mp h
    obtain ⟨u3, h3, h⟩ := fallible.bind_ok.mp h
    obtain ⟨u4, h4, h⟩ := fallible.bind_ok.mp h
    obtain ⟨u5, h5, h⟩ := fallible.bind_ok.mp h
    cases h
    refine ⟨u5, ?_, rfl⟩
    have hl1 : u1.label = label := by
      refine parse_key_keeps (I := fun x : s_unit => x.label = label) rfl ?_ h1
      intro cv y hy
      obtain ⟨_, -, hy⟩ := fallible.bind_ok.mp hy
      cases hy
      rfl
    have hl2 : u2.label = label := by
      refine parse_key_keeps (I := fun x : s_unit => x.label = label) hl1 ?_ h2
      intro cv y hy
      obtain ⟨_, -, hy⟩ := fallible.bind_ok.mp hy
      cases hy
      exact hl1
    have hl3 : u3.label = label := parse_key_keeps (I := fun x : s_unit => x.label = label) hl2
      (fun cv y hy => (entries_label (fun _ _ _ => parse_binding_label) hy).trans hl2) h3
    have hl4 : u4.label = label := parse_key_keeps (I := fun x : s_unit => x.label = label) hl3
      (fun cv y hy => (entries_label (fun _ _ _ => parse_led_label) hy).trans hl3) h4
    exact parse_key_keeps (I := fun x : s_unit => x.label = label) hl4
      (fun cv y hy => (entries_label (fun _ _ _ => parse_config_label) hy).trans hl4) h5

/-! ## The links -/

/-- The element holds a definition under the label. -/
def Defines (v : value N) (label : String) : Prop := ∃ uv, v.get label = .ok uv ∧ uv.is_null = false

theorem parse_mainline_cases {setup setup' : s_setup} {mit : value N}
    (h : parse_mainline setup mit = .ok setup') :
    ∃ plug, setup' = { setup with mainlines := setup.mainlines ++ [plug] } := by
  obtain ⟨_, -, h⟩ := fallible.bind_ok.mp h
  obtain ⟨plug, -, h⟩ := fallible.bind_ok.mp h
  cases h
  exact ⟨plug, rfl⟩

/-- A link is listed; its target is taken up if it is defined and new. -/
theorem parse_daisychain_cases {v it : value N} {setup setup' : s_setup}
    (h : parse_daisychain c v setup it = .ok setup') :
    ∃ link, it.get "to" = .ok (.string link.to_label) ∧
      setup'.mainlines = setup.mainlines ∧ setup'.daisychains = setup.daisychains ++ [link] ∧
      (setup'.labels = setup.labels ∧ (Defines v link.to_label → link.to_label ∈ setup.labels) ∨
        Defines v link.to_label ∧ link.to_label ∉ setup.labels ∧
          setup'.labels = setup.labels ++ [link.to_label]) := by
  obtain ⟨_, -, h⟩ := fallible.bind_ok.mp h
  obtain ⟨fm, -, h⟩ := fallible.bind_ok.mp h
  obtain ⟨_, -, h⟩ := fallible.bind_ok.mp h
  obtain ⟨pl, -, h⟩ := fallible.bind_ok.mp h
  obtain ⟨to_value, hto, h⟩ := fallible.bind_ok.mp h
  obtain ⟨target, htarget, h⟩ := fallible.bind_ok.mp h
  obtain ⟨_, -, h⟩ := fallible.bind_ok.mp h
  obtain ⟨jk, -, h⟩ := fallible.bind_ok.mp h
  obtain ⟨uv, huv, h⟩ := fallible.bind_ok.mp h
  have hvalue : to_value = .string target := by
    cases to_value with
    | string s =>
      cases htarget
      rfl
    | _ => cases htarget
  refine ⟨⟨fm, pl, target, jk⟩, by rw [hto, hvalue], ?_⟩
  split at h
  · rename_i hnull
    cases h
    refine ⟨rfl, rfl, .inl ⟨rfl, ?_⟩⟩
    rintro ⟨uv', huv', hnot⟩
    cases huv.symm.trans huv'
    rw [hnull] at hnot
    cases hnot
  · rename_i hdefined
    have hdef : Defines v target := ⟨uv, huv, by simpa using hdefined⟩
    obtain ⟨hmem, rfl⟩ | ⟨hnew, unit, hlabel, rfl⟩ := parse_unit_cases h
    · exact ⟨rfl, rfl, .inl ⟨rfl, fun _ => hmem⟩⟩
    · refine ⟨rfl, rfl, .inr ⟨hdef, hnew, ?_⟩⟩
      simp [s_setup.labels, hlabel]

/-! ## The element -/

/-- The units that are taken up are the targets that are defined, each once. -/
structure TakenUp (v : value N) (setup : s_setup) : Prop where
  once : setup.labels.Nodup
  defined : ∀ label ∈ setup.labels, Defines v label
  targets : ∀ link ∈ setup.daisychains, Defines v link.to_label → link.to_label ∈ setup.labels

theorem TakenUp.mem_iff {v : value N} {setup : s_setup} (h : TakenUp v setup) {link : s_link}
    (hlink : link ∈ setup.daisychains) :
    link.to_label ∈ setup.labels ↔ Defines v link.to_label :=
  ⟨h.defined _, h.targets link hlink⟩

theorem taken_up_daisychain {v it : value N} {setup setup' : s_setup} (hsetup : TakenUp v setup)
    (h : parse_daisychain c v setup it = .ok setup') : TakenUp v setup' := by
  obtain ⟨link, -, -, hlinks, hlabels⟩ := parse_daisychain_cases h
  obtain ⟨hsame, hmem⟩ | ⟨hdef, hnew, hmore⟩ := hlabels
  · refine ⟨by rw [hsame]; exact hsetup.once, by rw [hsame]; exact hsetup.defined, ?_⟩
    intro l hl hldef
    rw [hsame]
    rw [hlinks] at hl
    rcases List.mem_append.mp hl with hl | hl
    · exact hsetup.targets l hl hldef
    · rw [List.mem_singleton.mp hl] at hldef ⊢
      exact hmem hldef
  · refine ⟨?_, ?_, ?_⟩
    · rw [hmore]
      refine List.nodup_append.mpr ⟨hsetup.once, List.pairwise_singleton _ _, ?_⟩
      rintro label hlabel _ hmem rfl
      exact hnew (List.mem_singleton.mp hmem ▸ hlabel)
    · intro label hlabel
      rw [hmore] at hlabel
      rcases List.mem_append.mp hlabel with hlabel | hlabel
      · exact hsetup.defined label hlabel
      · rw [List.mem_singleton.mp hlabel]
        exact hdef
    · intro l hl hldef
      rw [hmore]
      rw [hlinks] at hl
      rcases List.mem_append.mp hl with hl | hl
      · exact List.mem_append_left _ (hsetup.targets l hl hldef)
      · rw [List.mem_singleton.mp hl]
        exact List.mem_append_right _ List.mem_cons_self

/-- The entries of the document say where the links lead. -/
def LeadTo (its : List (value N)) (links : List s_link) : Prop :=
  its.map (fun it => it.get "to") = links.map fun link => .ok (.string link.to_label)

theorem parse_daisychains {v : value N} {its : List (value N)} {setup setup' : s_setup}
    (hsetup : TakenUp v setup) (h : its.foldlM (parse_daisychain c v) setup = .ok setup') :
    TakenUp v setup' ∧ setup'.mainlines = setup.mainlines ∧
      ∃ links, setup'.daisychains = setup.daisychains ++ links ∧ LeadTo its links := by
  induction its generalizing setup with
  | nil =>
    cases h
    exact ⟨hsetup, rfl, [], (List.append_nil _).symm, rfl⟩
  | cons it its ih =>
    obtain ⟨setup1, h1, h2⟩ := fallible.foldlM_cons_ok.mp h
    obtain ⟨hup, hmain, links, hlinks, hleads⟩ := ih (taken_up_daisychain hsetup h1) h2
    obtain ⟨link, hto, hmain1, hlinks1, -⟩ := parse_daisychain_cases h1
    refine ⟨hup, hmain.trans hmain1, link :: links, ?_, ?_⟩
    · rw [hlinks, hlinks1, List.append_assoc]
      rfl
    · unfold LeadTo at hleads ⊢
      rw [List.map_cons, List.map_cons, hto, hleads]

theorem parse_mainlines {mlines : List (value N)} {setup setup' : s_setup}
    (h : mlines.foldlM parse_mainline setup = .ok setup') :
    ∃ plugs : List String, plugs.length = mlines.length ∧
      setup' = { setup with mainlines := setup.mainlines ++ plugs } := by
  induction mlines generalizing setup with
  | nil =>
    cases h
    exact ⟨[], rfl, by rw [List.append_nil]⟩
  | cons mit mlines ih =>
    obtain ⟨setup1, h1, h2⟩ := fallible.foldlM_cons_ok.mp h
    obtain ⟨plug, rfl⟩ := parse_mainline_cases h1
    obtain ⟨plugs, hlength, rfl⟩ := ih h2
    refine ⟨plug :: plugs, by rw [List.length_cons, List.length_cons, hlength], ?_⟩
    simp [List.append_assoc]

theorem get_array_ok {v : value N} {key : String} {vs : List (value N)}
    (h : (v.get key >>= fun cv => cv.get_array) = .ok vs) : v.get key = .ok (.array vs) := by
  obtain ⟨cv, hcv, hvs⟩ := fallible.bind_ok.mp h
  cases cv with
  | array vs' =>
    cases hvs
    exact hcv
  | _ => cases hvs

/-- What is made of a rack element: its links in their order, and the units of
the targets that it defines. -/
theorem parse_rack_ok {v : value N} {setup : s_setup} (h : parse_rack c v {} = .ok setup) :
    ∃ mlines its, v.get "mainlines" = .ok (.array mlines) ∧
      v.get "daisychains" = .ok (.array its) ∧ setup.mainlines.length = mlines.length ∧
      LeadTo its setup.daisychains ∧ TakenUp v setup := by
  obtain ⟨mv, hmv, h⟩ := fallible.bind_ok.mp h
  obtain ⟨mlines, hml, h⟩ := fallible.bind_ok.mp h
  obtain ⟨setup1, h1, h⟩ := fallible.bind_ok.mp h
  obtain ⟨dv, hdv, h⟩ := fallible.bind_ok.mp h
  obtain ⟨its, hits, h⟩ := fallible.bind_ok.mp h
  obtain ⟨plugs, hlength, rfl⟩ := parse_mainlines h1
  have hempty : TakenUp v { mainlines := [] ++ plugs : s_setup } :=
    ⟨List.nodup_nil, fun _ hl => absurd hl List.not_mem_nil,
      fun _ hl => absurd hl List.not_mem_nil⟩
  obtain ⟨hup, hmain, links, hlinks, hleads⟩ := parse_daisychains hempty h
  have hlinks' : setup.daisychains = links := hlinks
  refine ⟨mlines, its, get_array_ok (fallible.bind_ok.mpr ⟨mv, hmv, hml⟩),
    get_array_ok (fallible.bind_ok.mpr ⟨dv, hdv, hits⟩), ?_, by rw [hlinks']; exact hleads, hup⟩
  rw [hmain, ← hlength]
  rfl

end strangeio.config
