-- Which documents can be assembled: the parse takes up a link whose target the
-- rack element does not define, and the assembler throws on it.
import StrangeIO.Assembler
import StrangeIO.Independence
import StrangeIO.Walk

namespace strangeio.config

variable {ι N : Type} [DecidableEq ι]

/-! ## What the assembler can assemble -/

theorem assemble_link_ends {f : unit_factory ι} (hf : f.Labelled) {desc : description}
    (sys : assembly ι) (link : s_link) :
    (∃ sys', assemble_link f desc sys link = some sys') ↔ link.to_label ∈ desc.setup.labels := by
  rw [s_setup.labels, ← unit_description_isSome]
  unfold assemble_link
  obtain ⟨hnone, hcheck⟩ | ⟨ud, sys', hud, hcheck, -⟩ := check_unit_cases hf sys link.to_label
  · rw [hnone, hcheck]
    simp
  · rw [hud, hcheck]
    simp

/-- A description can be assembled when the target of each link is described, and only then. -/
theorem assemble_ends {f : unit_factory ι} (hf : f.Labelled) {desc : description}
    (sys : assembly ι) :
    (∃ sys', assemble f desc sys = some sys') ↔
      ∀ link ∈ desc.setup.daisychains, link.to_label ∈ desc.setup.labels := by
  unfold assemble assemble_daisychains
  generalize assemble_devices desc (assemble_mainlines desc sys) = sys
  generalize desc.setup.daisychains = links
  induction links generalizing sys with
  | nil => simp
  | cons link links ih =>
    simp only [List.forall_mem_cons, List.foldlM_cons]
    rw [← assemble_link_ends hf sys link]
    constructor
    · rintro ⟨sys', h⟩
      obtain ⟨sys1, h1, h2⟩ := Option.bind_eq_some_iff.mp h
      exact ⟨⟨sys1, h1⟩, (ih sys1).mp ⟨sys', h2⟩⟩
    · rintro ⟨⟨sys1, h1⟩, hrest⟩
      obtain ⟨sys', h2⟩ := (ih sys1).mpr hrest
      exact ⟨sys', Option.bind_eq_some_iff.mpr ⟨sys1, h1, h2⟩⟩

/-! ## What a document defines -/

variable {c : casts N}

/-- The rack element defines the target of each of its links. -/
def DefinesTargets (rack : value N) : Prop :=
  ∀ its, rack.get "daisychains" = .ok (.array its) →
    ∀ it ∈ its, ∀ target, it.get "to" = .ok (.string target) → Defines rack target

/-- The rack element, unless a controller without a port keeps it out, defines
the target of each of its links. -/
def DefinesAll (doc : json N) : Prop :=
  ∀ o rack, doc.root = .object o → (controllers o).any portless = false →
    o.lookup "rack" = some rack → DefinesTargets rack

theorem parse_controllers_returns {ms : List (String × value N)} {midi midi' : s_midi}
    {returns : Bool} (h : parse_controllers c ms midi = .ok (returns, midi')) :
    returns = ms.any portless := by
  induction ms generalizing midi with
  | nil =>
    cases h
    rfl
  | cons mit ms ih =>
    rw [List.any_cons]
    obtain ⟨controller, hparse, h⟩ := fallible.bind_ok.mp h
    obtain ⟨dv, hport, hparse⟩ := fallible.bind_ok.mp hparse
    have hportless : portless mit = dv.is_null := by
      unfold portless
      rw [hport]
    rw [hportless]
    split at hparse
    · rename_i hnull
      cases hparse
      cases h
      rw [hnull, Bool.true_or]
    · rename_i hnot
      obtain ⟨port, -, hparse⟩ := fallible.bind_ok.mp hparse
      obtain ⟨led_on, -, hparse⟩ := fallible.bind_ok.mp hparse
      obtain ⟨led_off, -, hparse⟩ := fallible.bind_ok.mp hparse
      cases hparse
      rw [Bool.eq_false_of_not_eq_true hnot, Bool.false_or]
      exact ih h

theorem midi_section_returns {o : List (String × value N)} {midi midi' : s_midi} {returns : Bool}
    (h : midi_section c (o.lookup "midi") midi = .ok (returns, midi')) :
    returns = (controllers o).any portless := by
  unfold midi_section at h
  unfold controllers
  cases hm : o.lookup "midi" with
  | none =>
    rw [hm] at h
    cases h
    rfl
  | some m =>
    rw [hm] at h
    obtain ⟨ms, hms, hparse⟩ := fallible.bind_ok.mp h
    cases m with
    | object ms' =>
      cases hms
      exact parse_controllers_returns hparse
    | _ => cases hms

/-- The setup of what is loaded is that of the rack element, when it is read. -/
theorem load_setup {doc : json N} {o : List (String × value N)} {d : description}
    (hdoc : doc.root = .object o) (h : load c doc = .ok d) :
    if (controllers o).any portless then d.setup = {}
    else rack_section c (o.lookup "rack") {} = .ok d.setup := by
  have hordered := doc.ordered
  rw [hdoc] at hordered
  unfold load at h
  rw [hdoc, parse_root_eq c hordered] at h
  obtain ⟨⟨returns, midi⟩, hmidi, h⟩ := fallible.bind_ok.mp h
  rw [← midi_section_returns hmidi]
  simp only at h
  split at h
  · cases h
    rw [if_pos ‹_›]
    rfl
  · obtain ⟨setup, hrack, h⟩ := fallible.bind_ok.mp h
    rw [if_neg ‹_›]
    cases hsystem : system_section c (o.lookup "system") fresh.system with
    | error e =>
      rw [hsystem] at h
      cases h
    | ok system =>
      rw [hsystem] at h
      cases h
      exact hrack

/-- Each link leads to a unit that is taken up. -/
def Targeted (setup : s_setup) : Prop :=
  ∀ link ∈ setup.daisychains, link.to_label ∈ setup.labels

theorem rack_targets {r : Option (value N)} {setup : s_setup}
    (h : rack_section c r {} = .ok setup) :
    setup.labels.Nodup ∧ (Targeted setup ↔ ∀ rack, r = some rack → DefinesTargets rack) := by
  cases r with
  | none =>
    obtain rfl := Except.ok.inj h
    refine ⟨List.nodup_nil, iff_of_true (fun _ hl => absurd hl List.not_mem_nil) ?_⟩
    intro rack hrack
    cases hrack
  | some rack =>
    obtain ⟨mlines, its, -, hits, -, hleads, hup⟩ := parse_rack_ok h
    refine ⟨hup.once, ?_⟩
    simp only [Option.some.injEq, forall_eq']
    constructor
    · intro htargets its' hits' it hit target hto
      cases hits.symm.trans hits'
      have hmem : it.get "to" ∈ its.map fun it => it.get "to" := List.mem_map_of_mem hit
      rw [hleads, hto] at hmem
      obtain ⟨link, hlink, heq⟩ := List.mem_map.mp hmem
      cases heq
      exact (hup.mem_iff hlink).mp (htargets link hlink)
    · intro hdefines link hlink
      have hmem := List.mem_map_of_mem (f := fun link : s_link =>
        (.ok (.string link.to_label) : Except type_error (value N))) hlink
      rw [← hleads] at hmem
      obtain ⟨it, hit, hto⟩ := List.mem_map.mp hmem
      exact (hup.mem_iff hlink).mpr (hdefines its hits it hit _ hto)

/-- The units of what is loaded are the targets that the rack element defines, each once. -/
theorem load_targets {doc : json N} {d : description} (h : load c doc = .ok d) :
    d.setup.labels.Nodup ∧ (Targeted d.setup ↔ DefinesAll doc) := by
  by_cases hobject : ∃ o, doc.root = .object o
  · obtain ⟨o, hdoc⟩ := hobject
    have hsetup := load_setup hdoc h
    have hdefines : DefinesAll doc ↔ ((controllers o).any portless = false →
        ∀ rack, o.lookup "rack" = some rack → DefinesTargets rack) := by
      constructor
      · intro hall hnone rack
        exact hall o rack hdoc hnone
      · intro hall o' rack hdoc' hnone hrack
        cases hdoc.symm.trans hdoc'
        exact hall hnone rack hrack
    rw [hdefines]
    split at hsetup
    · rename_i hportless
      rw [hsetup]
      refine ⟨List.nodup_nil, iff_of_true (fun _ hl => absurd hl List.not_mem_nil) ?_⟩
      intro hnone
      rw [hportless] at hnone
      cases hnone
    · rename_i hportless
      obtain ⟨honce, htargets⟩ := rack_targets hsetup
      refine ⟨honce, htargets.trans ?_⟩
      exact ⟨fun hall _ => hall, fun hall => hall (Bool.eq_false_of_not_eq_true hportless)⟩
  · have hother : ∀ o, doc.root ≠ .object o := fun o hdoc => hobject ⟨o, hdoc⟩
    rw [load_other c hother] at h
    cases h
    refine ⟨List.nodup_nil, iff_of_true (fun _ hl => absurd hl List.not_mem_nil) ?_⟩
    exact fun o _ hdoc => absurd hdoc (hother o)

/-- **A document that is loaded can be assembled, and describes the target of
each link once, just when its rack element defines all targets.** -/
theorem what_is_loaded_is_assembled_when_all_targets_are_defined {f : unit_factory ι}
    (hf : f.Labelled) {doc : json N} {desc : description} (h : load c doc = .ok desc)
    (sys : assembly ι) :
    ((∃ sys', assemble f desc sys = some sys') ∧ ∀ link ∈ desc.setup.daisychains,
      desc.setup.units.countP (fun u => u.label = link.to_label) = 1) ↔ DefinesAll doc := by
  obtain ⟨honce, htargets⟩ := load_targets h
  have hcount : ∀ label, desc.setup.units.countP (fun u => u.label = label) =
      desc.setup.labels.count label := by
    intro label
    rw [s_setup.labels, List.count_eq_countP, List.countP_map]
    exact List.countP_congr fun u _ => by simp
  rw [assemble_ends hf, ← htargets]
  constructor
  · exact fun hboth => hboth.1
  · intro hall
    refine ⟨hall, ?_⟩
    intro link hlink
    rw [hcount]
    exact List.count_eq_one_of_mem honce (hall link hlink)

/-! ## A link to a unit that is not defined -/

/-- The entry of a link from the rack to a unit. -/
def power_entry : value Nat :=
  .object [("from", .string "rack"), ("jack", .string "power"), ("plug", .string "ac1"),
    ("to", .string "phi")]

/-- A document with this link and these definitions of units. -/
def one_link (definitions : List (String × value Nat)) : value Nat :=
  .object [("rack", .object (("daisychains", .array [power_entry]) :: ("mainlines", .array []) ::
    definitions))]

theorem power_entry_ordered : power_entry.Ordered := by
  refine .object ?_ ?_
  · have hkeys : ["from", "jack", "plug", "to"].Pairwise (· < ·) := by decide
    exact List.pairwise_map.mp hkeys
  · simp only [List.mem_cons, List.not_mem_nil, or_false, forall_eq_or_imp, forall_eq]
    exact ⟨.string _, .string _, .string _, .string _⟩

/-- The link alone, and the link with a definition of its target. -/
def undefined_target : json Nat where
  root := one_link []
  ordered := by
    have hkeys : ["daisychains", "mainlines"].Pairwise (· < ·) := by decide
    refine .object (List.pairwise_singleton _ _) ?_
    simp only [List.mem_cons, List.not_mem_nil, or_false, forall_eq]
    refine .object (List.pairwise_map.mp hkeys) ?_
    simp only [List.mem_cons, List.not_mem_nil, or_false, forall_eq_or_imp, forall_eq]
    refine ⟨.array ?_, .array fun _ hv => absurd hv List.not_mem_nil⟩
    simp only [List.mem_cons, List.not_mem_nil, or_false, forall_eq]
    exact power_entry_ordered

def defined_target : json Nat where
  root := one_link [("phi", .object [])]
  ordered := by
    have hkeys : ["daisychains", "mainlines", "phi"].Pairwise (· < ·) := by decide
    refine .object (List.pairwise_singleton _ _) ?_
    simp only [List.mem_cons, List.not_mem_nil, or_false, forall_eq]
    refine .object (List.pairwise_map.mp hkeys) ?_
    simp only [List.mem_cons, List.not_mem_nil, or_false, forall_eq_or_imp, forall_eq]
    refine ⟨.array ?_, .array fun _ hv => absurd hv List.not_mem_nil,
      .object .nil fun _ he => absurd he List.not_mem_nil⟩
    simp only [List.mem_cons, List.not_mem_nil, or_false, forall_eq]
    exact power_entry_ordered

/-- One unit can be loaded. -/
def phi_factory : unit_factory Unit where
  load _ label _ := if label = "phi" then some () else none
  ulabel _ := "phi"
  midi_handlers _ := []
  midi_leds _ := []

theorem phi_labelled : phi_factory.Labelled := by
  intro model label library u h
  by_contra hne
  have hload : phi_factory.load model label library = none := if_neg fun heq => hne heq.symm
  rw [hload] at h
  cases h

def empty_assembly : assembly Unit where
  mount := component.mount.new fun _ => component.linkable.make ["power"] []
  handler := ⟨[], fun _ => none⟩

/-- A link to a unit that is defined is assembled. -/
theorem a_defined_target_is_assembled :
    ∃ desc, load plain defined_target = .ok desc ∧
      ∃ sys', assemble phi_factory desc empty_assembly = some sys' := by
  obtain ⟨desc, hload⟩ : ∃ desc, load plain defined_target = .ok desc := ⟨_, rfl⟩
  refine ⟨desc, hload, ((what_is_loaded_is_assembled_when_all_targets_are_defined phi_labelled hload
    empty_assembly).mpr ?_).1⟩
  rintro o rack hdoc - hrack its hits it hit target hto
  cases hdoc
  obtain rfl := Option.some.inj hrack
  cases hits
  obtain rfl := List.mem_singleton.mp hit
  cases hto
  exact ⟨.object [], rfl, rfl⟩

/-- A link to a unit that is not defined is loaded, and the assembler throws on it. -/
theorem an_undefined_target_is_loaded_but_not_assembled :
    ¬ ∀ (doc : json Nat) (desc : description), load plain doc = .ok desc →
      ∀ (f : unit_factory Unit), f.Labelled → ∀ sys : assembly Unit,
        (∃ sys', assemble f desc sys = some sys') ∧ ∀ link ∈ desc.setup.daisychains,
          desc.setup.units.countP (fun u => u.label = link.to_label) = 1 := by
  intro hall
  obtain ⟨sys', h⟩ := (hall undefined_target _ rfl phi_factory phi_labelled empty_assembly).1
  cases h

end strangeio.config
