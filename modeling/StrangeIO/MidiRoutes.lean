-- The way of a midi message: from the device that flushes it (midi/device.cpp) to the
-- handler that the assembler bound to its code. A code that is bound keeps its handler:
-- the first binding of a device and a code is the one that counts.
import StrangeIO.LinkOrder

namespace strangeio

variable {ι : Type}

namespace midi

/-! ## Messages -/

/-- A control code: the function, the note and the velocity. -/
structure msg where
  f : UInt8
  n : UInt8
  v : UInt8
deriving DecidableEq, Repr

/-- The calls that `cycle` makes for the messages that it flushes while the device runs: its
reads of `m_running` are left to the thread (`the_thread_calls_what_it_flushes`). A message of
function 0 ends it, and a code that is not bound is caught. -/
def device.cycle (dev : device ι) : List msg → List ((ι × String) × msg)
  | [] => []
  | code :: rest =>
    if code.f = 0 then []
    else
      match dev.m_bindings code.n.toNat with
      | some func => (func, code) :: dev.cycle rest
      | none => dev.cycle rest

/-- A message of a cycle calls the handler, once, and no other. A message of function 0 is
none. -/
def device.Calls (dev : device ι) (m : msg) (func : ι × String) : Prop :=
  ∀ before after, (∀ x ∈ before ++ [m], x.f ≠ 0) →
    dev.cycle (before ++ m :: after) = dev.cycle before ++ (func, m) :: dev.cycle after

theorem cycle_append (dev : device ι) {before : List msg} (h : ∀ m ∈ before, m.f ≠ 0)
    (after : List msg) : dev.cycle (before ++ after) = dev.cycle before ++ dev.cycle after := by
  induction before with
  | nil => rfl
  | cons m before ih =>
    have ih := ih fun x hx => h x (List.mem_cons_of_mem _ hx)
    simp only [List.cons_append, device.cycle, if_neg (h m List.mem_cons_self), ih]
    cases dev.m_bindings m.n.toNat with
    | none => rfl
    | some func => rfl

/-- Every call is for a message of the cycle, and of a binding of the device. -/
theorem mem_cycle {dev : device ι} {ms : List msg} {call : (ι × String) × msg}
    (h : call ∈ dev.cycle ms) : call.2 ∈ ms ∧ dev.m_bindings call.2.n.toNat = some call.1 := by
  induction ms with
  | nil => cases h
  | cons m ms ih =>
    unfold device.cycle at h
    split at h
    · cases h
    · split at h
      · rename_i func hfunc
        rcases List.mem_cons.mp h with rfl | h
        · exact ⟨List.mem_cons_self, hfunc⟩
        · exact ⟨List.mem_cons_of_mem _ (ih h).1, (ih h).2⟩
      · exact ⟨List.mem_cons_of_mem _ (ih h).1, (ih h).2⟩

theorem calls_binding {dev : device ι} {m : msg} {func : ι × String}
    (h : dev.m_bindings m.n.toNat = some func) : dev.Calls m func := by
  intro before after hf
  have hm : m.f ≠ 0 := hf m (by simp)
  rw [cycle_append dev fun x hx => hf x (List.mem_append_left _ hx)]
  simp only [device.cycle, if_neg hm, h]

/-- Two handlers are not both called by one message. -/
theorem calls_unique (dev : device ι) (n : UInt8) {func func' : ι × String}
    (h : ∀ m : msg, m.n = n → dev.Calls m func) (h' : ∀ m : msg, m.n = n → dev.Calls m func') :
    func = func' := by
  have hone : ∀ x ∈ ([] : List msg) ++ [(⟨1, n, 0⟩ : msg)], x.f ≠ 0 := by
    intro x hx
    rw [List.mem_singleton.mp hx]
    exact (by decide : (1 : UInt8) ≠ 0)
  have h1 := h ⟨1, n, 0⟩ rfl [] [] hone
  have h2 := h' ⟨1, n, 0⟩ rfl [] [] hone
  rw [h1] at h2
  simpa [device.cycle] using h2

/-! ## The bindings of the devices -/

/-- A binding as it is added: to a device and a code. -/
structure bound (ι : Type) where
  module_ : String
  code : Int
  func : ι × String

/-- Each device has the first of the bindings to it and a code. -/
def midi_handler.Holds (h : midi_handler ι) (es : List (bound ι)) : Prop :=
  ∀ dev ∈ h.m_devices, ∀ code, dev.m_bindings code =
    (es.find? fun e => decide (e.module_ = dev.m_alias ∧ e.code = code)).map bound.func

def midi_handler.aliases (h : midi_handler ι) : List String := h.m_devices.map device.m_alias

theorem insert_apply {K V : Type} [DecidableEq K] (key k : K) (v : V) (m : K → Option V) :
    insert key v m k = (m k).or (if k = key then some v else none) := by
  unfold insert
  split
  · rename_i hsome
    by_cases hk : k = key
    · subst hk
      obtain ⟨w, hw⟩ := Option.isSome_iff_exists.mp hsome
      rw [hw]
      rfl
    · simp [hk]
  · rename_i hnone
    by_cases hk : k = key
    · subst hk
      simp at hnone
      simp [hnone]
    · simp [hk]

theorem holds_add_binding {h : midi_handler ι} {es : List (bound ι)} (hh : h.Holds es)
    (module_ : String) (code : Int) (func : ι × String) :
    (h.add_binding module_ code func).Holds (es ++ [⟨module_, code, func⟩]) := by
  intro dev' hdev' k
  obtain ⟨dev, hdev, rfl⟩ := List.mem_map.mp hdev'
  have hfirst := hh dev hdev k
  rw [List.find?_append, Option.map_or]
  by_cases ha : dev.m_alias = module_
  · rw [if_pos ha]
    change insert code func dev.m_bindings k = _
    rw [insert_apply, hfirst]
    by_cases hk : k = code
    · subst hk
      simp [device.add_binding, ha]
    · simp [device.add_binding, ha, hk, Ne.symm hk]
  · rw [if_neg ha, hfirst]
    simp [Ne.symm ha]

/-- What is there already may be added again. -/
theorem holds_again {h : midi_handler ι} {es more : List (bound ι)} (hh : h.Holds es)
    (hmore : ∀ e ∈ more, e ∈ es) : h.Holds (es ++ more) := by
  intro dev hdev code
  rw [hh dev hdev code, List.find?_append]
  cases hfind : es.find? fun e => decide (e.module_ = dev.m_alias ∧ e.code = code) with
  | some e => rfl
  | none =>
    have hnone : (more.find? fun e => decide (e.module_ = dev.m_alias ∧ e.code = code)) = none :=
      List.find?_eq_none.mpr fun e he => List.find?_eq_none.mp hfind e (hmore e he)
    rw [hnone]
    rfl

theorem aliases_add_binding (h : midi_handler ι) (module_ : String) (code : Int)
    (func : ι × String) : (h.add_binding module_ code func).aliases = h.aliases := by
  unfold midi_handler.aliases midi_handler.add_binding
  rw [List.map_map]
  refine List.map_congr_left fun dev _ => ?_
  simp only [Function.comp_apply]
  split
  · rfl
  · rfl

theorem add_led_devices (h : midi_handler ι) (unit : String) (state : Int) (led : led_state) :
    (h.add_led unit state led).m_devices = h.m_devices := by
  unfold midi_handler.add_led
  split
  · rfl
  · rfl

end midi

namespace config

open component (mount links)
open midi (bound device msg midi_handler)

variable (f : unit_factory ι) (desc : description)

/-! ## What a description binds -/

/-- The binding of a unit's handler, if the unit exports it. -/
def binding_to (u : ι) (binding : s_binding) : Option (bound ι) :=
  if binding.name ∈ f.midi_handlers u then
    some ⟨binding.module_, binding.code, (u, binding.name)⟩
  else none

/-- What the unit that is loaded for the label binds. -/
def exported (label : String) : List (bound ι) :=
  match unit_description desc label with
  | none => []
  | some ud =>
    match loaded f ud with
    | none => []
    | some u => ud.bindings.filterMap (binding_to f u)

/-- The bindings in the order in which the units are mounted that the links lead to. -/
def all_bound (ds : List s_link) : List (bound ι) :=
  ds.flatMap fun link => exported f desc link.to_label

/-- A unit that a link leads to has a binding to the device and the code, whose handler it
exports. -/
def Bound (module_ : String) (code : Int) (func : ι × String) : Prop :=
  ⟨module_, code, func⟩ ∈ all_bound f desc desc.setup.daisychains

/-- The handler of the first binding to the device and the code. -/
def first_bound (module_ : String) (code : Int) : Option (ι × String) :=
  ((all_bound f desc desc.setup.daisychains).find? fun e =>
    decide (e.module_ = module_ ∧ e.code = code)).map bound.func

/-- The devices route what the description binds: each controller has a device, a message to
a code that is bound calls the first handler that is bound to it, and a call is for a
binding. -/
structure Routes (h : midi_handler ι) : Prop where
  devices : ∀ label ∈ desc.midi.controllers.map s_controller.label, ∃ dev ∈ h.m_devices,
    dev.m_alias = label
  routed : ∀ dev ∈ h.m_devices, ∀ (m : msg) own, Bound f desc dev.m_alias m.n.toNat own →
    ∃ func, first_bound f desc dev.m_alias m.n.toNat = some func ∧ dev.Calls m func
  only : ∀ dev ∈ h.m_devices, ∀ ms, ∀ call ∈ dev.cycle ms,
    call.2 ∈ ms ∧ Bound f desc dev.m_alias call.2.n.toNat call.1

/-- A rack before the assembly. -/
def assembly.new (l : links ι) : assembly ι := ⟨mount.new l, ⟨[], fun _ => none⟩⟩

/-- After the links `pre` the units that they lead to are mounted, and their bindings are
what the devices have. -/
structure Binds (pre : List s_link) (sys : assembly ι) : Prop where
  aliases : sys.handler.aliases = desc.midi.controllers.map s_controller.label
  mounted : ∀ label, sys.mount.has_unit label = true ↔
    label ∈ pre.map s_link.to_label ∧ (unit_of f desc label).isSome
  holds : sys.handler.Holds (all_bound f desc pre)

variable {f desc}

/-! ## The bindings of one unit -/

theorem exported_none {label : String} (h : unit_of f desc label = none) :
    exported f desc label = [] := by
  unfold exported
  unfold unit_of at h
  cases hud : unit_description desc label with
  | none => rfl
  | some ud =>
    rw [hud] at h
    change loaded f ud = none at h
    simp only [h]

theorem exported_some {label : String} {ud : s_unit} {u : ι}
    (hud : unit_description desc label = some ud) (hu : loaded f ud = some u) :
    exported f desc label = ud.bindings.filterMap (binding_to f u) := by
  unfold exported
  simp only [hud, hu]

/-- The bindings of a unit are added one after the other. -/
theorem holds_bindings (u : ι) (bs : List s_binding) {h : midi_handler ι} {es : List (bound ι)}
    (hh : h.Holds es) :
    let h' := bs.foldl
      (fun handler binding =>
        if binding.name ∈ f.midi_handlers u then
          handler.add_binding binding.module_ binding.code (u, binding.name)
        else handler) h
    h'.Holds (es ++ bs.filterMap (binding_to f u)) ∧ h'.aliases = h.aliases := by
  induction bs generalizing h es with
  | nil => simpa using hh
  | cons b bs ih =>
    simp only [List.foldl_cons, List.filterMap_cons]
    unfold binding_to
    split
    · obtain ⟨h1, h2⟩ := ih (midi.holds_add_binding hh b.module_ b.code (u, b.name))
      rw [List.append_assoc] at h1
      exact ⟨h1, h2.trans (midi.aliases_add_binding h b.module_ b.code (u, b.name))⟩
    · exact ih hh

theorem assemble_leds_devices {sys sys' : assembly ι} {u : ι}
    (h : assemble_leds f desc sys u = some sys') :
    sys'.handler.m_devices = sys.handler.m_devices := by
  obtain ⟨ud, -, h⟩ := Option.bind_eq_some_iff.mp h
  cases h
  change (ud.leds.foldl _ sys.handler).m_devices = sys.handler.m_devices
  generalize sys.handler = handler
  induction ud.leds generalizing handler with
  | nil => rfl
  | cons led leds ih =>
    rw [List.foldl_cons, ih]
    split
    · exact midi.add_led_devices _ _ _ _
    · rfl

/-- The bindings of a unit that is loaded, and its leds, which change no device. -/
theorem holds_unit (hf : f.Labelled) {label : String} {ud : s_unit} {u : ι}
    (hud : unit_description desc label = some ud) (hu : loaded f ud = some u)
    {sys sys1 sys2 : assembly ι}
    (h1 : (if controllable f u then assemble_bindings f desc sys u else some sys) = some sys1)
    (h2 : assemble_leds f desc sys1 u = some sys2) {es : List (bound ι)}
    (hh : sys.handler.Holds es) :
    sys2.handler.Holds (es ++ exported f desc label) ∧
      sys2.handler.aliases = sys.handler.aliases := by
  have hlabel : f.ulabel u = label := (hf _ _ _ _ hu).trans (unit_description_label hud)
  have hbindings : sys1.handler.Holds (es ++ exported f desc label) ∧
      sys1.handler.aliases = sys.handler.aliases := by
    rw [exported_some hud hu]
    split at h1
    · obtain ⟨ud', hud', h1⟩ := Option.bind_eq_some_iff.mp h1
      rw [hlabel, hud] at hud'
      cases hud'
      cases h1
      exact holds_bindings u ud.bindings hh
    · rename_i hnot
      cases h1
      have hnone : f.midi_handlers u = [] := by simpa [controllable] using hnot
      have hempty : ud.bindings.filterMap (binding_to f u) = [] := by
        rw [List.filterMap_eq_nil_iff]
        intro b _
        simp [binding_to, hnone]
      rw [hempty, List.append_nil]
      exact ⟨hh, rfl⟩
  unfold midi_handler.Holds midi_handler.aliases at hbindings ⊢
  rw [assemble_leds_devices h2]
  exact hbindings

/-- A unit that is looked for is mounted, with its bindings, unless it is there. -/
theorem check_unit_binds (hf : f.Labelled) {sys sys' : assembly ι} {label : String}
    (h : check_unit f desc sys label = some sys') {es : List (bound ι)}
    (hh : sys.handler.Holds es) :
    sys'.handler.aliases = sys.handler.aliases ∧
      (sys'.handler.Holds es ∧ sys.mount.has_unit label = true ∨
        sys'.handler.Holds (es ++ exported f desc label)) := by
  obtain ⟨ud, hud, h⟩ := Option.bind_eq_some_iff.mp h
  have hlabel := unit_description_label hud
  split at h
  · rename_i hhas
    cases h
    rw [hlabel] at hhas
    exact ⟨rfl, .inl ⟨hh, hhas⟩⟩
  · split at h
    · rename_i hload
      cases h
      have hnone : exported f desc label = [] := exported_none (by
        unfold unit_of
        rw [hud]
        exact hload)
      rw [hnone, List.append_nil]
      exact ⟨rfl, .inr hh⟩
    · rename_i u hload
      obtain ⟨sys1, h1, h⟩ := Option.bind_eq_some_iff.mp h
      obtain ⟨sys2, h2, h⟩ := Option.map_eq_some_iff.mp h
      subst h
      obtain ⟨hholds, haliases⟩ := holds_unit hf hud hload h1 h2 hh
      exact ⟨haliases, .inr hholds⟩

theorem mount_unit_mounted {label other : String} {ud : s_unit}
    (hud : unit_description desc label = some ud) (m : mount ι) :
    (mount_unit f ud m).has_unit other = true ↔
      m.has_unit other = true ∨ other = label ∧ (unit_of f desc label).isSome := by
  have hlabel := unit_description_label hud
  have hunit : unit_of f desc label = loaded f ud := by
    unfold unit_of
    rw [hud]
    rfl
  rw [hunit]
  unfold mount_unit
  cases loaded f ud with
  | none => simp
  | some u =>
    unfold component.mount.add_unit
    rw [hlabel]
    simp only
    split
    · rename_i hhas
      simp only [Option.isSome_some, and_true]
      refine (or_iff_left_of_imp ?_).symm
      rintro rfl
      exact hhas
    · unfold component.mount.has_unit
      by_cases ho : other = label
      · simp [ho]
      · simp [ho]

variable [DecidableEq ι]

theorem connect_link_mounted (m : mount ι) (link : s_link) :
    (connect_link m link).2.m_mounted = m.m_mounted := by
  unfold connect_link
  split
  · obtain ⟨-, heq⟩ | ⟨_, _, -, -, heq⟩ := m.connect_mainline_cases link.plug link.to_label
    · rw [heq]
    · rw [heq]
  · unfold component.mount.connect_units
    split
    · simp only
      split
      · rfl
      · rfl
    · rfl

/-! ## All units -/

theorem assemble_link_binds (hf : f.Labelled) {pre : List s_link} {link : s_link}
    {sys sys' : assembly ι} (h : assemble_link f desc sys link = some sys')
    (hb : Binds f desc pre sys) : Binds f desc (pre ++ [link]) sys' := by
  obtain ⟨sys1, h1, h⟩ := Option.bind_eq_some_iff.mp h
  cases h
  obtain ⟨haliases, hadd⟩ := check_unit_binds hf h1 hb.holds
  have hall : all_bound f desc (pre ++ [link]) =
      all_bound f desc pre ++ exported f desc link.to_label := by
    unfold all_bound
    rw [List.flatMap_append, List.flatMap_singleton]
  refine ⟨haliases.trans hb.aliases, fun other => ?_, ?_⟩
  · obtain ⟨-, hnone⟩ | ⟨ud, sys2, hud, hcheck, hmount⟩ := check_unit_cases hf sys link.to_label
    · rw [hnone] at h1
      cases h1
    · rw [hcheck] at h1
      cases h1
      have hsame : (connect_link sys1.mount link).2.has_unit other = sys1.mount.has_unit other := by
        unfold component.mount.has_unit
        rw [connect_link_mounted]
      change (connect_link sys1.mount link).2.has_unit other = true ↔ _
      rw [hsame, hmount, mount_unit_mounted hud, hb.mounted, target_snoc]
      constructor
      · rintro (⟨hmem, hsome⟩ | ⟨rfl, hsome⟩)
        · exact ⟨.inl hmem, hsome⟩
        · exact ⟨.inr rfl, hsome⟩
      · rintro ⟨hmem | rfl, hsome⟩
        · exact .inl ⟨hmem, hsome⟩
        · exact .inr ⟨rfl, hsome⟩
  · rw [hall]
    rcases hadd with ⟨hholds, hhas⟩ | hholds
    · -- the unit was mounted for a link before this one
      obtain ⟨hmem, -⟩ := (hb.mounted _).mp hhas
      obtain ⟨link', hlink', hto⟩ := List.mem_map.mp hmem
      refine midi.holds_again hholds fun e he => List.mem_flatMap.mpr ⟨link', hlink', ?_⟩
      rw [hto]
      exact he
    · exact hholds

theorem assemble_links_binds (hf : f.Labelled) (pre rest : List s_link) {sys sys' : assembly ι}
    (h : rest.foldlM (assemble_link f desc) sys = some sys') (hb : Binds f desc pre sys) :
    Binds f desc (pre ++ rest) sys' := by
  induction rest generalizing pre sys with
  | nil =>
    cases h
    rwa [List.append_nil]
  | cons link rest ih =>
    obtain ⟨sys1, h1, h2⟩ := walk.foldlM_cons_some.mp h
    have := ih (pre ++ [link]) h2 (assemble_link_binds hf h1 hb)
    rwa [List.append_assoc] at this

/-! ## The whole assembly -/

omit [DecidableEq ι] in
theorem mainlines_handler (desc : description) (sys : assembly ι) :
    (assemble_mainlines desc sys).handler = sys.handler := by
  unfold assemble_mainlines
  induction desc.setup.mainlines generalizing sys with
  | nil => rfl
  | cons mainline mainlines ih => exact ih _

omit [DecidableEq ι] in
/-- A controller is a new device without bindings. -/
theorem device_unbound (sys : assembly ι) (controller : s_controller)
    (h : sys.handler.Holds []) :
    (assemble_device sys controller).handler.Holds [] ∧
      (assemble_device sys controller).handler.aliases =
        sys.handler.aliases ++ [controller.label] := by
  have hadd : (sys.handler.add_device controller.port controller.label).Holds [] := by
    intro dev hdev code
    rcases List.mem_append.mp hdev with hdev | hdev
    · exact h dev hdev code
    · rw [List.mem_singleton.mp hdev]
      rfl
  constructor
  · intro dev hdev code
    obtain ⟨i, hi⟩ := List.mem_iff_getElem?.mp hdev
    unfold assemble_device midi_handler.on_device at hi
    simp only [List.getElem?_modify] at hi
    obtain ⟨dev0, hdev0, rfl⟩ := Option.map_eq_some_iff.mp hi
    have hunbound := hadd dev0 (List.mem_of_getElem? hdev0) code
    split
    · exact hunbound
    · exact hunbound
  · unfold assemble_device midi_handler.on_device midi_handler.aliases
    refine (component.map_modify_same ?_ _ _).trans ?_
    · intro dev
      rfl
    · exact List.map_append

omit [DecidableEq ι] in
theorem devices_unbound (controllers : List s_controller) (sys : assembly ι)
    (h : sys.handler.Holds []) :
    (controllers.foldl assemble_device sys).handler.Holds [] ∧
      (controllers.foldl assemble_device sys).handler.aliases =
        sys.handler.aliases ++ controllers.map s_controller.label := by
  induction controllers generalizing sys with
  | nil => simpa using h
  | cons controller controllers ih =>
    obtain ⟨h1, h2⟩ := device_unbound sys controller h
    obtain ⟨h3, h4⟩ := ih (assemble_device sys controller) h1
    refine ⟨h3, ?_⟩
    rw [List.foldl_cons, h4, h2, List.append_assoc]
    rfl

omit [DecidableEq ι] in
/-- Before the first link nothing is mounted or bound. -/
theorem devices_bind (l : links ι) : Binds f desc []
    (assemble_devices desc (assemble_mainlines desc (assembly.new l))) := by
  have hempty : (assemble_mainlines desc (assembly.new l)).handler.Holds [] := by
    rw [mainlines_handler]
    intro dev hdev
    cases hdev
  obtain ⟨h1, h2⟩ := devices_unbound desc.midi.controllers _ hempty
  refine ⟨?_, fun label => ?_, h1⟩
  · rw [mainlines_handler] at h2
    exact h2
  · have hnone : (assemble_mainlines desc (assembly.new l)).mount.m_mounted = fun _ => none :=
      (declared_mainlines desc.setup.mainlines (assembly.new l)).1
    unfold component.mount.has_unit
    rw [devices_mount, hnone]
    simp

/-- After the whole assembly the devices have the bindings of all units. -/
theorem assemble_binds (hf : f.Labelled) (l : links ι) {sys : assembly ι}
    (h : assemble f desc (assembly.new l) = some sys) :
    Binds f desc desc.setup.daisychains sys :=
  assemble_links_binds hf [] desc.setup.daisychains h (devices_bind l)

omit [DecidableEq ι] in
theorem binds_devices {sys : assembly ι} (hb : Binds f desc desc.setup.daisychains sys)
    {label : String} : label ∈ desc.midi.controllers.map s_controller.label ↔
      ∃ dev ∈ sys.handler.m_devices, dev.m_alias = label := by
  rw [← hb.aliases]
  exact List.mem_map

omit [DecidableEq ι] in
/-- There is a first binding where there is one, and it is one. -/
theorem first_bound_spec (module_ : String) (code : Int) :
    (∀ own, Bound f desc module_ code own → ∃ func, first_bound f desc module_ code = some func) ∧
      ∀ func, first_bound f desc module_ code = some func → Bound f desc module_ code func := by
  constructor
  · intro own hbound
    apply Option.isSome_iff_exists.mp
    unfold first_bound
    rw [Option.isSome_map, List.find?_isSome]
    exact ⟨_, hbound, by simp⟩
  · intro func hfunc
    obtain ⟨e, he, rfl⟩ := Option.map_eq_some_iff.mp hfunc
    have hkey : e.module_ = module_ ∧ e.code = code := by simpa using List.find?_some he
    rw [← hkey.1, ← hkey.2]
    exact List.mem_of_find?_eq_some he

omit [DecidableEq ι] in
/-- A device calls the first handler that is bound to it and a code. -/
theorem binds_calls {sys : assembly ι} (hb : Binds f desc desc.setup.daisychains sys)
    {dev : device ι} (hdev : dev ∈ sys.handler.m_devices) {m : msg} {func : ι × String}
    (hfunc : first_bound f desc dev.m_alias m.n.toNat = some func) : dev.Calls m func :=
  midi.calls_binding ((hb.holds dev hdev m.n.toNat).trans hfunc)

/-- **A message calls the first handler that is bound to its device and code, in the order in
which the units are mounted and their bindings listed, and no other.** -/
theorem a_message_calls_the_first_binding (hf : f.Labelled) (l : links ι) (sys : assembly ι)
    (h : assemble f desc (assembly.new l) = some sys) : Routes f desc sys.handler := by
  have hb := assemble_binds hf l h
  refine ⟨fun label hlabel => (binds_devices hb).mp hlabel, ?_, ?_⟩
  · intro dev hdev m own hbound
    obtain ⟨func, hfunc⟩ := (first_bound_spec dev.m_alias m.n.toNat).1 own hbound
    exact ⟨func, hfunc, binds_calls hb hdev hfunc⟩
  · intro dev hdev ms call hcall
    obtain ⟨hmem, hfunc⟩ := midi.mem_cycle hcall
    rw [hb.holds dev hdev] at hfunc
    exact ⟨hmem, (first_bound_spec _ _).2 _ hfunc⟩

/-- Every handler that is bound is called just when no two are bound to one controller and
code. -/
theorem every_binding_calls_when_no_code_is_shared (hf : f.Labelled) (l : links ι)
    (sys : assembly ι) (h : assemble f desc (assembly.new l) = some sys) :
    (∀ dev ∈ sys.handler.m_devices, ∀ (m : msg) own, Bound f desc dev.m_alias m.n.toNat own →
        dev.Calls m own) ↔
      ∀ label ∈ desc.midi.controllers.map s_controller.label, ∀ (n : UInt8) own own',
        Bound f desc label n.toNat own → Bound f desc label n.toNat own' → own = own' := by
  have hb := assemble_binds hf l h
  constructor
  · intro hroutes label hlabel n own own' hown hown'
    obtain ⟨dev, hdev, rfl⟩ := (binds_devices hb).mp hlabel
    refine midi.calls_unique dev n ?_ ?_
    · rintro m rfl
      exact hroutes dev hdev m own hown
    · rintro m rfl
      exact hroutes dev hdev m own' hown'
  · intro hshared dev hdev m own hbound
    obtain ⟨func, hfunc⟩ := (first_bound_spec dev.m_alias m.n.toNat).1 own hbound
    have hsame : own = func := hshared dev.m_alias ((binds_devices hb).mpr ⟨dev, hdev, rfl⟩) m.n
      own func hbound ((first_bound_spec _ _).2 func hfunc)
    rw [hsame]
    exact binds_calls hb hdev hfunc

/-! ## Two units at one pad -/

/-- The units of the example, by their labels. -/
def pad_factory : unit_factory Bool where
  load _ label _ := if label = "low" then some false else if label = "high" then some true else none
  ulabel u := if u then "high" else "low"
  midi_handlers _ := ["trigger"]
  midi_leds _ := []

theorem pad_labelled : pad_factory.Labelled := by
  intro model label library u h
  unfold pad_factory at h ⊢
  simp only at h ⊢
  split at h
  · rename_i hlow
    cases h
    exact hlow.symm
  · split at h
    · rename_i hhigh
      cases h
      exact hhigh.symm
    · cases h

/-- Two units on a mainline each, with their triggers at the codes of one controller. -/
def pads (low high : Int) : description where
  midi := { controllers := [⟨"pad", "hw:1", 0, 0⟩] }
  setup :=
    { daisychains := [⟨"rack", "ac1", "low", ""⟩, ⟨"rack", "ac2", "high", ""⟩]
      units := [{ label := "low", bindings := [⟨"trigger", "pad", low⟩] },
        { label := "high", bindings := [⟨"trigger", "pad", high⟩] }] }

def pad_links : links Bool := fun _ => component.linkable.make [] []

/-- The assembly of the two units succeeds. -/
theorem pads_assemble (low high : Int) :
    ∃ sys, assemble pad_factory (pads low high) (assembly.new pad_links) = some sys := by
  apply (assemble_ends pad_labelled (assembly.new pad_links)).mpr
  change ∀ link ∈ (pads 0 0).setup.daisychains, link.to_label ∈ (pads 0 0).setup.labels
  decide

theorem two_codes_route :
    ∃ sys, assemble pad_factory (pads 36 38) (assembly.new pad_links) = some sys ∧
      Routes pad_factory (pads 36 38) sys.handler := by
  obtain ⟨sys, h⟩ := pads_assemble 36 38
  exact ⟨sys, h, a_message_calls_the_first_binding pad_labelled pad_links sys h⟩

/-- The second unit at a code is never called. -/
theorem a_shared_code_does_not_route :
    ¬ ∀ (desc : description) (sys : assembly Bool),
      (desc.midi.controllers.map s_controller.label).Nodup →
      assemble pad_factory desc (assembly.new pad_links) = some sys →
      ∀ dev ∈ sys.handler.m_devices, ∀ (m : msg) own,
        Bound pad_factory desc dev.m_alias m.n.toNat own → dev.Calls m own := by
  intro hall
  obtain ⟨sys, h⟩ := pads_assemble 36 36
  have hroutes := hall (pads 36 36) sys (by decide) h
  have hb := assemble_binds pad_labelled pad_links h
  obtain ⟨dev, hdev, hlabel⟩ := (binds_devices hb).mp (show "pad" ∈ ["pad"] by decide)
  have hbound : ∀ u : Bool, Bound pad_factory (pads 36 36) dev.m_alias 36 (u, "trigger") := by
    rw [hlabel]
    intro u
    apply List.mem_flatMap.mpr
    cases u with
    | false => exact ⟨⟨"rack", "ac1", "low", ""⟩, by decide, List.mem_singleton_self _⟩
    | true => exact ⟨⟨"rack", "ac2", "high", ""⟩, by decide, List.mem_singleton_self _⟩
  have hcalls : ∀ (u : Bool) (m : msg), m.n = 36 → dev.Calls m (u, "trigger") := by
    intro u m hm
    apply hroutes dev hdev
    rw [hm]
    exact hbound u
  have hsame := midi.calls_unique dev 36 (hcalls false) (hcalls true)
  simp at hsame

end config

end strangeio
