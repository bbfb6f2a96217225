-- The way of a led: from the state that a unit toggles (component/unit.cpp,
-- midi/led_toggle_utility.cpp) to the message that is written to a device
-- (midi/midi_handler.cpp, midi/device.cpp). As with the bindings, the first led that a
-- description gives to a state is the one that counts.
import StrangeIO.MidiRoutes

namespace strangeio

variable {ι : Type}

namespace midi

/-! ## The devices that are opened -/

/-- The ports that the driver opens, by the alias of a device and the name of its port. -/
structure driver_utility where
  open_input_port : String → String → Bool
  open_output_port : String → String → Bool

/-- A device whose input is open, and whether its output is. -/
structure active_device (ι : Type) where
  dev : device ι
  m_output : Bool

def device.init (d : driver_utility) (dev : device ι) : Option (active_device ι) :=
  if d.open_input_port dev.m_alias dev.m_port_name then
    some ⟨dev, d.open_output_port dev.m_alias dev.m_port_name⟩
  else none

/-- The active devices. -/
def midi_handler.init (d : driver_utility) (h : midi_handler ι) : List (active_device ι) :=
  h.m_devices.filterMap (device.init d)

/-! ## What is written -/

/-- What a device is known by, and its value for a led. -/
def device.face (dev : device ι) : String × String × UInt8 :=
  (dev.m_port_name, dev.m_alias, dev.m_led_on)

/-- The message at the port of the device, if its output is open. -/
def active_device.write_msg (m : msg) (a : active_device ι) : List (String × msg) :=
  if a.m_output then [(a.dev.m_port_name, m)] else []

/-- An `unsigned int` where an `int` is expected. -/
def as_int (n : Nat) : Int := if n < 2 ^ 31 then n else n - 2 ^ 32

/-- The mode of a led is not looked at. -/
def midi_handler.trigger_led (h : midi_handler ι) (m_active_dev : List (active_device ι))
    (unit : String) (state : Nat) : List (String × msg) :=
  match h.m_led_map unit with
  | none => []
  | some led_map =>
    match led_map (as_int state) with
    | none => []
    | some st => m_active_dev.flatMap fun a =>
        if a.dev.m_alias = st.device then
          a.write_msg { f := a.dev.m_led_on, n := UInt8.ofInt st.code, v := st.value }
        else []

/-- `toggle_led` of a unit, by its label. -/
def midi_handler.toggle_led (h : midi_handler ι) (m_active_dev : List (active_device ι))
    (ulabel : String) (state : Int) : List (String × msg) :=
  h.trigger_led m_active_dev ulabel (component.uint state)

theorem as_int_uint {state : Int} (hlow : -2 ^ 31 ≤ state) (hhigh : state < 2 ^ 31) :
    as_int (component.uint state) = state := by
  have hmod : (component.uint state : Int) = state % 4294967296 :=
    Int.toNat_of_nonneg (Int.emod_nonneg _ (by decide))
  unfold as_int
  split <;> omega

/-- Where the ports of a device are open, the message of a led is written to it. -/
theorem written_to (d : driver_utility) (h : midi_handler ι) (name : String) (n v : UInt8) :
    ((h.init d).flatMap fun a => if a.dev.m_alias = name then
      a.write_msg { f := a.dev.m_led_on, n, v } else []) =
    ((h.m_devices.map device.face).filter fun face => face.2.1 = name ∧
      d.open_input_port face.2.1 face.1 ∧ d.open_output_port face.2.1 face.1).map
        fun face => (face.1, { f := face.2.2, n, v }) := by
  unfold midi_handler.init
  induction h.m_devices with
  | nil => rfl
  | cons dev devs ih =>
    cases hin : d.open_input_port dev.m_alias dev.m_port_name with
    | false =>
      have hinit : dev.init d = none := by simp [device.init, hin]
      rw [List.filterMap_cons, hinit, ih]
      simp [device.face, hin]
    | true =>
      have hinit : dev.init d = some ⟨dev, d.open_output_port dev.m_alias dev.m_port_name⟩ := by
        simp [device.init, hin]
      rw [List.filterMap_cons, hinit, List.flatMap_cons, ih]
      by_cases hname : dev.m_alias = name
      · subst hname
        cases hout : d.open_output_port dev.m_alias dev.m_port_name with
        | false => simp [device.face, hout, active_device.write_msg]
        | true => simp [device.face, hin, hout, active_device.write_msg]
      · simp [device.face, hname]

/-! ## The table of the leds -/

/-- The led of a unit and a state. -/
def midi_handler.led (h : midi_handler ι) (unit : String) (state : Int) : Option led_state :=
  (h.m_led_map unit).bind fun map => map state

/-- A led is added where there is none for the unit and the state. -/
theorem led_add_led (h : midi_handler ι) (unit : String) (state : Int) (led : led_state)
    (unit' : String) (state' : Int) : (h.add_led unit state led).led unit' state' =
      (h.led unit' state').or (if unit' = unit ∧ state' = state then some led else none) := by
  unfold midi_handler.led midi_handler.add_led
  cases hmap : h.m_led_map unit with
  | none =>
    by_cases hunit : unit' = unit
    · subst hunit
      simp [insert_apply, hmap]
    · simp [hunit]
  | some map =>
    by_cases hunit : unit' = unit
    · subst hunit
      simp [insert_apply, hmap]
    · simp [hunit]

theorem led_toggled (h : midi_handler ι) (m_active_dev : List (active_device ι)) (ulabel : String)
    {state : Int} (hlow : -2 ^ 31 ≤ state) (hhigh : state < 2 ^ 31) :
    h.toggle_led m_active_dev ulabel state = match h.led ulabel state with
      | none => []
      | some st => m_active_dev.flatMap fun a =>
          if a.dev.m_alias = st.device then
            a.write_msg { f := a.dev.m_led_on, n := UInt8.ofInt st.code, v := st.value }
          else [] := by
  unfold midi_handler.toggle_led midi_handler.trigger_led midi_handler.led
  rw [as_int_uint hlow hhigh]
  cases h.m_led_map ulabel <;> rfl

end midi

namespace config

open component (mount links)
open midi (midi_handler led_state device driver_utility)

variable (f : unit_factory ι) (desc : description)

/-! ## What a description gives to a state -/

/-- The led of an entry, as it is added. -/
def led_of_entry (led : s_leds) : led_state :=
  ⟨led.device, led_mode_of led.mode, led.code, led.value⟩

/-- The first led of the unit that is loaded for the label, of those whose state the unit
exports under the number. -/
def first_led (label : String) (state : Int) : Option led_state := do
  let u ← unit_of f desc label
  let ud ← unit_description desc label
  (ud.leds.find? fun led => (f.midi_leds u).lookup led.state = some state).map led_of_entry

/-- The controllers that a led is at: their ports are open. -/
def at_led (d : driver_utility) (name : String) : List s_controller :=
  desc.midi.controllers.filter fun c => c.label = name ∧ d.open_input_port c.label c.port ∧
    d.open_output_port c.label c.port

/-- What is written for a led: what turns it on, whatever its mode. -/
def led_msg (c : s_controller) (st : led_state) : midi.msg :=
  { f := c.led_on, n := UInt8.ofInt st.code, v := st.value }

/-- After the links `pre` the units that they lead to have their leds. -/
def Lit (pre : List s_link) (sys : assembly ι) : Prop :=
  ∀ label state, sys.handler.led label state =
    if label ∈ pre.map s_link.to_label then first_led f desc label state else none

variable {f desc}

/-! ## The leds of one unit -/

/-- The leds of a unit are added one after the other. -/
theorem leds_added (u : ι) (leds : List s_leds) (h : midi_handler ι) (label : String)
    (state : Int) :
    (leds.foldl (fun handler led =>
      match (f.midi_leds u).lookup led.state with
      | some state =>
        handler.add_led (f.ulabel u) state ⟨led.device, led_mode_of led.mode, led.code, led.value⟩
      | none => handler) h).led label state =
    (h.led label state).or (if label = f.ulabel u then
      (leds.find? fun led => (f.midi_leds u).lookup led.state = some state).map led_of_entry
      else none) := by
  induction leds generalizing h with
  | nil => simp
  | cons led leds ih =>
    rw [List.foldl_cons, ih, List.find?_cons]
    cases hlook : (f.midi_leds u).lookup led.state with
    | none => simp
    | some k =>
      simp only [midi.led_add_led]
      by_cases hlabel : label = f.ulabel u
      · by_cases hk : state = k
        · simp [hlabel, hk, led_of_entry]
        · simp [hlabel, hk, Ne.symm hk]
      · simp [hlabel]

/-- The bindings of a unit change no led. -/
theorem bindings_led (u : ι) (bs : List s_binding) (h : midi_handler ι) :
    (bs.foldl (fun handler binding =>
      if binding.name ∈ f.midi_handlers u then
        handler.add_binding binding.module_ binding.code (u, binding.name)
      else handler) h).m_led_map = h.m_led_map := by
  induction bs generalizing h with
  | nil => rfl
  | cons b bs ih =>
    rw [List.foldl_cons, ih]
    split
    · rfl
    · rfl

/-- A unit that is looked for has its leds then, whether it was there before or not. -/
theorem check_unit_lit (hf : f.Labelled) {pre : List s_link} {sys sys' : assembly ι}
    {target : String}
    (h : check_unit f desc sys target = some sys') (hlit : Lit f desc pre sys)
    (hmounted : sys.mount.has_unit target = true ↔
      target ∈ pre.map s_link.to_label ∧ (unit_of f desc target).isSome) (label : String)
        (state : Int) :
    sys'.handler.led label state =
      if label ∈ pre.map s_link.to_label ∨ label = target then first_led f desc label state
        else none := by
  obtain ⟨ud, hud, h⟩ := Option.bind_eq_some_iff.mp h
  have hlabel := unit_description_label hud
  have hunit : unit_of f desc target = loaded f ud := by
    unfold unit_of
    rw [hud]
    rfl
  split at h
  · -- the unit was mounted for a link before this one
    rename_i hhas
    cases h
    rw [hlabel] at hhas
    have hbefore := (hmounted.mp hhas).1
    rw [hlit label state]
    exact if_congr (or_iff_left_of_imp fun heq => heq ▸ hbefore).symm rfl rfl
  · rename_i hnew
    rw [hlabel] at hnew
    split at h
    · -- a unit that cannot be loaded has no leds
      rename_i hload
      cases h
      have hnone : first_led f desc target state = none := by
        unfold first_led
        rw [hunit]
        unfold loaded
        rw [hload]
        rfl
      rw [hlit label state]
      by_cases htarget : label = target
      · simp [htarget, hnone]
      · simp [htarget]
    · rename_i u hload
      have hu : f.ulabel u = target := (hf _ _ _ _ hload).trans hlabel
      obtain ⟨sys1, h1, h⟩ := Option.bind_eq_some_iff.mp h
      obtain ⟨sys2, h2, h⟩ := Option.map_eq_some_iff.mp h
      subst h
      have hloaded : unit_of f desc target = some u := hunit.trans hload
      have hbefore : target ∉ pre.map s_link.to_label := fun hmem =>
        hnew (hmounted.mpr ⟨hmem, by rw [hloaded]; rfl⟩)
      have hsame : sys1.handler.m_led_map = sys.handler.m_led_map := by
        split at h1
        · obtain ⟨ud', -, h1⟩ := Option.bind_eq_some_iff.mp h1
          cases h1
          exact bindings_led u ud'.bindings sys.handler
        · cases h1
          rfl
      obtain ⟨ud', hud', h2⟩ := Option.bind_eq_some_iff.mp h2
      rw [hu, hud] at hud'
      cases hud'
      cases h2
      have hfirst : first_led f desc target state = (ud.leds.find? fun led =>
          (f.midi_leds u).lookup led.state = some state).map led_of_entry := by
        unfold first_led
        rw [hloaded, hud]
        rfl
      have hold : sys1.handler.led label state = sys.handler.led label state := by
        unfold midi_handler.led
        rw [hsame]
      refine (leds_added u ud.leds sys1.handler label state).trans ?_
      rw [hu, hold, hlit label state]
      by_cases htarget : label = target
      · subst htarget
        simp [hbefore, hfirst]
      · simp [htarget]

/-! ## All units and devices -/

/-- A list is changed where its last entry is the first of its kind. -/
theorem modify_last {α : Type} {p : α → Bool} (f : α → α) (xs : List α) (x : α)
    (hxs : ∀ y ∈ xs, p y = false) (hx : p x = true) :
    (xs ++ [x]).modify ((xs ++ [x]).findIdx p) f = xs ++ [f x] := by
  induction xs with
  | nil => simp [List.findIdx_cons, hx]
  | cons y xs ih =>
    have hy := hxs y List.mem_cons_self
    have ih := ih fun z hz => hxs z (List.mem_cons_of_mem _ hz)
    simp only [List.cons_append, List.findIdx_cons, hy, cond_false, List.modify_succ_cons, ih]

theorem devices_faces (controllers : List s_controller) (sys : assembly ι)
    (hlabels : (sys.handler.aliases ++ controllers.map s_controller.label).Nodup) :
    (controllers.foldl assemble_device sys).handler.m_devices.map device.face =
      sys.handler.m_devices.map device.face ++
        controllers.map fun controller =>
          (controller.port, controller.label, controller.led_on) := by
  induction controllers generalizing sys with
  | nil => simp
  | cons controller controllers ih =>
    have hnew : controller.label ∉ sys.handler.aliases := fun hmem =>
      (List.nodup_append.mp hlabels).2.2 _ hmem _ List.mem_cons_self rfl
    have hdevices : (assemble_device sys controller).handler.m_devices = sys.handler.m_devices ++
        [⟨controller.port, controller.label, controller.led_on, controller.led_off,
          fun _ => none⟩] := by
      refine modify_last _ _ _ (fun dev hdev => ?_) (by simp)
      have hne : dev.m_alias ≠ controller.label := by
        rintro heq
        exact hnew (heq ▸ List.mem_map_of_mem hdev)
      simpa using hne
    have haliases : (assemble_device sys controller).handler.aliases =
        sys.handler.aliases ++ [controller.label] := by
      unfold midi_handler.aliases
      rw [hdevices, List.map_append]
      rfl
    rw [List.foldl_cons, ih, hdevices]
    · simp [device.face]
    · rw [haliases, List.append_assoc]
      exact hlabels

variable [DecidableEq ι]

theorem assemble_links_lit (hf : f.Labelled) (pre rest : List s_link) {sys sys' : assembly ι}
    (h : rest.foldlM (assemble_link f desc) sys = some sys') (hb : Binds f desc pre sys)
    (hlit : Lit f desc pre sys) : Lit f desc (pre ++ rest) sys' := by
  induction rest generalizing pre sys with
  | nil =>
    cases h
    rwa [List.append_nil]
  | cons link rest ih =>
    obtain ⟨sys1, h1, h2⟩ := walk.foldlM_cons_some.mp h
    have hnext : Lit f desc (pre ++ [link]) sys1 := by
      obtain ⟨sys2, hcheck, h1'⟩ := Option.bind_eq_some_iff.mp h1
      cases h1'
      intro label state
      refine (check_unit_lit hf hcheck hlit (hb.mounted _) label state).trans ?_
      simp
    have := ih (pre ++ [link]) h2 (assemble_link_binds hf h1 hb) hnext
    rwa [List.append_assoc] at this

omit [DecidableEq ι] in
theorem faces_add_binding (h : midi_handler ι) (module_ : String) (code : Int) (func : ι × String) :
    (h.add_binding module_ code func).m_devices.map device.face = h.m_devices.map device.face := by
  unfold midi_handler.add_binding
  rw [List.map_map]
  refine List.map_congr_left fun dev _ => ?_
  simp only [Function.comp_apply]
  split
  · rfl
  · rfl

omit [DecidableEq ι] in
theorem bindings_faces (u : ι) (bs : List s_binding) (h : midi_handler ι) :
    (bs.foldl (fun handler binding =>
      if binding.name ∈ f.midi_handlers u then
        handler.add_binding binding.module_ binding.code (u, binding.name)
      else handler) h).m_devices.map device.face = h.m_devices.map device.face := by
  induction bs generalizing h with
  | nil => rfl
  | cons b bs ih =>
    rw [List.foldl_cons, ih]
    split
    · exact faces_add_binding _ _ _ _
    · rfl

omit [DecidableEq ι] in
/-- The devices are known by what they were, whatever is bound to them. -/
theorem check_unit_faces {sys sys' : assembly ι} {target : String}
    (h : check_unit f desc sys target = some sys') :
    sys'.handler.m_devices.map device.face = sys.handler.m_devices.map device.face := by
  obtain ⟨ud, -, h⟩ := Option.bind_eq_some_iff.mp h
  split at h
  · cases h
    rfl
  · split at h
    · cases h
      rfl
    · rename_i u _
      obtain ⟨sys1, h1, h⟩ := Option.bind_eq_some_iff.mp h
      obtain ⟨sys2, h2, h⟩ := Option.map_eq_some_iff.mp h
      subst h
      have hleds := congrArg (List.map device.face) (assemble_leds_devices h2)
      refine hleds.trans ?_
      split at h1
      · obtain ⟨ud', -, h1⟩ := Option.bind_eq_some_iff.mp h1
        cases h1
        exact bindings_faces u ud'.bindings sys.handler
      · cases h1
        rfl

theorem assemble_links_faces (links : List s_link) {sys sys' : assembly ι}
    (h : links.foldlM (assemble_link f desc) sys = some sys') :
    sys'.handler.m_devices.map device.face = sys.handler.m_devices.map device.face := by
  induction links generalizing sys with
  | nil =>
    cases h
    rfl
  | cons link links ih =>
    obtain ⟨sys1, h1, h2⟩ := walk.foldlM_cons_some.mp h
    obtain ⟨sys2, hcheck, h1⟩ := Option.bind_eq_some_iff.mp h1
    cases h1
    have hfaces := check_unit_faces hcheck
    exact (ih h2).trans hfaces

/-! ## The whole assembly -/

omit [DecidableEq ι] in
theorem device_led_map (controllers : List s_controller) (sys : assembly ι) :
    (controllers.foldl assemble_device sys).handler.m_led_map = sys.handler.m_led_map := by
  induction controllers generalizing sys with
  | nil => rfl
  | cons controller controllers ih => exact ih (assemble_device sys controller)

theorem assemble_lit (hf : f.Labelled) (l : links ι) {sys : assembly ι}
    (h : assemble f desc (assembly.new l) = some sys) :
    Lit f desc desc.setup.daisychains sys := by
  have hlit : Lit f desc [] (assemble_devices desc (assemble_mainlines desc (assembly.new l))) := by
    intro label state
    unfold midi_handler.led assemble_devices
    rw [device_led_map, mainlines_handler]
    simp [assembly.new]
  exact assemble_links_lit hf [] desc.setup.daisychains h (devices_bind l) hlit

theorem assemble_faces (l : links ι) {sys : assembly ι}
    (h : assemble f desc (assembly.new l) = some sys)
    (hlabels : (desc.midi.controllers.map s_controller.label).Nodup) :
    sys.handler.m_devices.map device.face = desc.midi.controllers.map fun controller =>
      (controller.port, controller.label, controller.led_on) := by
  have hstart : (assemble_mainlines desc (assembly.new l)).handler = ⟨[], fun _ => none⟩ :=
    mainlines_handler desc (assembly.new l)
  refine (assemble_links_faces _ h).trans ?_
  unfold assemble_devices
  rw [devices_faces, hstart]
  · rfl
  · rw [hstart]
    exact hlabels

/-- **A unit of the chain that toggles a state has the first led written that the description
gives to the state, to the controllers of that name whose ports are open, and nothing
else.** -/
theorem a_toggled_led_is_written (hf : f.Labelled) (l : links ι) (sys : assembly ι)
    (h : assemble f desc (assembly.new l) = some sys)
    (hlabels : (desc.midi.controllers.map s_controller.label).Nodup) (d : driver_utility)
    (label : String) {state : Int} (hlow : -2 ^ 31 ≤ state) (hhigh : state < 2 ^ 31) :
    sys.handler.toggle_led (sys.handler.init d) label state =
      if label ∈ desc.setup.daisychains.map s_link.to_label then
        match first_led f desc label state with
        | none => []
        | some st => (at_led desc d st.device).map fun c => (c.port, led_msg c st)
      else [] := by
  have hfaces := assemble_faces l h hlabels
  rw [midi.led_toggled sys.handler _ label hlow hhigh, assemble_lit hf l h label state]
  by_cases hlabel : label ∈ desc.setup.daisychains.map s_link.to_label
  · rw [if_pos hlabel, if_pos hlabel]
    cases first_led f desc label state with
    | none => rfl
    | some st =>
      refine (midi.written_to d sys.handler st.device _ st.value).trans ?_
      rw [hfaces, List.filter_map, List.map_map]
      rfl
  · rw [if_neg hlabel, if_neg hlabel]

/-- A deck with a lamp. -/
def lamp_factory : unit_factory Unit where
  load _ label _ := if label = "deck" then some () else none
  ulabel _ := "deck"
  midi_handlers _ := []
  midi_leds _ := [("playing", 1)]

theorem lamp_labelled : lamp_factory.Labelled := by
  intro model label library u h
  unfold lamp_factory at h ⊢
  simp only at h ⊢
  split at h
  · rename_i hdeck
    exact hdeck.symm
  · cases h

/-- Two leds for one state of the deck. -/
def lamps : description where
  midi := { controllers := [⟨"pad", "hw:1", 0x90, 0x80⟩] }
  setup :=
    { daisychains := [⟨"rack", "ac1", "deck", ""⟩]
      units := [{ label := "deck", leds :=
        [⟨"playing", "pad", "blink", 36, 127⟩, ⟨"playing", "pad", "off", 37, 0⟩] }] }

theorem a_deck_lights_its_lamp : ∃ sys : assembly Unit,
    sys.handler.toggle_led (sys.handler.init ⟨fun _ _ => true, fun _ _ => true⟩) "deck" 1 =
      [("hw:1", ⟨0x90, 36, 127⟩)] := by
  obtain ⟨sys, h⟩ := (assemble_ends lamp_labelled
    (assembly.new fun _ => component.linkable.make [] [])).mpr
      (by decide : ∀ link ∈ lamps.setup.daisychains, link.to_label ∈ lamps.setup.labels)
  refine ⟨sys, ?_⟩
  refine (a_toggled_led_is_written lamp_labelled _ sys h (by decide) _ "deck"
    (by decide : (-2 ^ 31 : Int) ≤ 1) (by decide)).trans ?_
  decide

end config

end strangeio
