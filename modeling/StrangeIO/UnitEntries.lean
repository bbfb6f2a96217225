-- The bindings and the leds of a unit element: the entries that have all their keys are
-- taken up and the others passed over, but the value of an led is read untested.
import StrangeIO.Independence

namespace strangeio.config

variable {N : Type} (c : casts N)

/-! ## Entries -/

/-- The string of a key, if there is one. -/
def string_at (v : value N) (key : String) : Option String :=
  match v.get key with
  | .ok (.string s) => some s
  | _ => none

def number_at (v : value N) (key : String) : Option N :=
  match v.get key with
  | .ok (.number x) => some x
  | _ => none

/-- The binding of an entry with all its keys. -/
def binding_of (bit : String × value N) : Option s_binding := do
  let module_ ← string_at bit.2 "module"
  let code ← number_at bit.2 "code"
  some ⟨bit.1, module_, c.to_int code⟩

def led_of (bit : String × value N) : Option s_leds := do
  let module_ ← string_at bit.2 "module"
  let code ← number_at bit.2 "code"
  let mode ← string_at bit.2 "mode"
  let value ← number_at bit.2 "value"
  some ⟨bit.1, module_, mode, c.to_int code, c.to_uint8 value⟩

/-- Of the keys of a binding the entry has any, of the right types. -/
structure BindingEntry (v : value N) : Prop where
  module_ : v.get "module" = .ok .null ∨ ∃ s, v.get "module" = .ok (.string s)
  code : v.get "code" = .ok .null ∨ ∃ x, v.get "code" = .ok (.number x)

structure LedEntry (v : value N) : Prop extends BindingEntry v where
  mode : v.get "mode" = .ok .null ∨ ∃ s, v.get "mode" = .ok (.string s)
  value : v.get "value" = .ok .null ∨ ∃ x, v.get "value" = .ok (.number x)

/-- The entry of an led that has every key but its value. -/
structure Valueless (v : value N) : Prop where
  module_ : v.get "module" ≠ .ok .null
  code : v.get "code" ≠ .ok .null
  mode : v.get "mode" ≠ .ok .null
  value : v.get "value" = .ok .null

/-! ## One entry -/

theorem parse_binding_typed (unit : s_unit) {bit : String × value N} (h : BindingEntry bit.2) :
    parse_binding c unit bit =
      .ok { unit with bindings := unit.bindings ++ (binding_of c bit).toList } := by
  unfold parse_binding binding_of string_at number_at
  rcases h.module_ with hm | ⟨m, hm⟩ <;> rcases h.code with hc | ⟨x, hc⟩ <;>
    simp [hm, hc, value.is_null, value.get_string, value.get_double]

/-- An entry without its value is taken for a number that it is not. -/
theorem parse_led_valueless (unit : s_unit) {bit : String × value N} (h : LedEntry bit.2)
    (hless : Valueless bit.2) : parse_led c unit bit = .error (.mismatch .number) := by
  obtain ⟨m, hm⟩ := h.module_.resolve_left hless.module_
  obtain ⟨x, hc⟩ := h.code.resolve_left hless.code
  obtain ⟨mode, hmode⟩ := h.mode.resolve_left hless.mode
  unfold parse_led
  simp [hm, hc, hmode, hless.value, value.is_null, value.get_string, value.get_double]

theorem parse_led_typed (unit : s_unit) {bit : String × value N} (h : LedEntry bit.2)
    (hvalue : ¬ Valueless bit.2) :
    parse_led c unit bit = .ok { unit with leds := unit.leds ++ (led_of c bit).toList } := by
  unfold parse_led led_of string_at number_at
  rcases h.module_ with hm | ⟨m, hm⟩
  · rcases h.code with hc | ⟨x, hc⟩ <;> rcases h.mode with hmode | ⟨mode, hmode⟩ <;>
      simp [hm, hc, hmode, value.is_null]
  · rcases h.code with hc | ⟨x, hc⟩
    · rcases h.mode with hmode | ⟨mode, hmode⟩ <;> simp [hm, hc, hmode, value.is_null]
    · rcases h.mode with hmode | ⟨mode, hmode⟩
      · simp [hm, hc, hmode, value.is_null]
      · rcases h.value with hv | ⟨y, hv⟩
        · exact absurd ⟨by simp [hm], by simp [hc], by simp [hmode], hv⟩ hvalue
        · simp [hm, hc, hmode, hv, value.is_null, value.get_string, value.get_double]

/-! ## All entries -/

theorem parse_bindings_typed (unit : s_unit) {bs : List (String × value N)}
    (h : ∀ bit ∈ bs, BindingEntry bit.2) :
    parse_bindings c unit (.object bs) =
      .ok { unit with bindings := unit.bindings ++ bs.filterMap (binding_of c) } := by
  change bs.foldlM (parse_binding c) unit = _
  induction bs generalizing unit with
  | nil => simp [pure, Except.pure]
  | cons bit bs ih =>
    rw [List.foldlM_cons, parse_binding_typed c unit (h bit List.mem_cons_self), fallible.ok_bind,
      ih _ fun b hb => h b (List.mem_cons_of_mem _ hb), List.filterMap_cons]
    cases binding_of c bit <;> simp

/-- The leds are taken up unless one of them lacks its value only. -/
theorem parse_leds_typed (unit : s_unit) {ls : List (String × value N)}
    (h : ∀ bit ∈ ls, LedEntry bit.2) :
    parse_leds c unit (.object ls) =
        .ok { unit with leds := unit.leds ++ ls.filterMap (led_of c) } ∧
        (∀ bit ∈ ls, ¬ Valueless bit.2) ∨
      parse_leds c unit (.object ls) = .error (.mismatch .number) ∧
        ∃ bit ∈ ls, Valueless bit.2 := by
  change (ls.foldlM (parse_led c) unit = _ ∧ _) ∨ (ls.foldlM (parse_led c) unit = _ ∧ _)
  induction ls generalizing unit with
  | nil => simp [pure, Except.pure]
  | cons bit ls ih =>
    have hbit := h bit List.mem_cons_self
    have hrest := fun b hb => h b (List.mem_cons_of_mem bit hb)
    rw [List.foldlM_cons]
    by_cases hless : Valueless bit.2
    · right
      rw [parse_led_valueless c unit hbit hless]
      exact ⟨rfl, bit, List.mem_cons_self, hless⟩
    · rw [parse_led_typed c unit hbit hless, fallible.ok_bind]
      rcases ih { unit with leds := unit.leds ++ (led_of c bit).toList } hrest with
        ⟨hok, hall⟩ | ⟨herror, b, hb, hb'⟩
      · left
        rw [hok, List.filterMap_cons]
        refine ⟨?_, List.forall_mem_cons.mpr ⟨hless, hall⟩⟩
        cases led_of c bit <;> simp
      · right
        exact ⟨herror, b, List.mem_cons_of_mem _ hb, hb'⟩

/-- **The entries that have all their keys are appended in key order, and the others are
passed over, just when no led lacks its value only.** -/
theorem incomplete_entries_are_skipped_unless_a_value_is_missing (unit : s_unit)
    (bs ls : List (String × value N)) (hbs : ∀ bit ∈ bs, BindingEntry bit.2)
    (hls : ∀ bit ∈ ls, LedEntry bit.2) :
    (parse_bindings c unit (.object bs) =
        .ok { unit with bindings := unit.bindings ++ bs.filterMap (binding_of c) } ∧
      parse_leds c unit (.object ls) =
        .ok { unit with leds := unit.leds ++ ls.filterMap (led_of c) }) ↔
      ∀ bit ∈ ls, ¬ Valueless bit.2 := by
  rw [and_iff_right (parse_bindings_typed c unit hbs)]
  rcases parse_leds_typed c unit hls with ⟨hok, hall⟩ | ⟨herror, bit, hbit, hless⟩
  · exact iff_of_true hok hall
  · refine iff_of_false ?_ fun hall => hall bit hbit hless
    rw [herror]
    simp

/-! ## An led without a value -/

def led_entry (keys : List (String × value Nat)) : List (String × value Nat) :=
  [("active", .object keys)]

theorem an_led_without_a_mode_is_skipped :
    parse_bindings plain {} (.object (led_entry [("code", .number 7)])) = .ok {} ∧
      parse_leds plain {}
        (.object (led_entry [("code", .number 7), ("module", .string "pad")])) = .ok {} := by
  refine (incomplete_entries_are_skipped_unless_a_value_is_missing _ {} _ _ ?_ ?_).mpr ?_
  · simp only [led_entry, List.mem_singleton, forall_eq]
    exact ⟨.inl rfl, .inr ⟨_, rfl⟩⟩
  · simp only [led_entry, List.mem_singleton, forall_eq]
    exact ⟨⟨.inr ⟨_, rfl⟩, .inr ⟨_, rfl⟩⟩, .inl rfl, .inl rfl⟩
  · simp only [led_entry, List.mem_singleton, forall_eq]
    exact fun h => h.mode rfl

/-- An led with a module, a code and a mode ends the load. -/
theorem an_led_without_a_value_is_an_error :
    ¬ ∀ (unit : s_unit) (ls : List (String × value Nat)), (∀ bit ∈ ls, LedEntry bit.2) →
      parse_leds plain unit (.object ls) =
        .ok { unit with leds := unit.leds ++ ls.filterMap (led_of plain) } := by
  intro hall
  have hok := hall {} (led_entry [("code", .number 7), ("mode", .string "steady"),
    ("module", .string "pad")]) (by
      simp only [led_entry, List.mem_singleton, forall_eq]
      exact ⟨⟨.inr ⟨_, rfl⟩, .inr ⟨_, rfl⟩⟩, .inr ⟨_, rfl⟩, .inl rfl⟩)
  cases hok

end strangeio.config
