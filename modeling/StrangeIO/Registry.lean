-- The registry of components (component/registry.cpp) and what is kept of it in the
-- components (component/registrable.cpp).
import Mathlib.Data.List.Induction
import StrangeIO.CachePtr

namespace strangeio.component

/-- What is registered. The id is set by the registration, and so is the handle. -/
structure registrable where
  m_model : String
  m_label : String
  m_type : ctype
  m_component_id : Int
  m_handle : rhandle
deriving DecidableEq, Repr

def registrable.set_id (c : registrable) (id : Int) : registrable :=
  { c with m_component_id := id }

def registrable.set_handle (c : registrable) (handle : rhandle) : registrable :=
  { c with m_handle := handle }

def registrable.handle (c : registrable) : rhandle := c.m_handle
def registrable.umodel (c : registrable) : String := c.m_model
def registrable.ulabel (c : registrable) : String := c.m_label
def registrable.type (c : registrable) : ctype := c.m_type
def registrable.sysid (c : registrable) : Int := c.m_component_id

structure registry where
  m_current_id : Int := 0
  m_registry : List rhandle := []
deriving DecidableEq, Repr

/-- A handle for the component, with `id` as it lies in memory: nothing sets it. -/
def registrable.describe (c : registrable) (id : Int) : rhandle :=
  { id, label := c.ulabel, model := c.umodel, type := c.type }

/-- The registry, the component and the line of the log after the registration. -/
def registry.register_component (r : registry) (cmpt : registrable) (raw : Int) :
    registry × registrable × String :=
  let cmpt := cmpt.set_id r.m_current_id
  let i := cmpt.describe raw
  let cmpt := cmpt.set_handle i
  let line := "Registered [" ++ toString r.m_current_id ++ "] " ++ i.model ++ "::" ++ i.label
  ({ m_current_id := r.m_current_id + 1, m_registry := r.m_registry ++ [i] }, cmpt, line)

/-- `none` where `at` throws `out_of_range`. A negative id is a large index. -/
def registry.with_id (r : registry) (id : Int) : Option rhandle :=
  if id < 0 then none else r.m_registry[id.toNat]?

/-! ## Registrations -/

variable {γ : Type} [DecidableEq γ]

/-- The registry and the components, which are told apart by `γ`. -/
structure registered (γ : Type) where
  registry : registry
  cmpt : γ → registrable
  log : List String

/-- A call: the component, and what lies in memory where the id of its handle is. -/
abbrev registration (γ : Type) := γ × Int

def registered.register (s : registered γ) (call : registration γ) : registered γ :=
  let (registry, cmpt, line) := s.registry.register_component (s.cmpt call.1) call.2
  { registry, cmpt := Function.update s.cmpt call.1 cmpt, log := s.log ++ [line] }

/-- The calls on a new registry. -/
def registrations (start : γ → registrable) (calls : List (registration γ)) : registered γ :=
  calls.foldl registered.register ⟨{}, start, []⟩

/-- The call that registers the component and is not followed by another. -/
def Last (calls : List (registration γ)) (c : γ) (k : Nat) (raw : Int) : Prop :=
  calls[k]? = some (c, raw) ∧ ∀ j raw', k < j → calls[j]? ≠ some (c, raw')

/-- The registry finds what was registered, under ids that count the calls. -/
structure Looks (start : γ → registrable) (calls : List (registration γ)) : Prop where
  ids : ∀ k c raw, calls[k]? = some (c, raw) →
    ((registrations start (calls.take (k + 1))).cmpt c).sysid = k
  found : ∀ c ∈ calls.map Prod.fst,
    let s := registrations start calls
    s.registry.with_id (s.cmpt c).sysid = some (s.cmpt c).handle ∧
      (s.cmpt c).handle = (s.cmpt c).describe (s.cmpt c).sysid
  throws : ∀ id : Int, (∀ k : Nat, k < calls.length → id ≠ k) →
    (registrations start calls).registry.with_id id = none

/-- What the calls leave: one handle for each, and in a component the id and the handle of
the last one. -/
structure Registered (start : γ → registrable) (calls : List (registration γ))
    (s : registered γ) : Prop where
  current : s.registry.m_current_id = calls.length
  handles : s.registry.m_registry = calls.map fun call => (start call.1).describe call.2
  const : ∀ c raw, (s.cmpt c).describe raw = (start c).describe raw
  last : ∀ c k raw, Last calls c k raw →
    (s.cmpt c).sysid = k ∧ (s.cmpt c).handle = (start c).describe raw

omit [DecidableEq γ] in
theorem last_snoc {calls : List (registration γ)} {call : registration γ} {c : γ} {k : Nat}
    {raw : Int} (h : Last (calls ++ [call]) c k raw) :
    (k = calls.length ∧ call = (c, raw)) ∨ (call.1 ≠ c ∧ Last calls c k raw) := by
  obtain ⟨hk, hlast⟩ := h
  rcases Nat.lt_trichotomy k calls.length with hlt | rfl | hgt
  · right
    constructor
    · rintro rfl
      exact hlast calls.length call.2 hlt List.getElem?_concat_length
    · refine ⟨?_, fun j raw' hj hraw => ?_⟩
      · rwa [List.getElem?_append_left hlt] at hk
      · obtain ⟨hj', -⟩ := List.getElem?_eq_some_iff.mp hraw
        apply hlast j raw' hj
        rw [List.getElem?_append_left hj']
        exact hraw
  · left
    rw [List.getElem?_concat_length] at hk
    exact ⟨rfl, Option.some.inj hk⟩
  · rw [List.getElem?_eq_none (by simp; omega)] at hk
    cases hk

theorem registered_snoc {start : γ → registrable} {calls : List (registration γ)}
    {s : registered γ} (h : Registered start calls s) (call : registration γ) :
    Registered start (calls ++ [call]) (s.register call) := by
  refine ⟨?_, ?_, fun c raw => ?_, fun c k raw hlast => ?_⟩
  · change s.registry.m_current_id + 1 = _
    rw [h.current]
    simp
  · change s.registry.m_registry ++ [(s.cmpt call.1).describe call.2] = _
    rw [h.handles, h.const, List.map_append]
    rfl
  · change (Function.update s.cmpt call.1 _ c).describe raw = _
    by_cases hc : c = call.1
    · subst hc
      rw [Function.update_self]
      exact h.const call.1 raw
    · rw [Function.update_of_ne hc]
      exact h.const c raw
  · unfold registered.register
    rcases last_snoc hlast with ⟨rfl, rfl⟩ | ⟨hne, hlast⟩
    · simp only [Function.update_self]
      exact ⟨h.current, h.const c raw⟩
    · simp only [Function.update_of_ne hne.symm]
      exact h.last c k raw hlast

theorem registrations_registered (start : γ → registrable) (calls : List (registration γ)) :
    Registered start calls (registrations start calls) := by
  induction calls using List.reverseRecOn with
  | nil =>
    refine ⟨rfl, rfl, fun c raw => rfl, fun c k raw hlast => ?_⟩
    cases hlast.1
  | append_singleton calls call ih =>
    unfold registrations at ih ⊢
    rw [List.foldl_append]
    exact registered_snoc ih call

omit [DecidableEq γ] in
theorem exists_last {calls : List (registration γ)} {c : γ} (h : c ∈ calls.map Prod.fst) :
    ∃ k raw, Last calls c k raw := by
  induction calls using List.reverseRecOn with
  | nil => cases h
  | append_singleton calls call ih =>
    by_cases hc : call.1 = c
    · subst hc
      refine ⟨calls.length, call.2, List.getElem?_concat_length, fun j raw' hj => ?_⟩
      rw [List.getElem?_eq_none (by simp; omega)]
      exact (Option.some_ne_none _).symm
    · have hmem : c ∈ calls.map Prod.fst := by
        rw [List.map_append] at h
        rcases List.mem_append.mp h with h | h
        · exact h
        · exact absurd (List.mem_singleton.mp h).symm hc
      obtain ⟨k, raw, hk, hlast⟩ := ih hmem
      obtain ⟨hlt, -⟩ := List.getElem?_eq_some_iff.mp hk
      refine ⟨k, raw, ?_, fun j raw' hj hraw => ?_⟩
      · rwa [List.getElem?_append_left hlt]
      · rcases Nat.lt_or_ge j calls.length with hj' | hj'
        · rw [List.getElem?_append_left hj'] at hraw
          exact hlast j raw' hj hraw
        · have hcall : call = (c, raw') := by
            rw [List.getElem?_append_right hj'] at hraw
            exact (List.mem_singleton.mp (List.mem_of_getElem? hraw)).symm
          exact hc (congrArg Prod.fst hcall)

omit [DecidableEq γ] in
theorem last_take {calls : List (registration γ)} {c : γ} {k : Nat} {raw : Int}
    (h : calls[k]? = some (c, raw)) : Last (calls.take (k + 1)) c k raw := by
  refine ⟨?_, fun j raw' hj => ?_⟩
  · rw [List.getElem?_take_of_lt (Nat.lt_succ_self k)]
    exact h
  · rw [List.getElem?_take_eq_none (by omega)]
    exact (Option.some_ne_none _).symm

/-! ## Looking up -/

theorem register_ids (start : γ → registrable) {calls : List (registration γ)} {c : γ} {k : Nat}
    {raw : Int} (h : calls[k]? = some (c, raw)) :
    ((registrations start (calls.take (k + 1))).cmpt c).sysid = k :=
  ((registrations_registered start _).last c k raw (last_take h)).1

/-- The handle under the id of a component is its own. -/
theorem with_id_handle (start : γ → registrable) {calls : List (registration γ)} {c : γ} {k : Nat}
    {raw : Int} (h : Last calls c k raw) :
    (registrations start calls).registry.with_id k = some ((start c).describe raw) := by
  unfold registry.with_id
  rw [(registrations_registered start calls).handles, if_neg (by omega), Int.toNat_natCast,
    List.getElem?_map, h.1]
  rfl

theorem with_id_throws (start : γ → registrable) (calls : List (registration γ)) (id : Int)
    (h : ∀ k : Nat, k < calls.length → id ≠ k) :
    (registrations start calls).registry.with_id id = none := by
  unfold registry.with_id
  split
  · rfl
  · rename_i hpos
    rw [(registrations_registered start calls).handles]
    apply List.getElem?_eq_none
    rw [List.length_map]
    by_contra hlt
    exact h id.toNat (by omega) (by omega)

/-- A handle has the id that lay in memory. -/
theorem looks_raw {start : γ → registrable} {calls : List (registration γ)} {c : γ} {k : Nat}
    {raw : Int} (hlooks : Looks start calls) (hlast : Last calls c k raw) : raw = k := by
  obtain ⟨hid, hhandle⟩ := (registrations_registered start calls).last c k raw hlast
  obtain ⟨-, hfound⟩ := hlooks.found c (List.mem_map.mpr
    ⟨(c, raw), List.mem_of_getElem? hlast.1, rfl⟩)
  rw [hhandle, hid] at hfound
  exact congrArg rhandle.id hfound

theorem looks_of_raw (start : γ → registrable) {calls : List (registration γ)}
    (hraw : ∀ c k raw, Last calls c k raw → raw = k) : Looks start calls := by
  have hreg := registrations_registered start calls
  refine ⟨fun k c raw h => register_ids start h, fun c hc => ?_, with_id_throws start calls⟩
  obtain ⟨k, raw, hlast⟩ := exists_last hc
  obtain ⟨hid, hhandle⟩ := hreg.last c k raw hlast
  simp only
  rw [hid, hhandle, with_id_handle start hlast, hreg.const, hraw c k raw hlast]
  exact ⟨rfl, rfl⟩

/-- **The registry finds the components under their ids, with handles that carry these ids, just
when they lay in memory where the last handle of each was made: the registration does not set
the id of the handle.** -/
theorem the_registry_looks_up_if_the_ids_lay_there (start : γ → registrable)
    (calls : List (registration γ)) :
    Looks start calls ↔ ∀ c k raw, Last calls c k raw → raw = k := by
  constructor
  · intro hlooks c k raw hlast
    exact looks_raw hlooks hlast
  · exact looks_of_raw start

/-- Whatever is registered, there is memory with which the lookups fail. -/
theorem lookups_hold_for_all_memory_only_without_calls (start : γ → registrable) (cs : List γ) :
    (∀ raw : γ → Int, Looks start (cs.map fun c => (c, raw c))) ↔ cs = [] := by
  constructor
  · intro hall
    by_contra hne
    obtain ⟨c, hc⟩ := List.exists_mem_of_ne_nil cs hne
    have hmem : c ∈ (cs.map fun c => (c, (-1 : Int))).map Prod.fst := by
      simpa using hc
    obtain ⟨k, raw, hlast⟩ := exists_last hmem
    have hraw : raw = k := looks_raw (hall fun _ => -1) hlast
    have hneg : raw = -1 := by
      obtain ⟨_, -, heq⟩ := List.mem_map.mp (List.mem_of_getElem? hlast.1)
      exact (congrArg Prod.snd heq).symm
    omega
  · rintro rfl raw
    apply looks_of_raw start
    intro c k raw hlast
    cases hlast.1

/-- The handle of the first component that is registered, where 7 lies in memory. -/
theorem a_handle_has_the_id_that_lay_there :
    ¬ ∀ (start : Unit → registrable) (calls : List (registration Unit)), Looks start calls := by
  intro hall
  have hlooks := hall (fun _ => ⟨"Gain", "gain1", .unit, 0, {}⟩) [((), 7)]
  obtain ⟨-, hfound⟩ := hlooks.found () (by decide)
  exact absurd hfound (by decide)

end strangeio.component
