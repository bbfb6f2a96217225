-- A block on its way down the lines: `fill_line` of component/unit.cpp and `fill_out` of
-- component/linkable.cpp. The samples go by value. So each call has a cache_ptr of its
-- own, at the depth of the call, that is destroyed when the call returns.
import Mathlib.Data.Fintype.Option
import StrangeIO.CacheSwap
import StrangeIO.Linkable
import StrangeIO.SyncFrame

namespace strangeio.component

open strangeio.memory (cache_ptr Objects)

variable {ι κ : Type}

/-! ## The calls -/

/-- The samples of the calls by their depths, what the units received that override
`fill_line`: at which input, and the samples as they found them, and the samples that they
took over. -/
structure Filling (ι κ : Type) where
  objects : Objects κ
  received : List (ι × Nat × cache_ptr κ)
  kept : List (cache_ptr κ)

/-- The blocks that are returned once the units let go of what they took over. -/
def Filling.let_go (s : Filling ι κ) : List (κ × Nat) :=
  s.objects.returned ++ s.kept.flatMap cache_ptr.owned

/-- The call of a `fill_line` with `std::move(samples)`, where `samples` is at `this`. -/
def hand_on (fill_line : ι → Nat → Nat → Filling ι κ → Option (Filling ι κ)) (v : ι)
    (id this : Nat) (s : Filling ι κ) : Option (Filling ι κ) := do
  let s ← fill_line v id (this + 1)
    { s with objects := cache_ptr.move_construct (this + 1) this s.objects }
  some { s with objects := cache_ptr.destroy (this + 1) s.objects }

/-- `unit::fill_line`. -/
def unit.fill_line (fill_line : ι → Nat → Nat → Filling ι κ → Option (Filling ι κ)) (x : unit ι)
    (_id this : Nat) (s : Filling ι κ) : Option (Filling ι κ) :=
  x.m_outputs.foldlM
    (fun s out =>
      match out.connected, out.to_in with
      | true, some (v, id) => hand_on fill_line v id this s
      | _, _ => some s)
    s

/-- A `fill_line` that is not `unit::fill_line`: `takes` says of all that was received so far
whether the last unit takes its samples over. It leaves them empty then, and as they were else. -/
def override (takes : List (ι × Nat × cache_ptr κ) → Bool) (u : ι) (id this : Nat)
    (s : Filling ι κ) : Filling ι κ :=
  let samples := s.objects.obj this
  let received := s.received ++ [(u, id, samples)]
  if takes received then
    { objects := s.objects.set this { samples with m_block := none, m_num_blocks := 0 }
      received
      kept := s.kept ++ [samples] }
  else { s with received }

section graph

variable (units : ι → unit ι) (overrides : ι → Bool)

section
variable (takes : List (ι × Nat × cache_ptr κ) → Bool)

/-- The virtual call, as deep as the fuel goes. -/
def fill_line : Nat → ι → Nat → Nat → Filling ι κ → Option (Filling ι κ)
  | 0, _, _, _, _ => none
  | fuel + 1, u, id, this, s =>
    if overrides u then some (override takes u id this s)
    else (units u).fill_line (fill_line fuel) id this s

/-- The samples of a caller, before the call. -/
def Filling.start (samples : cache_ptr κ) : Filling ι κ where
  objects := { obj := Function.update (fun _ => {}) 0 samples, effects := [] }
  received := []
  kept := []

/-- The samples of a caller go out of scope. -/
def Filling.close (s : Filling ι κ) : Filling ι κ :=
  { s with objects := cache_ptr.destroy 0 s.objects }

/-- A caller that sends its samples into `fill_line` of the unit `u`. -/
def send (fuel : Nat) (u : ι) (id : Nat) (samples : cache_ptr κ) : Option (Filling ι κ) :=
  (hand_on (fill_line units overrides takes fuel) u id 0 (.start samples)).map Filling.close

/-- `fill_out` of the unit `u`. There is no result after a step through a null pointer. -/
def fill_out (fuel : Nat) (u : ι) (samples : cache_ptr κ) (id : Int) :
    Option (Bool × Filling ι κ) :=
  match (units u).m_outputs[uint id]? with
  | none => some (false, (Filling.start samples).close)
  | some out =>
    if !out.connected then some (false, (Filling.start samples).close)
    else
      match out.to_in with
      | none => none
      | some (v, k) => (send units overrides takes fuel v k samples).map fun s => (true, s)

end

/-! ## The lines -/

/-- The units that a unit relays to. -/
def relays_to (u : ι) : List ι := if overrides u then [] else (units u).links.map Prod.fst

/-- The unit `v` is at the first output of `u` that is connected. -/
def First (u v : ι) : Prop := (relays_to units overrides u).head? = some v

/-- The units that override `fill_line` and that a block from `u` can come to. -/
def Receiver (u v : ι) : Prop :=
  overrides v ∧ Relation.ReflTransGen (walk.Edge (relays_to units overrides)) u v

/-- The one of them that the first outputs lead to. -/
def FirstReceiver (u v : ι) : Prop :=
  overrides v ∧ Relation.ReflTransGen (First units overrides) u v

end graph

/-- The unit received a block. -/
def Filling.Delivered (s : Filling ι κ) (v : ι) : Prop :=
  ∃ id samples, (v, id, samples) ∈ s.received ∧ samples.m_block.isSome

/-! ## What a call does with the samples -/

/-- From `s` to `s'` the samples at `a` may have been given away, and the calls above are
over: a block that was there was returned, was taken over or is still there, and the units of
`to_` received it, if there was one. -/
structure Relays (a : Nat) (to_ : ι → Prop) (s s' : Filling ι κ) : Prop where
  below : ∀ b < a, s'.objects.obj b = s.objects.obj b
  owned : (s'.let_go ++ (s'.objects.obj a).owned).Perm (s.let_go ++ (s.objects.obj a).owned)
  empty : (s.objects.obj a).m_block = none → (s'.objects.obj a).m_block = none
  delivered : ∀ v, s'.Delivered v ↔ s.Delivered v ∨ (s.objects.obj a).m_block.isSome ∧ to_ v

theorem Relays.refl (a : Nat) (s : Filling ι κ) : Relays a (fun _ => False) s s where
  below _ _ := rfl
  owned := .refl _
  empty h := h
  delivered v := by simp

/-- What follows a call that emptied the samples delivers nothing more. -/
theorem Relays.then_empty {a : Nat} {to_ to' : ι → Prop} {s s1 s2 : Filling ι κ}
    (h : Relays a to_ s s1) (hempty : (s1.objects.obj a).m_block = none)
    (g : Relays a to' s1 s2) : Relays a to_ s s2 where
  below b hb := (g.below b hb).trans (h.below b hb)
  owned := g.owned.trans h.owned
  empty _ := g.empty hempty
  delivered v := by
    rw [g.delivered v, hempty]
    simpa using h.delivered v

theorem owned_of_empty {p : cache_ptr κ} (h : p.m_block = none) : p.owned = [] := by
  unfold cache_ptr.owned
  rw [h]

theorem move_construct_obj {x y : Nat} (hxy : x ≠ y) (m : Objects κ) :
    ((cache_ptr.move_construct x y m).obj x).owned = (m.obj y).owned ∧
      ((cache_ptr.move_construct x y m).obj x).m_block = (m.obj y).m_block ∧
      ((cache_ptr.move_construct x y m).obj y).m_block = none ∧
      ∀ b, b ≠ x → b ≠ y → (cache_ptr.move_construct x y m).obj b = m.obj b := by
  obtain ⟨hblock, hcache⟩ := (cache_ptr.move_construct_spec hxy m).2 x
  rw [if_neg hxy, if_pos rfl] at hblock
  rw [if_pos rfl] at hcache
  refine ⟨cache_ptr.owned_congr hblock fun _ => hcache, hblock, ?_, fun b hx hy => ?_⟩
  · rw [((cache_ptr.move_construct_spec hxy m).2 y).1, if_pos rfl]
  · simp [cache_ptr.move_construct, Objects.set, hx, hy]

/-- The blocks that a destructor returns are no longer in its samples. -/
theorem let_go_destroy (s : Filling ι κ) (a : Nat) :
    ({ s with objects := cache_ptr.destroy a s.objects } : Filling ι κ).let_go.Perm
      (s.let_go ++ (s.objects.obj a).owned) := by
  unfold Filling.let_go
  rw [cache_ptr.destroy_returned, List.append_assoc, List.append_assoc]
  exact List.perm_append_comm.append_left _

/-- The samples at `a` are empty after a call that they were moved into. -/
theorem hand_on_relays {fill : ι → Nat → Nat → Filling ι κ → Option (Filling ι κ)} {v : ι}
    {id a : Nat} {s s' : Filling ι κ} {to_ : ι → Prop}
    (hfill : ∀ s s', fill v id (a + 1) s = some s' → Relays (a + 1) to_ s s')
    (h : hand_on fill v id a s = some s') :
    Relays a to_ s s' ∧ (s'.objects.obj a).m_block = none := by
  obtain ⟨s1, h1, h2⟩ := Option.bind_eq_some_iff.mp h
  cases h2
  have hrelays := hfill _ s1 h1
  obtain ⟨howned, hblock, hgone, hothers⟩ :=
    move_construct_obj (Nat.succ_ne_self a) s.objects
  have ha : s1.objects.obj a = (cache_ptr.move_construct (a + 1) a s.objects).obj a :=
    hrelays.below a (Nat.lt_succ_self a)
  have hempty : (s1.objects.obj a).m_block = none := by rw [ha]; exact hgone
  constructor
  · constructor
    · intro b hb
      rw [cache_ptr.destroy_obj, hrelays.below b (by omega)]
      exact hothers b (by omega) (by omega)
    · have hsame := hrelays.owned
      rw [howned] at hsame
      refine List.Perm.trans ?_ hsame
      rw [cache_ptr.destroy_obj, owned_of_empty hempty, List.append_nil]
      exact let_go_destroy s1 (a + 1)
    · intro _
      rw [cache_ptr.destroy_obj]
      exact hempty
    · intro w
      have hw := hrelays.delivered w
      rw [hblock] at hw
      exact hw
  · rw [cache_ptr.destroy_obj]
    exact hempty

/-- The units that are linked to a unit, in turn: the first of them gets the block. -/
theorem foldlM_relays {fill : ι → Nat → Nat → Filling ι κ → Option (Filling ι κ)} {a : Nat}
    {to_ : ι → ι → Prop}
    (hfill : ∀ v id s s', fill v id (a + 1) s = some s' → Relays (a + 1) (to_ v) s s')
    (ls : List (ι × Nat)) {s s' : Filling ι κ}
    (h : ls.foldlM (fun s l => hand_on fill l.1 l.2 a s) s = some s') :
    Relays a (fun w => ∃ v, (ls.map Prod.fst).head? = some v ∧ to_ v w) s s' := by
  induction ls generalizing s with
  | nil =>
    cases h
    simpa using Relays.refl a _
  | cons l ls ih =>
    obtain ⟨s1, h1, h2⟩ := walk.foldlM_cons_some.mp h
    obtain ⟨hrelays, hempty⟩ := hand_on_relays (hfill l.1 l.2) h1
    simpa using hrelays.then_empty hempty (ih h2)

theorem fill_line_links (fill : ι → Nat → Nat → Filling ι κ → Option (Filling ι κ)) (x : unit ι)
    (id a : Nat) (s : Filling ι κ) :
    x.fill_line fill id a s = x.links.foldlM (fun s l => hand_on fill l.1 l.2 a s) s := by
  refine foldlM_links (fun _ b => ?_) (fun _ _ => rfl) (fun _ _ => rfl) x s
  cases b <;> rfl

section graph

variable {units : ι → unit ι} {overrides : ι → Bool} {takes : List (ι × Nat × cache_ptr κ) → Bool}

theorem firstReceiver_self {u : ι} (h : overrides u = true) (v : ι) :
    FirstReceiver units overrides u v ↔ v = u := by
  have hnone : ∀ w, ¬ First units overrides u w := by
    intro w hw
    simp [First, relays_to, h] at hw
  constructor
  · rintro ⟨-, hreach⟩
    rcases Relation.ReflTransGen.cases_head hreach with rfl | ⟨w, hw, -⟩
    · rfl
    · exact absurd hw (hnone w)
  · rintro rfl
    exact ⟨h, .refl⟩

theorem firstReceiver_next {u : ι} (h : overrides u = false) (v : ι) :
    FirstReceiver units overrides u v ↔
      ∃ w, (relays_to units overrides u).head? = some w ∧ FirstReceiver units overrides w v := by
  constructor
  · rintro ⟨hv, hreach⟩
    rcases Relation.ReflTransGen.cases_head hreach with rfl | ⟨w, hw, hrest⟩
    · rw [h] at hv
      cases hv
    · exact ⟨w, hw, hv, hrest⟩
  · rintro ⟨w, hw, hv, hrest⟩
    exact ⟨hv, .head hw hrest⟩

/-- An override receives the samples, and leaves their block to the caller or takes it over. -/
theorem override_relays (u : ι) (id a : Nat) (s : Filling ι κ) :
    Relays a (fun v => v = u) s (override takes u id a s) := by
  have hdelivered (v : ι) : (override takes u id a s).Delivered v ↔
      s.Delivered v ∨ (s.objects.obj a).m_block.isSome ∧ v = u := by
    have hreceived : (override takes u id a s).received =
        s.received ++ [(u, id, s.objects.obj a)] := by
      unfold override
      dsimp only
      split <;> rfl
    unfold Filling.Delivered
    rw [hreceived]
    simp only [List.mem_append, List.mem_singleton, Prod.mk.injEq]
    constructor
    · rintro ⟨i, q, hmem | ⟨rfl, rfl, rfl⟩, hq⟩
      · exact .inl ⟨i, q, hmem, hq⟩
      · exact .inr ⟨hq, rfl⟩
    · rintro (⟨i, q, hmem, hq⟩ | ⟨hq, rfl⟩)
      · exact ⟨i, q, .inl hmem, hq⟩
      · exact ⟨id, _, .inr ⟨rfl, rfl, rfl⟩, hq⟩
  refine ⟨fun b hb => ?_, ?_, ?_, hdelivered⟩
  · unfold override
    dsimp only
    split
    · exact Function.update_of_ne (Nat.ne_of_lt hb) _ _
    · rfl
  · unfold override
    dsimp only
    split
    · simp [Filling.let_go, Objects.set, Objects.returned, owned_of_empty]
    · exact .refl _
  · intro hempty
    unfold override
    dsimp only
    split
    · simp [Objects.set]
    · exact hempty

/-- A `fill_line` that returns gave the block to the unit that the first outputs lead to. -/
theorem fill_line_relays (fuel : Nat) (u : ι) (id a : Nat) {s s' : Filling ι κ}
    (h : fill_line units overrides takes fuel u id a s = some s') :
    Relays a (FirstReceiver units overrides u) s s' := by
  induction fuel generalizing u id a s s' with
  | zero => cases h
  | succ fuel ih =>
    unfold fill_line at h
    split at h
    · rename_i hover
      cases h
      have hself : FirstReceiver units overrides u = fun v => v = u := by
        funext v
        rw [firstReceiver_self hover]
      rw [hself]
      exact override_relays u id a s
    · rename_i hrelay
      have hrelay : overrides u = false := by simpa using hrelay
      rw [fill_line_links] at h
      have hrelays := foldlM_relays (fun v id s s' => ih v id (a + 1)) (units u).links h
      have hsame : (fun w => ∃ v, ((units u).links.map Prod.fst).head? = some v ∧
          FirstReceiver units overrides v w) = FirstReceiver units overrides u := by
        funext w
        rw [firstReceiver_next hrelay]
        simp [relays_to, hrelay]
      rwa [hsame] at hrelays

variable (takes) in
/-- Where the lines end, so does a `fill_line`. -/
theorem fill_line_ends (fuel : Nat) (u : ι) (id a : Nat) (s : Filling ι κ)
    (h : walk.Within (relays_to units overrides) fuel u) :
    ∃ s', fill_line units overrides takes fuel u id a s = some s' := by
  induction fuel generalizing u id a s with
  | zero => exact h.elim
  | succ fuel ih =>
    unfold fill_line
    split
    · exact ⟨_, rfl⟩
    · rename_i hrelay
      have hrelay : overrides u = false := by simpa using hrelay
      rw [fill_line_links]
      have hsome := walk.foldlM_some (I := fun _ => True)
        (f := fun s l => hand_on (fill_line units overrides takes fuel) l.1 l.2 a s)
        (l := (units u).links) (s := s) (fun s _ l hl => ?_) trivial
      · obtain ⟨s', hs', -⟩ := hsome
        exact ⟨s', hs'⟩
      · have hin : l.1 ∈ relays_to units overrides u := by
          simpa [relays_to, hrelay] using ⟨l.2, hl⟩
        obtain ⟨s1, h1⟩ := ih l.1 l.2 (a + 1) _ (h l.1 hin)
        exact ⟨_, by unfold hand_on; rw [h1]; rfl, trivial⟩

/-! ## A block from a caller -/

theorem start_owned (samples : cache_ptr κ) :
    ((Filling.start samples : Filling ι κ).objects.obj 0).owned = samples.owned := by
  simp [Filling.start]

/-- Samples have one block at most. -/
theorem owned_of_perm {samples : cache_ptr κ} {blocks : List (κ × Nat)}
    (h : blocks.Perm samples.owned) : blocks = samples.owned := by
  unfold cache_ptr.owned at h ⊢
  split at h
  · exact List.perm_singleton.mp h
  · exact List.perm_nil.mp h

/-- The block of a call comes to the unit that the first outputs lead to, and is returned
once, by the call or by a unit that took it over. -/
theorem send_spec {fuel : Nat} {u : ι} {id : Nat} {samples : cache_ptr κ} {s : Filling ι κ}
    (h : send units overrides takes fuel u id samples = some s) :
    s.let_go = samples.owned ∧
      ∀ v, s.Delivered v ↔ samples.m_block.isSome ∧ FirstReceiver units overrides u v := by
  obtain ⟨s1, h1, rfl⟩ := Option.map_eq_some_iff.mp h
  have hfill : ∀ s s' : Filling ι κ, fill_line units overrides takes fuel u id 1 s = some s' →
      Relays 1 (FirstReceiver units overrides u) s s' :=
    fun _ _ h => fill_line_relays fuel u id 1 h
  obtain ⟨hrelays, hempty⟩ := hand_on_relays hfill h1
  constructor
  · have howned := hrelays.owned
    rw [start_owned] at howned
    exact owned_of_perm ((let_go_destroy s1 0).trans howned)
  · intro v
    refine (hrelays.delivered v).trans ?_
    simp [Filling.Delivered, Filling.start]

/-- A call of `fill_out` has the block returned once as well, also when it is turned away. -/
theorem fill_out_returns {fuel : Nat} {u : ι} {id : Int} {samples : cache_ptr κ} {b : Bool}
    {s : Filling ι κ} (h : fill_out units overrides takes fuel u samples id = some (b, s)) :
    s.let_go = samples.owned := by
  have hclose : (Filling.start samples : Filling ι κ).close.let_go = samples.owned := by
    have hgone := let_go_destroy (Filling.start samples : Filling ι κ) 0
    rw [start_owned] at hgone
    exact owned_of_perm hgone
  unfold fill_out at h
  split at h
  · cases h
    exact hclose
  · split at h
    · cases h
      exact hclose
    · split at h
      · cases h
      · obtain ⟨s1, h1, h2⟩ := Option.map_eq_some_iff.mp h
        cases h2
        exact (send_spec h1).1

/-- **A block that is sent down the lines is returned once, by the calls or by the one unit
that took it over. It comes to all the units that override `fill_line` and that the relays lead
to just when the first outputs lead to each of them.** -/
theorem a_block_follows_the_first_outputs [Fintype ι] (units : ι → unit ι) (overrides : ι → Bool)
    (takes : List (ι × Nat × cache_ptr κ) → Bool)
    (hacyclic : walk.Acyclic (relays_to units overrides)) (fuel : Nat)
    (hfuel : Fintype.card ι ≤ fuel) (u : ι) (id : Nat) (samples : cache_ptr κ)
    (hblock : samples.m_block.isSome) :
    ∃ s, send units overrides takes fuel u id samples = some s ∧
      s.objects.returned ++ s.kept.flatMap cache_ptr.owned = samples.owned ∧
      ((∀ v, Receiver units overrides u v → s.Delivered v) ↔
        ∀ v, Receiver units overrides u v → FirstReceiver units overrides u v) := by
  have hwithin := (walk.within_card hacyclic u).mono hfuel
  obtain ⟨s1, h1⟩ := fill_line_ends takes fuel u id 1
    { (Filling.start samples : Filling ι κ) with
      objects := cache_ptr.move_construct 1 0 (Filling.start samples : Filling ι κ).objects }
        hwithin
  have hsend : (send units overrides takes fuel u id samples).isSome := by
    unfold send hand_on
    rw [h1]
    rfl
  obtain ⟨s, hs⟩ := Option.isSome_iff_exists.mp hsend
  obtain ⟨hgone, hdelivered⟩ := send_spec hs
  refine ⟨s, hs, hgone, ?_⟩
  simp only [hdelivered, hblock, true_and]

end graph

/-! ## A unit with two outputs -/

/-- A unit that relays to two units with a `fill_line` of their own. -/
def splitter : Option Bool → unit (Option Bool)
  | none => { m_outputs := [⟨some (some false, 0), true⟩, ⟨some (some true, 0), true⟩] }
  | some _ => {}

/-- The same with the second output not connected. -/
def single : Option Bool → unit (Option Bool)
  | none => { m_outputs := [⟨some (some false, 0), true⟩, ⟨none, false⟩] }
  | some _ => {}

def oneBlock : cache_ptr Unit := { m_cache := some (), m_block := some 8, m_num_blocks := 1 }

/-- Both of them let their samples go. -/
def nobody : List (Option Bool × Nat × cache_ptr Unit) → Bool := fun _ => false

theorem a_single_line_delivers :
    ∃ s, send single Option.isSome nobody 3 none 0 oneBlock = some s ∧
      s.objects.returned ++ s.kept.flatMap cache_ptr.owned = oneBlock.owned ∧
      ∀ v, Receiver single Option.isSome none v → s.Delivered v := by
  have hacyclic : walk.Acyclic (relays_to single Option.isSome) :=
    walk.acyclic_of_rank (fun v => if v.isSome then 1 else 0) (by decide)
  obtain ⟨s, hs, hreturned, hiff⟩ := a_block_follows_the_first_outputs single Option.isSome
    nobody hacyclic 3 (by decide) none 0 oneBlock rfl
  refine ⟨s, hs, hreturned, hiff.mpr ?_⟩
  rintro v ⟨hv, hreach⟩
  have hfirst : ∀ a b, walk.Edge (relays_to single Option.isSome) a b →
      First single Option.isSome a b := by
    unfold walk.Edge First
    decide
  exact ⟨hv, Relation.ReflTransGen.mono hfirst _ _ hreach⟩

/-- The unit at the second output gets no block. -/
theorem a_splitter_does_not_deliver :
    ¬ ∀ s, send splitter Option.isSome nobody 3 none 0 oneBlock = some s →
      ∀ v, Receiver splitter Option.isSome none v → s.Delivered v := by
  intro hall
  have hreceived : (send splitter Option.isSome nobody 3 none 0 oneBlock).map
      (fun s => s.received.map fun e => (e.1, e.2.2.m_block)) =
        some [(some false, some 8), (some true, none)] := by decide
  obtain ⟨s, hs, hlist⟩ := Option.map_eq_some_iff.mp hreceived
  obtain ⟨id, samples, hmem, hsome⟩ := hall s hs (some true)
    ⟨rfl, .single (by unfold walk.Edge; decide)⟩
  have hpair := List.mem_map_of_mem (f := fun e => (e.1, e.2.2.m_block)) hmem
  rw [hlist] at hpair
  obtain ⟨block, hb⟩ := Option.isSome_iff_exists.mp hsome
  simp [hb] at hpair

end strangeio.component
