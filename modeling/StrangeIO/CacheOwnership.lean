-- The variables of a program on one built cache: which cache_ptr holds which
-- run of blocks, and which raw pointers the program took out. Each operation
-- is a few moves of a ledger of ownership.
import Mathlib.Data.Finset.Basic
import StrangeIO.CacheLaws
import StrangeIO.CachePtr
import StrangeIO.Ownership

namespace strangeio.memory

/-! ## The program -/

/-- The cache, the `cache_ptr` variables by their addresses, and the raw
pointers in the hands of the program. `allocated` and `freed` record the
runs given and taken back, and `strays` the frees of a pointer that was not
live. -/
structure World where
  heap : Heap
  vars : Nat → Option (cache_ptr Unit)
  hands : Finset Nat
  allocated : List Extent
  freed : List Extent
  strays : List Nat
  log : List String

/-- A `free_raw`. It ends the life of the run that the pointer was given for. -/
def World.free_raw (past : Nat → cache_handle) (w : World) (ptr : Nat) : World :=
  match w.heap.live.find? (fun r => w.heap.ptrOf r = some ptr) with
  | some r => { w with heap := w.heap.free past r, freed := r :: w.freed }
  | none =>
    { w with
      heap := { w.heap with cache := w.heap.cache.free_raw past (some ptr) }
      strays := ptr :: w.strays }

def World.effect (past : Nat → cache_handle) (w : World) : Effect Unit → World
  | .free_raw _ ptr => w.free_raw past ptr
  | .log line => { w with log := w.log ++ [line] }

def World.objects (w : World) : Objects Unit where
  obj x := (w.vars x).getD {}
  effects := []

/-- The program after a method, with the effects of it. -/
def World.after (past : Nat → cache_handle) (w : World) (m : Objects Unit) : World :=
  m.effects.foldl (World.effect past)
    { w with vars := fun x => (w.vars x).map fun _ => m.obj x }

/-- A new variable, before its constructor ran. -/
def World.declare (w : World) (x : Nat) : World :=
  { w with vars := Function.update w.vars x (some {}) }

/-- A variable goes out of scope. -/
def World.drop (w : World) (x : Nat) : World :=
  { w with vars := Function.update w.vars x none }

def World.hand (w : World) : PcmPtr → World
  | some p => { w with hands := insert p w.hands }
  | none => w

def World.unhand (w : World) : PcmPtr → World
  | some p => { w with hands := w.hands.erase p }
  | none => w

/-- The program after the cache gave `ptr` for `num` blocks, or null or nothing. -/
def World.grant (w : World) (num : Nat) (ptr : PcmPtr) (c : cache_manager) : World :=
  let given := if ptr.isSome then [⟨firstFit num w.heap.cache.m_handles, num⟩] else []
  { w with heap := { cache := c, live := given ++ w.heap.live }, allocated := given ++ w.allocated }

inductive Op where
  | construct (x : Nat)
  | cache_alloc (x : Nat) (u : cptr_utility Unit) (num : Nat)
  | move_construct (x y : Nat)
  | assign (x y : Nat)
  | swap (x y : Nat) (release_first : Bool)
  | reset (x : Nat) (ptr : PcmPtr) (num_blocks : Nat)
  | release (x : Nat)
  | free (x : Nat)
  | destroy (x : Nat)
  | alloc_raw (num : Nat)

/-- One operation of the program. A `cache_alloc` that throws leaves no variable. -/
def World.perform (past : Nat → cache_handle) (w : World) : Op → World
  | .construct x => w.declare x
  | .cache_alloc x u num =>
    match u.cache_alloc num w.heap.cache with
    | (.ok p, c) =>
      let w := w.grant num p.m_block c
      { w with vars := Function.update w.vars x (some p) }
    | (.error _, c) => w.grant num none c
  | .move_construct x y =>
    let w := w.declare x
    w.after past (cache_ptr.move_construct x y w.objects)
  | .assign x y => w.after past (cache_ptr.assign x y w.objects)
  | .swap x y release_first => w.after past (cache_ptr.swap x y release_first w.objects)
  | .reset x ptr num_blocks =>
    (w.after past (cache_ptr.reset x ptr num_blocks w.objects)).unhand ptr
  | .release x =>
    let r := cache_ptr.release x w.objects
    (w.after past r.2).hand r.1
  | .free x => w.after past (cache_ptr.free x w.objects)
  | .destroy x => (w.after past (cache_ptr.destroy x w.objects)).drop x
  | .alloc_raw num =>
    match w.heap.cache.alloc_raw num 0 with
    | (.ok ptr, _, c) => (w.grant num ptr c).hand ptr
    | (.error _, _, c) => w.grant num none c

/-- The operations that the program may perform: on variables that there
are, and with raw pointers that it has. -/
def World.Permits (w : World) : Op → Prop
  | .construct x => w.vars x = none
  | .cache_alloc x _ _ => w.vars x = none
  | .move_construct x y => w.vars x = none ∧ (w.vars y).isSome
  | .assign x y => (w.vars x).isSome ∧ (w.vars y).isSome
  | .swap x y _ => (w.vars x).isSome ∧ (w.vars y).isSome
  | .reset x ptr _ => (w.vars x).isSome ∧ ∀ p, ptr = some p → p ∈ w.hands
  | .release x => (w.vars x).isSome
  | .free x => (w.vars x).isSome
  | .destroy x => (w.vars x).isSome
  | .alloc_raw _ => True

/-- A program that starts with the cache of `n` blocks after `build_cache`. -/
def World.start (n bs raw bound : Nat) : World where
  heap := built n bs raw bound
  vars _ := none
  hands := ∅
  allocated := []
  freed := []
  strays := []
  log := []

/-- The operation, and what memory past the handle table holds at the time. -/
abbrev Act := (Nat → cache_handle) × Op

def worlds (n bs raw bound : Nat) : transition.System World Act where
  start w := w = World.start n bs raw bound
  step w act w' := w.Permits act.2 ∧ w' = w.perform act.1 act.2

/-! ## Who holds what -/

inductive Holder where
  | var (x : Nat)
  | hand (p : Nat)
deriving DecidableEq

def World.holds (w : World) : Holder → PcmPtr
  | .var x => (w.vars x).bind (·.m_block)
  | .hand p => if p ∈ w.hands then some p else none

/-- The pointers of the live runs, and who holds them. -/
def World.ledger (w : World) : ownership.Ledger Holder Nat where
  holds := w.holds
  live := {p | ∃ r ∈ w.heap.live, w.heap.ptrOf r = some p}

/-- The variable returns its block to the cache. -/
def World.returns (w : World) (x : Nat) : Prop := ∀ p, w.vars x = some p → p.m_cache.isSome

instance (w : World) (x : Nat) : Decidable (w.returns x) :=
  match h : w.vars x with
  | none => isTrue fun p hp => by rw [h] at hp; cases hp
  | some p =>
    if hc : p.m_cache.isSome then isTrue fun q hq => by rw [h] at hq; cases hq; exact hc
    else isFalse fun hr => hc (hr p h)

open ownership (Move)

/-- The move of an owner that gives its block up: back to the cache, if it can. -/
def World.giveUp (w : World) (x : Nat) : Move Holder Nat :=
  if w.returns x then .dispose (.var x) else .pass (.var x) (.var x)

/-- What an operation does to the ledger. -/
def World.moves (w : World) : Op → List (Move Holder Nat)
  | .construct _ => []
  | .cache_alloc x u num =>
    match (u.cache_alloc num w.heap.cache).1 with
    | .ok p => (p.m_block.map (Move.acquire (.var x))).toList
    | .error _ => []
  | .move_construct x y => [.pass (.var y) (.var x)]
  | .assign x y => [.pass (.var y) (.var x)]
  | .swap x y _ => [.swap (.var x) (.var y)]
  | .reset x ptr _ => w.giveUp x :: (ptr.map fun p => Move.pass (.hand p) (.var x)).toList
  | .release x => ((w.holds (.var x)).map fun p => Move.pass (.var x) (.hand p)).toList
  | .free x => if w.returns x then [.dispose (.var x)] else []
  | .destroy x => [w.giveUp x]
  | .alloc_raw num =>
    match (w.heap.cache.alloc_raw num 0).1 with
    | .ok ptr => (ptr.map fun p => Move.acquire (.hand p) p).toList
    | .error _ => []

/-! ## The books of the cache -/

/-- The allocator under the program: the table links the live runs, no free
was a stray one, and each run given was taken back or is live. -/
structure Books (n bs raw : Nat) (w : World) : Prop where
  sound : Sound n bs raw w.heap
  fits : w.heap.live ≠ [] → Fits n bs
  counts : ∀ r, w.freed.count r + w.heap.live.count r = w.allocated.count r
  strays : w.strays = []

theorem Sound.ptrOf {n bs raw : Nat} {h : Heap} (hs : Sound n bs raw h) {r : Extent}
    (hr : r ∈ h.live) : h.ptrOf r = some (raw + mul32 r.start bs) := by
  obtain ⟨x, hx, _⟩ := hs.linked.start_in_use hr
  unfold Heap.ptrOf
  rw [hx, Option.map_some, hs.layout.ptr hx]

/-- Two live runs have two pointers, where the offsets fit. -/
theorem Sound.ptrOf_inj {n bs raw : Nat} {h : Heap} (hs : Sound n bs raw h) (hfit : Fits n bs)
    (hbs : 1 ≤ bs) {r q : Extent} (hr : r ∈ h.live) (hq : q ∈ h.live)
    (he : h.ptrOf r = h.ptrOf q) : r = q := by
  obtain ⟨x, hx, _⟩ := hs.linked.start_in_use hr
  obtain ⟨y, hy, _⟩ := hs.linked.start_in_use hq
  have hptr : x.ptr = y.ptr := by
    unfold Heap.ptrOf at he
    rw [hx, hy] at he
    exact Option.some.inj he
  have h1 := hs.layout.index_ptr hfit hbs hx
  have h2 := hs.layout.index_ptr hfit hbs hy
  rw [hptr, h2, Option.some.injEq] at h1
  by_contra hne
  have hapart := hs.linked.apart.forall hr hq hne
  have hrpos := (hs.linked.inside r hr).1
  have hqpos := (hs.linked.inside q hq).1
  unfold Extent.Apart at hapart
  omega

variable {n bs raw : Nat} {w : World}

/-- The free of a live pointer frees the run that it was given for. -/
theorem free_raw_live (hs : Sound n bs raw w.heap) (hfit : Fits n bs) (hbs : 1 ≤ bs)
    (past : Nat → cache_handle) {r : Extent} {p : Nat} (hr : r ∈ w.heap.live)
    (hp : w.heap.ptrOf r = some p) :
    w.free_raw past p = { w with heap := w.heap.free past r, freed := r :: w.freed } := by
  unfold World.free_raw
  rcases hf : w.heap.live.find? (fun r => w.heap.ptrOf r = some p) with _ | q
  · have := List.find?_eq_none.mp hf r hr
    simp [hp] at this
  · have hq := List.mem_of_find?_eq_some hf
    have hqp : w.heap.ptrOf q = some p := by simpa using List.find?_some hf
    rw [hs.ptrOf_inj hfit hbs hq hr (hqp.trans hp.symm)]

theorem count_erase_add {α : Type} [DecidableEq α] {l : List α} {r : α} (hr : r ∈ l) (q : α) :
    (r :: l.erase r).count q = l.count q := (List.perm_cons_erase hr).symm.count_eq q

theorem books_free (h : Books n bs raw w) (hbs : 1 ≤ bs) (past : Nat → cache_handle) {r : Extent}
    (hr : r ∈ w.heap.live) :
    Books n bs raw { w with heap := w.heap.free past r, freed := r :: w.freed } := by
  have hfit := h.fits (List.ne_nil_of_mem hr)
  refine ⟨sound_free h.sound hfit hbs past hr, fun _ => hfit, ?_, h.strays⟩
  intro q
  have h1 := h.counts q
  have h2 := count_erase_add hr q
  rw [List.count_cons] at h2
  simp only [Heap.free, List.count_cons]
  omega

/-- The pointers that are live after a free: all but the one freed. -/
theorem live_free (h : Books n bs raw w) (hbs : 1 ≤ bs) (past : Nat → cache_handle) {r : Extent}
    {p : Nat} (hr : r ∈ w.heap.live) (hp : w.heap.ptrOf r = some p) (q : Nat) :
    (∃ e ∈ (w.heap.free past r).live, (w.heap.free past r).ptrOf e = some q) ↔
      q ∈ w.ledger.live ∧ some p ≠ some q := by
  have hfit := h.fits (List.ne_nil_of_mem hr)
  have hs' := sound_free h.sound hfit hbs past hr
  constructor
  · rintro ⟨e, he, heq⟩
    obtain ⟨hel, hapart⟩ := mem_erase_apart h.sound.linked.apart
      (fun q hq => (h.sound.linked.inside q hq).1) hr he
    have hptr : w.heap.ptrOf e = some q := by
      rw [h.sound.ptrOf hel, ← hs'.ptrOf he, heq]
    refine ⟨⟨e, hel, hptr⟩, fun hpq => ?_⟩
    have her := h.sound.ptrOf_inj hfit hbs hel hr (by rw [hptr, hp, hpq])
    have hpos := (h.sound.linked.inside r hr).1
    rw [her] at hapart
    unfold Extent.Apart at hapart
    omega
  · rintro ⟨⟨e, hel, hptr⟩, hpq⟩
    have hne : e ≠ r := fun e' => hpq (by rw [← hptr, ← hp, e'])
    have he : e ∈ (w.heap.free past r).live := (List.mem_erase_of_ne hne).mpr hel
    exact ⟨e, he, by rw [hs'.ptrOf he, ← h.sound.ptrOf hel, hptr]⟩

/-- An allocation that gives a pointer gives a new one. -/
theorem grant_some (h : Books n bs raw w) (hsize : Fits n bs ∨ mul32 bs n = 0) (hbs : 1 ≤ bs)
    {num p : Nat} {id : Int} {c : cache_manager}
    (he : w.heap.cache.alloc_raw num 0 = (.ok (some p), id, c)) :
    Books n bs raw (w.grant num (some p) c) ∧ p ∉ w.ledger.live ∧
      (w.grant num (some p) c).ledger.live = insert p w.ledger.live := by
  rcases alloc_raw_cases w.heap.cache num 0 with ⟨_, h1⟩ | ⟨_, _, h1⟩ | ⟨h0, hpos, x, hx, h1⟩
  · rw [h1] at he
    cases he
  · rw [h1] at he
    cases he
  rw [h1, Prod.mk.injEq, Prod.mk.injEq, Except.ok.injEq, Option.some.injEq] at he
  obtain ⟨rfl, _, rfl⟩ := he
  have hfit : Fits n bs := hsize.resolve_right fun hz => h0 (h.sound.layout.cache_size.trans hz)
  have halloc : (w.grant num (some x.ptr) (w.heap.cache.taken (firstFit num w.heap.cache.m_handles)
      num)).heap = w.heap.alloc num := by
    unfold Heap.alloc
    rw [h1]
    rfl
  have hs' : Sound n bs raw (w.heap.alloc num) := sound_alloc h.sound num
  have hlive : (w.heap.alloc num).live =
      ⟨firstFit num w.heap.cache.m_handles, num⟩ :: w.heap.live := by
    rw [← halloc]
    rfl
  have hnew : (⟨firstFit num w.heap.cache.m_handles, num⟩ : Extent) ∈ (w.heap.alloc num).live := by
    rw [hlive]
    exact List.mem_cons_self
  have hold : ∀ e ∈ w.heap.live, e ∈ (w.heap.alloc num).live := fun e hel => by
    rw [hlive]
    exact List.mem_cons_of_mem _ hel
  have hp : (w.heap.alloc num).ptrOf ⟨firstFit num w.heap.cache.m_handles, num⟩ = some x.ptr := by
    rw [hs'.ptrOf hnew, h.sound.layout.ptr hx]
  have hsame : ∀ e ∈ w.heap.live, (w.heap.alloc num).ptrOf e = w.heap.ptrOf e := fun e hel => by
    rw [hs'.ptrOf (hold e hel), h.sound.ptrOf hel]
  refine ⟨⟨halloc ▸ hs', fun _ => hfit, ?_, h.strays⟩, ?_, ?_⟩
  · intro r
    have := h.counts r
    simp only [World.grant, Option.isSome_some, if_true, List.cons_append, List.nil_append,
      List.count_cons]
    omega
  · rintro ⟨e, hel, hep⟩
    have := hs'.ptrOf_inj hfit hbs (hold e hel) hnew (by rw [hsame e hel, hep, hp])
    have hapart := h.sound.linked.apart_firstFit hx hel
    have hepos := (h.sound.linked.inside e hel).1
    rw [← this] at hapart
    unfold Extent.Apart at hapart
    omega
  · ext q
    simp only [World.ledger, halloc, hlive, Set.mem_ofPred_eq, Set.mem_insert_iff, List.mem_cons]
    constructor
    · rintro ⟨e, rfl | hel, heq⟩
      · left
        rw [hp] at heq
        exact (Option.some.inj heq).symm
      · right
        exact ⟨e, hel, by rw [← hsame e hel, heq]⟩
    · rintro (rfl | ⟨e, hel, heq⟩)
      · exact ⟨_, Or.inl rfl, hp⟩
      · exact ⟨e, Or.inr hel, by rw [hsame e hel, heq]⟩

/-- An allocation that gives no pointer changes no book. -/
theorem grant_none (h : Books n bs raw w) {num : Nat} {r : Except cache_drain PcmPtr}
    {id : Int} {c : cache_manager} (he : w.heap.cache.alloc_raw num 0 = (r, id, c))
    (hr : ∀ p, r ≠ .ok (some p)) :
    Books n bs raw (w.grant num none c) ∧ (w.grant num none c).ledger = w.ledger := by
  have hc : ∃ t, c = { w.heap.cache with m_track_id := t } := by
    rcases alloc_raw_cases w.heap.cache num 0 with ⟨_, h1⟩ | ⟨_, _, h1⟩ | ⟨_, _, x, _, h1⟩
    · rw [he, Prod.mk.injEq, Prod.mk.injEq] at h1
      exact ⟨w.heap.cache.m_track_id, h1.2.2⟩
    · rw [he, Prod.mk.injEq, Prod.mk.injEq] at h1
      exact ⟨_, h1.2.2⟩
    · rw [he, Prod.mk.injEq] at h1
      exact absurd h1.1 (hr x.ptr)
  obtain ⟨t, rfl⟩ := hc
  obtain ⟨⟨⟨h1, h2, h3, h4, h5⟩, hl⟩, hf, hcount, hstray⟩ := h
  exact ⟨⟨⟨⟨h1, h2, h3, h4, h5⟩, hl⟩, hf, hcount, hstray⟩, rfl⟩

/-! ## The ledger after a method -/

theorem effects_frame (past : Nat → cache_handle) (w : World) (es : List (Effect Unit)) :
    (es.foldl (World.effect past) w).vars = w.vars ∧
      (es.foldl (World.effect past) w).hands = w.hands := by
  induction es generalizing w with
  | nil => exact ⟨rfl, rfl⟩
  | cons e es ih =>
    rw [List.foldl_cons, (ih _).1, (ih _).2]
    cases e with
    | log l => exact ⟨rfl, rfl⟩
    | free_raw c p =>
      simp only [World.effect, World.free_raw]
      split <;> exact ⟨rfl, rfl⟩

theorem after_vars (past : Nat → cache_handle) (w : World) (m : Objects Unit) :
    (w.after past m).vars = fun x => (w.vars x).map fun _ => m.obj x :=
  (effects_frame past _ _).1

theorem holds_after (past : Nat → cache_handle) (w : World) (m : Objects Unit) :
    (∀ a, (w.after past m).holds (.var a) = if (w.vars a).isSome then (m.obj a).m_block else none) ∧
      ∀ p, (w.after past m).holds (.hand p) = w.holds (.hand p) := by
  obtain ⟨hv, hh⟩ := effects_frame past
    { w with vars := fun x => (w.vars x).map fun _ => m.obj x } m.effects
  constructor
  · intro a
    simp only [World.holds, World.after, hv]
    cases w.vars a <;> rfl
  · intro p
    simp only [World.holds, World.after, hh]

theorem objects_block (w : World) (a : Nat) : (w.objects.obj a).m_block = w.holds (.var a) := by
  simp only [World.objects, World.holds]
  cases w.vars a <;> rfl

theorem holds_none {x : Nat} (h : w.vars x = none) : w.holds (.var x) = none := by
  simp [World.holds, h]

theorem returns_iff {x : Nat} (h : (w.vars x).isSome) :
    w.returns x ↔ (w.objects.obj x).m_cache.isSome := by
  obtain ⟨p, hp⟩ := Option.isSome_iff_exists.mp h
  simp [World.returns, World.objects, hp]

/-- A method without effects changes no book. -/
theorem books_after (h : Books n bs raw w) (past : Nat → cache_handle) {m : Objects Unit}
    (he : m.effects = []) : Books n bs raw (w.after past m) ∧
      (w.after past m).ledger.live = w.ledger.live := by
  unfold World.after
  rw [he]
  exact ⟨⟨h.sound, h.fits, h.counts, h.strays⟩, rfl⟩

/-- A method that frees what a variable holds ends the life of it. -/
theorem books_after_free (h : Books n bs raw w) (hv : ownership.Valid w.ledger) (hbs : 1 ≤ bs)
    (past : Nat → cache_handle) {m : Objects Unit} {x p : Nat} {c : Unit} {l : String}
    (hx : w.holds (.var x) = some p) (he : m.effects = [.free_raw c p, .log l]) :
    Books n bs raw (w.after past m) ∧
      (w.after past m).ledger.live = {q | q ∈ w.ledger.live ∧ w.holds (.var x) ≠ some q} := by
  obtain ⟨r, hr, hp⟩ := hv.live (.var x) p hx
  have hfit := h.fits (List.ne_nil_of_mem hr)
  unfold World.after
  rw [he]
  simp only [List.foldl_cons, List.foldl_nil, World.effect]
  rw [free_raw_live (w := { w with vars := fun x => (w.vars x).map fun _ => m.obj x })
    h.sound hfit hbs past hr hp]
  have hbooks := books_free h hbs past hr
  refine ⟨⟨hbooks.sound, hbooks.fits, hbooks.counts, hbooks.strays⟩, ?_⟩
  ext q
  rw [Set.mem_ofPred_eq, hx]
  exact live_free h hbs past hr hp q

/-! ## The operations as moves -/

theorem after_ledger {past : Nat → cache_handle} {m : Objects Unit} {f : Holder → PcmPtr}
    {s : Set Nat} (hlive : (w.after past m).ledger.live = s)
    (hvar : ∀ a, (w.vars a).isSome → (m.obj a).m_block = f (.var a))
    (hgone : ∀ a, w.vars a = none → f (.var a) = none)
    (hhand : ∀ p, f (.hand p) = w.holds (.hand p)) : (w.after past m).ledger = ⟨f, s⟩ := by
  subst hlive
  obtain ⟨h1, h2⟩ := holds_after past w m
  have hf : (w.after past m).holds = f := by
    funext o
    cases o with
    | var a =>
      rw [h1]
      split
      · rename_i ha
        exact hvar a ha
      · rename_i ha
        exact (hgone a (by simpa using ha)).symm
    | hand p => rw [h2, hhand]
  rw [← hf]
  rfl

theorem set_ledger (x : Nat) (v : Option (cache_ptr Unit)) :
    ({ w with vars := Function.update w.vars x v } : World).ledger =
      { w.ledger with
        holds := Function.update w.ledger.holds (.var x) (v.bind (·.m_block)) } := by
  have hf : ({ w with vars := Function.update w.vars x v } : World).holds =
      Function.update w.holds (.var x) (v.bind (·.m_block)) := by
    funext o
    cases o with
    | var a =>
      by_cases hax : a = x
      · subst hax
        simp [World.holds]
      · simp [World.holds, hax]
    | hand p =>
      rw [Function.update_of_ne (by simp)]
      rfl
  unfold World.ledger
  rw [hf]

/-- A variable that is not there holds nothing. -/
theorem update_gone {x : Nat} (hx : w.vars x = none) :
    Function.update w.ledger.holds (.var x) none = w.ledger.holds := by
  have hnone : w.ledger.holds (.var x) = none := holds_none hx
  rw [← hnone, Function.update_eq_self]

theorem declare_ledger {x : Nat} (hx : w.vars x = none) : (w.declare x).ledger = w.ledger := by
  refine (set_ledger x (some {})).trans ?_
  rw [show (some ({} : cache_ptr Unit)).bind (·.m_block) = none from rfl, update_gone hx]

theorem hand_ledger (p : Nat) : (w.hand (some p)).ledger =
    { w.ledger with holds := Function.update w.ledger.holds (.hand p) (some p) } := by
  have hf : (w.hand (some p)).holds = Function.update w.holds (.hand p) (some p) := by
    funext o
    cases o with
    | var a => simp [World.holds, World.hand]
    | hand q =>
      by_cases hqp : q = p
      · subst hqp
        simp [World.holds, World.hand]
      · simp [World.holds, World.hand, hqp]
  unfold World.ledger
  rw [hf]
  rfl

theorem unhand_ledger (p : Nat) : (w.unhand (some p)).ledger =
    { w.ledger with holds := Function.update w.ledger.holds (.hand p) none } := by
  have hf : (w.unhand (some p)).holds = Function.update w.holds (.hand p) none := by
    funext o
    cases o with
    | var a => simp [World.holds, World.unhand]
    | hand q =>
      by_cases hqp : q = p
      · subst hqp
        simp [World.holds, World.unhand]
      · simp [World.holds, World.unhand, hqp]
  unfold World.ledger
  rw [hf]
  rfl

theorem giveUp_holds (x : Nat) :
    (w.ledger.move (w.giveUp x)).holds = Function.update w.holds (.var x) none := by
  unfold World.giveUp
  split
  · rfl
  · simp only [ownership.Ledger.move, Function.update_idem]
    rfl

theorem fresh_giveUp (w : World) (x : Nat) : ownership.Fresh w.ledger (w.giveUp x) := by
  unfold World.giveUp
  split <;> trivial

/-- A method that frees what `x` holds, where `x` has a block and a cache. -/
theorem books_giveUp (h : Books n bs raw w) (hv : ownership.Valid w.ledger) (hbs : 1 ≤ bs)
    (past : Nat → cache_handle) {m : Objects Unit} {x : Nat} (hx : (w.vars x).isSome)
    (hidle : (w.objects.obj x).m_block = none ∨ (w.objects.obj x).m_cache = none → m.effects = [])
    (hfree : ∀ b c, (w.objects.obj x).m_block = some b → (w.objects.obj x).m_cache = some c →
      ∃ l, m.effects = [.free_raw c b, .log l]) :
    Books n bs raw (w.after past m) ∧
      (w.after past m).ledger.live = (w.ledger.move (w.giveUp x)).live := by
  unfold World.giveUp
  rcases hb : (w.objects.obj x).m_block with _ | b
  · have hnone : w.ledger.holds (.var x) = none := (objects_block w x).symm.trans hb
    obtain ⟨h1, h2⟩ := books_after h past (hidle (Or.inl hb))
    refine ⟨h1, h2.trans ?_⟩
    split
    · simp only [ownership.Ledger.move, hnone]
      ext q
      simp
    · rfl
  · have hsome : w.holds (.var x) = some b := (objects_block w x).symm.trans hb
    rcases hc : (w.objects.obj x).m_cache with _ | c
    · have hret : ¬ w.returns x := by rw [returns_iff hx, hc]; simp
      obtain ⟨h1, h2⟩ := books_after h past (hidle (Or.inr hc))
      rw [if_neg hret]
      exact ⟨h1, h2⟩
    · have hret : w.returns x := by rw [returns_iff hx, hc]; rfl
      obtain ⟨l, hl⟩ := hfree b c hb hc
      rw [if_pos hret]
      exact books_after_free h hv hbs past hsome hl

/-- The operation leads from `w` to `w'` by these moves. -/
structure Performs (n bs raw : Nat) (w w' : World) (ms : List (Move Holder Nat)) : Prop where
  books : Books n bs raw w'
  ledger : w'.ledger = w.ledger.moves ms
  fresh : ownership.AllFresh w.ledger ms

theorem isSome_ne {x : Nat} (hx : (w.vars x).isSome) {a : Nat} (ha : w.vars a = none) :
    a ≠ x := fun e => by rw [← e, ha] at hx; cases hx

/-- A pass of a block from variable `y` to variable `x`. -/
theorem performs_pass (h : Books n bs raw w) (past : Nat → cache_handle) {m : Objects Unit}
    {x y : Nat} (hx : (w.vars x).isSome) (hy : (w.vars y).isSome) (he : m.effects = [])
    (hm : ∀ a, (m.obj a).m_block = if a = y then none
      else if a = x then (w.objects.obj y).m_block else (w.objects.obj a).m_block) :
    Performs n bs raw w (w.after past m) [.pass (.var y) (.var x)] := by
  obtain ⟨hb, hl⟩ := books_after h past he
  refine ⟨hb, after_ledger hl ?_ ?_ ?_, trivial, trivial⟩
  · intro a _
    rw [hm, objects_block, objects_block]
    simp only [Function.update_apply, Holder.var.injEq]
    rfl
  · intro a ha
    rw [Function.update_of_ne, Function.update_of_ne]
    · exact holds_none ha
    · simpa using isSome_ne hx ha
    · simpa using isSome_ne hy ha
  · intro p
    simp only [Function.update_apply, reduceCtorEq, if_false]
    rfl

theorem performs_swap (h : Books n bs raw w) (past : Nat → cache_handle) {x y : Nat}
    (release_first : Bool) (hx : (w.vars x).isSome) (hy : (w.vars y).isSome) :
    Performs n bs raw w (w.after past (cache_ptr.swap x y release_first w.objects))
      [.swap (.var x) (.var y)] := by
  obtain ⟨he, hm⟩ := cache_ptr.swap_spec x y release_first w.objects
  obtain ⟨hb, hl⟩ := books_after h past he
  refine ⟨hb, after_ledger hl ?_ ?_ ?_, trivial, trivial⟩
  · intro a _
    rw [(hm a).1, objects_block, objects_block, objects_block]
    simp only [Function.comp, Equiv.swap_apply_def, Holder.var.injEq]
    split
    · rfl
    · split
      · rfl
      · rfl
  · intro a ha
    have h1 : Holder.var a ≠ .var x := by simpa using isSome_ne hx ha
    have h2 : Holder.var a ≠ .var y := by simpa using isSome_ne hy ha
    simp only [Function.comp, Equiv.swap_apply_of_ne_of_ne h1 h2]
    exact holds_none ha
  · intro p
    simp only [Function.comp, Equiv.swap_apply_of_ne_of_ne (show Holder.hand p ≠ .var x by simp)
      (show Holder.hand p ≠ .var y by simp)]
    rfl

theorem performs_release (h : Books n bs raw w) (past : Nat → cache_handle) {x : Nat}
    (hx : (w.vars x).isSome) :
    Performs n bs raw w ((w.after past (cache_ptr.release x w.objects).2).hand
      (cache_ptr.release x w.objects).1)
      ((w.holds (.var x)).map fun p => Move.pass (.var x) (.hand p)).toList := by
  obtain ⟨hp, he, hm⟩ := cache_ptr.release_spec x w.objects
  rw [objects_block] at hp
  obtain ⟨hb, hl⟩ := books_after h past he
  have hled : (w.after past (cache_ptr.release x w.objects).2).ledger =
      ⟨Function.update w.holds (.var x) none, w.ledger.live⟩ := by
    refine after_ledger hl ?_ ?_ ?_
    · intro a _
      rw [(hm a).1, objects_block]
      simp only [Function.update_apply, Holder.var.injEq]
    · intro a ha
      rw [Function.update_of_ne (by simpa using isSome_ne hx ha)]
      exact holds_none ha
    · intro p
      rw [Function.update_of_ne (by simp)]
  rw [hp]
  rcases hblock : w.holds (.var x) with _ | p
  · have hsame : Function.update w.holds (.var x) none = w.holds := by
      rw [← hblock, Function.update_eq_self]
    exact ⟨hb, hled.trans (by rw [hsame]; rfl), trivial⟩
  · refine ⟨⟨hb.sound, hb.fits, hb.counts, hb.strays⟩, ?_, trivial, trivial⟩
    rw [hand_ledger, hled, Function.update_comm (by simp)]
    have hpass : w.ledger.moves [Move.pass (.var x) (.hand p)] =
        ⟨Function.update (Function.update w.holds (.hand p) (w.holds (.var x))) (.var x) none,
          w.ledger.live⟩ := rfl
    rw [hblock] at hpass
    exact hpass.symm

theorem performs_free (h : Books n bs raw w) (hv : ownership.Valid w.ledger) (hbs : 1 ≤ bs)
    (past : Nat → cache_handle) {x : Nat} (hx : (w.vars x).isSome) :
    Performs n bs raw w (w.after past (cache_ptr.free x w.objects))
      (if w.returns x then [.dispose (.var x)] else []) := by
  obtain ⟨hb, hl⟩ := books_giveUp h hv hbs past hx (m := cache_ptr.free x w.objects)
    (fun hi => by rw [cache_ptr.free_idle hi]; rfl)
    (fun b c h1 h2 => ⟨_, cache_ptr.free_effects h1 h2⟩)
  have hret := returns_iff hx
  unfold World.giveUp at hl
  by_cases hc : w.returns x
  · rw [if_pos hc] at hl ⊢
    refine ⟨hb, after_ledger hl ?_ ?_ ?_, trivial, trivial⟩
    · intro a _
      rw [(cache_ptr.free_spec x w.objects a).1, objects_block]
      simp only [hret.mp hc, and_true, Function.update_apply, Holder.var.injEq]
      rfl
    · intro a ha
      rw [Function.update_of_ne (by simpa using isSome_ne hx ha)]
      exact holds_none ha
    · intro p
      rw [Function.update_of_ne (by simp)]
      rfl
  · rw [if_neg hc] at hl ⊢
    have hidle : cache_ptr.free x w.objects = w.objects :=
      cache_ptr.free_idle (Or.inr (by simpa [hret] using hc))
    rw [hidle] at hb hl ⊢
    exact ⟨hb, after_ledger hl (fun a _ => objects_block w a) (fun a => holds_none) (fun p => rfl),
      trivial⟩

theorem performs_destroy (h : Books n bs raw w) (hv : ownership.Valid w.ledger) (hbs : 1 ≤ bs)
    (past : Nat → cache_handle) {x : Nat} (hx : (w.vars x).isSome) :
    Performs n bs raw w ((w.after past (cache_ptr.destroy x w.objects)).drop x) [w.giveUp x] := by
  obtain ⟨hb, hl⟩ := books_giveUp h hv hbs past hx (m := cache_ptr.destroy x w.objects)
    (fun hi => by rw [cache_ptr.destroy_idle hi]; rfl)
    (fun b c h1 h2 => ⟨_, cache_ptr.destroy_effects h1 h2⟩)
  refine ⟨⟨hb.sound, hb.fits, hb.counts, hb.strays⟩, ?_, fresh_giveUp w x, trivial⟩
  have hled := after_ledger (f := w.holds) hl
    (fun a _ => by rw [cache_ptr.destroy_obj, objects_block])
    (fun a => holds_none) (fun p => rfl)
  refine (set_ledger x none).trans ?_
  rw [hled]
  exact congrArg₂ _ (giveUp_holds x).symm rfl

theorem performs_reset (h : Books n bs raw w) (hv : ownership.Valid w.ledger) (hbs : 1 ≤ bs)
    (past : Nat → cache_handle) {x : Nat} (hx : (w.vars x).isSome) (ptr : PcmPtr)
    (hptr : ∀ p, ptr = some p → p ∈ w.hands) (num_blocks : Nat) :
    Performs n bs raw w ((w.after past (cache_ptr.reset x ptr num_blocks w.objects)).unhand ptr)
      (w.giveUp x :: (ptr.map fun p => Move.pass (.hand p) (.var x)).toList) := by
  obtain ⟨he, hm⟩ := cache_ptr.reset_spec x ptr num_blocks w.objects
  obtain ⟨hb, hl⟩ := books_giveUp h hv hbs past hx
    (m := cache_ptr.reset x ptr num_blocks w.objects)
    (fun hi => by rw [he, cache_ptr.free_idle hi]; rfl)
    (fun b c h1 h2 => ⟨_, he.trans (cache_ptr.free_effects h1 h2)⟩)
  have hled := after_ledger (f := Function.update w.holds (.var x) ptr) hl
    (fun a _ => by
      rw [(hm a).1, objects_block]
      simp only [Function.update_apply, Holder.var.injEq])
    (fun a ha => by
      rw [Function.update_of_ne (by simpa using isSome_ne hx ha)]
      exact holds_none ha)
    (fun p => by rw [Function.update_of_ne (by simp)])
  cases ptr with
  | none =>
    refine ⟨hb, hled.trans ?_, fresh_giveUp w x, trivial⟩
    rw [← giveUp_holds]
    rfl
  | some p =>
    refine ⟨⟨hb.sound, hb.fits, hb.counts, hb.strays⟩, ?_, fresh_giveUp w x, trivial, trivial⟩
    have hhand : w.holds (.hand p) = some p := by simp [World.holds, hptr p rfl]
    rw [unhand_ledger, hled]
    have hpass : w.ledger.moves [w.giveUp x, Move.pass (.hand p) (.var x)] =
        ⟨Function.update (Function.update (w.ledger.move (w.giveUp x)).holds (.var x)
          ((w.ledger.move (w.giveUp x)).holds (.hand p))) (.hand p) none,
          (w.ledger.move (w.giveUp x)).live⟩ := rfl
    refine Eq.trans ?_ hpass.symm
    rw [giveUp_holds, Function.update_idem, Function.update_of_ne (by simp), hhand]

theorem performs_construct (h : Books n bs raw w) {x : Nat} (hx : w.vars x = none) :
    Performs n bs raw w (w.declare x) [] :=
  ⟨⟨h.sound, h.fits, h.counts, h.strays⟩, declare_ledger hx, trivial⟩

theorem performs_move_construct (h : Books n bs raw w) (past : Nat → cache_handle) {x y : Nat}
    (hx : w.vars x = none) (hy : (w.vars y).isSome) :
    Performs n bs raw w
      ((w.declare x).after past (cache_ptr.move_construct x y (w.declare x).objects))
      [.pass (.var y) (.var x)] := by
  have hxy : x ≠ y := (isSome_ne hy hx)
  have hx' : ((w.declare x).vars x).isSome := by simp [World.declare]
  have hy' : ((w.declare x).vars y).isSome := by simpa [World.declare, hxy.symm] using hy
  obtain ⟨he, hm⟩ := cache_ptr.move_construct_spec hxy (w.declare x).objects
  have hpass := performs_pass (performs_construct h hx).books past hx' hy' he fun a => (hm a).1
  exact ⟨hpass.books, hpass.ledger.trans (by rw [declare_ledger hx]), trivial, trivial⟩

theorem performs_alloc_raw (h : Books n bs raw w) (hsize : Fits n bs ∨ mul32 bs n = 0)
    (hbs : 1 ≤ bs) (past : Nat → cache_handle) (num : Nat) :
    Performs n bs raw w (w.perform past (.alloc_raw num)) (w.moves (.alloc_raw num)) := by
  simp only [World.perform, World.moves]
  rcases he : w.heap.cache.alloc_raw num 0 with ⟨e | _ | p, id, c⟩
  · obtain ⟨hb, hl⟩ := grant_none h he (by simp)
    exact ⟨hb, hl, trivial⟩
  · obtain ⟨hb, hl⟩ := grant_none h he (by simp)
    exact ⟨hb, hl, trivial⟩
  · obtain ⟨hb, hnew, hl⟩ := grant_some h hsize hbs he
    refine ⟨⟨hb.sound, hb.fits, hb.counts, hb.strays⟩, ?_, hnew, trivial⟩
    exact (hand_ledger p).trans (congrArg₂ _ rfl hl)

theorem performs_cache_alloc (h : Books n bs raw w) (hsize : Fits n bs ∨ mul32 bs n = 0)
    (hbs : 1 ≤ bs) (past : Nat → cache_handle) {x : Nat} (hx : w.vars x = none)
    (u : cptr_utility Unit) (num : Nat) :
    Performs n bs raw w (w.perform past (.cache_alloc x u num))
      (w.moves (.cache_alloc x u num)) := by
  simp only [World.perform, World.moves, cptr_utility.cache_alloc]
  rcases u.m_cache with _ | k
  · refine ⟨⟨h.sound, h.fits, h.counts, h.strays⟩, ?_, trivial⟩
    exact (set_ledger (w := w.grant num none w.heap.cache) x _).trans
      (congrArg₂ _ (update_gone hx) rfl)
  rcases he : w.heap.cache.alloc_raw num 0 with ⟨e | _ | p, id, c⟩
  · obtain ⟨hb, hl⟩ := grant_none h he (by simp)
    exact ⟨hb, hl, trivial⟩
  · obtain ⟨hb, hl⟩ := grant_none h he (by simp)
    refine ⟨⟨hb.sound, hb.fits, hb.counts, hb.strays⟩, ?_, trivial⟩
    refine (set_ledger (w := w.grant num none c) x _).trans ?_
    rw [hl]
    exact congrArg₂ _ (update_gone hx) rfl
  · obtain ⟨hb, hnew, hl⟩ := grant_some h hsize hbs he
    refine ⟨⟨hb.sound, hb.fits, hb.counts, hb.strays⟩, ?_, hnew, trivial⟩
    exact (set_ledger (w := w.grant num (some p) c) x _).trans (congrArg₂ _ rfl hl)

/-- Each operation is the moves that `World.moves` says, and keeps the books. -/
theorem performs (h : Books n bs raw w) (hv : ownership.Valid w.ledger)
    (hsize : Fits n bs ∨ mul32 bs n = 0) (hbs : 1 ≤ bs) (past : Nat → cache_handle) {op : Op}
    (hp : w.Permits op) : Performs n bs raw w (w.perform past op) (w.moves op) := by
  cases op with
  | construct x => exact performs_construct h hp
  | cache_alloc x u num => exact performs_cache_alloc h hsize hbs past hp u num
  | move_construct x y => exact performs_move_construct h past hp.1 hp.2
  | assign x y =>
    obtain ⟨he, hm⟩ := cache_ptr.assign_spec x y w.objects
    exact performs_pass h past hp.1 hp.2 he fun a => (hm a).1
  | swap x y release_first => exact performs_swap h past release_first hp.1 hp.2
  | reset x ptr num_blocks => exact performs_reset h hv hbs past hp.1 ptr hp.2 num_blocks
  | release x => exact performs_release h past hp
  | free x => exact performs_free h hv hbs past hp
  | destroy x => exact performs_destroy h hv hbs past hp
  | alloc_raw num => exact performs_alloc_raw h hsize hbs past num

/-! ## The invariant of the program -/

structure Owned (n bs raw : Nat) (w : World) : Prop where
  books : Books n bs raw w
  valid : ownership.Valid w.ledger

theorem owned_perform (h : Owned n bs raw w) (hsize : Fits n bs ∨ mul32 bs n = 0) (hbs : 1 ≤ bs)
    (past : Nat → cache_handle) {op : Op} (hp : w.Permits op) :
    Owned n bs raw (w.perform past op) := by
  have hperf := performs h.books h.valid hsize hbs past hp
  refine ⟨hperf.books, ?_⟩
  rw [hperf.ledger]
  exact ownership.valid_moves h.valid hperf.fresh

theorem start_holds (n bs raw bound : Nat) (o : Holder) :
    (World.start n bs raw bound).holds o = none := by
  cases o <;> simp [World.holds, World.start]

theorem owned_start (n bs raw bound : Nat) (hn : 1 ≤ n) (hn' : n < u32) :
    Owned n bs raw (World.start n bs raw bound) := by
  refine ⟨⟨sound_built n bs raw bound hn hn', ?_, ?_, rfl⟩, ?_, ?_⟩
  · exact fun h => absurd rfl h
  · exact fun r => rfl
  · intro i j r hi
    exact absurd ((start_holds n bs raw bound i).symm.trans hi) (by simp)
  · intro i r hi
    exact absurd ((start_holds n bs raw bound i).symm.trans hi) (by simp)

end strangeio.memory
