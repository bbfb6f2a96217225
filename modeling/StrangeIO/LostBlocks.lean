-- The log of units that are built with CACHE_TRACKING, against the blocks that they have in
-- use: `unit::cache_alloc` and the methods of the cache_ptrs emit the lines, with the id that a
-- pointer has, and the script reads them (component/unit.cpp, memory/cache_ptr.cpp,
-- scripts/cache_tracking.py).
import StrangeIO.CacheOwnership
import StrangeIO.CacheTracking

namespace strangeio.memory

open cache_tracking (entry Reports Follows Complete)
open strangeio.component (rhandle)

/-! ## The units -/

/-- The program, and for each block the id of the `cache_alloc` that last gave it, by the
pointer of the block. -/
structure Tracked where
  world : World
  given : Nat → Int

def World.set_owner (past : Nat → cache_handle) (w : World) (x : Nat) (handle : rhandle) : World :=
  w.after past (cache_ptr.set_owner x handle w.objects)

/-- `unit::cache_alloc`, with the cache and the name of the unit `u`. -/
def Tracked.cache_alloc (past : Nat → cache_handle) (s : Tracked) (x : Nat)
    (u : cptr_utility Unit) (handle : rhandle) (num : Nat) : Tracked :=
  let w := s.world.perform past (.cache_alloc x u num)
  match (u.cache_alloc num s.world.heap.cache).1 with
  | .error _ => { s with world := w }
  | .ok p =>
    let w := { w with log := w.log ++ ["* cache_ptr [" ++ toString p.m_tracking_id ++ "]"] }
    { world := w.set_owner past x handle
      given := match p.m_block with
        | some block => Function.update s.given block p.m_tracking_id
        | none => s.given }

/-- What a unit does with its pointers. -/
inductive UnitOp where
  | cache_alloc (x : Nat) (u : cptr_utility Unit) (handle : rhandle) (num : Nat)
  | set_owner (x : Nat) (handle : rhandle)
  | op (op : Op)

def Tracked.perform (past : Nat → cache_handle) (s : Tracked) : UnitOp → Tracked
  | .cache_alloc x u handle num => s.cache_alloc past x u handle num
  | .set_owner x handle => { s with world := s.world.set_owner past x handle }
  | .op op => { s with world := s.world.perform past op }

def Op.allocates : Op → Bool
  | .cache_alloc _ _ _ | .alloc_raw _ => true
  | _ => false

/-- All blocks are obtained through `unit::cache_alloc`. -/
def Tracked.Permits (s : Tracked) : UnitOp → Prop
  | .cache_alloc x _ _ _ => s.world.vars x = none
  | .set_owner x _ => (s.world.vars x).isSome
  | .op op => op.allocates = false ∧ s.world.Permits op

/-- The operation, and what memory past the handle table holds at the time. -/
abbrev TrackedAct := (Nat → cache_handle) × UnitOp

def tracked (n bs raw bound : Nat) : transition.System Tracked TrackedAct where
  start s := s.world = World.start n bs raw bound
  step s act s' := s.Permits act.2 ∧ s' = s.perform act.1 act.2

/-! ## The report and the cache -/

/-- The ids of the blocks in use. -/
def Tracked.ids (s : Tracked) : Set Int := s.given '' s.world.ledger.live

/-- The report of the lost pointers lists the ids of the blocks that are in use. -/
def Tracked.Agrees (s : Tracked) : Prop := Reports s.world.log s.ids

/-- The variable whose block an operation returns to the cache. -/
def Op.returns : Op → Option Nat
  | .free x | .destroy x | .reset x _ _ => some x
  | _ => none

/-- A unit allocates from a cache that it has and that is built, and returns a block
through a pointer that has the id of the block. -/
def Tracked.KeepsIds (s : Tracked) : UnitOp → Prop
  | .cache_alloc _ u _ _ => u.m_cache.isSome ∧ s.world.heap.cache.m_cache_size ≠ 0
  | .set_owner _ _ => True
  | .op op => ∀ x v p, op.returns = some x → s.world.vars x = some v → v.m_cache.isSome →
    v.m_block = some p → v.m_tracking_id = s.given p

/-- The script reads the file that the log is written to. With names of one line it finds
the lines there as they were emitted. -/
theorem agrees_file {s : Tracked}
    (h : ∀ line ∈ s.world.log, cache_tracking.OneLine line) :
    Reports (cache_tracking.load_log (cache_tracking.written s.world.log)) s.ids ↔ s.Agrees := by
  rw [cache_tracking.load_log_written h]
  rfl

/-! ## The lines -/

/-- What an effect adds to the log. -/
def Effect.line? : Effect Unit → Option String
  | .free_raw _ _ => none
  | .log line => some line

/-- The owner as a line names it. -/
def cache_ptr.owner (p : cache_ptr Unit) : String := p.m_owner.model ++ "::" ++ p.m_owner.label

theorem line_eq {p : cache_ptr Unit} (h : 0 ≤ p.m_tracking_id) (c : Char) :
    cache_ptr.line (String.singleton c) p = String.singleton c ++ " cache_ptr [" ++
      toString p.m_tracking_id.toNat ++ "]" ++ (" " ++ p.owner) := by
  obtain ⟨k, hk⟩ := Int.eq_ofNat_of_zero_le h
  have hdigits : toString p.m_tracking_id = toString p.m_tracking_id.toNat := by
    rw [hk]
    rfl
  unfold cache_ptr.line cache_ptr.owner
  rw [hdigits]
  apply String.toList_injective
  simp

theorem line_owned {p : cache_ptr Unit} (h : 0 ≤ p.m_tracking_id) :
    cache_ptr.line ">" p = (entry.owned p.m_tracking_id.toNat p.owner).text := line_eq h '>'

theorem line_destroyed {p : cache_ptr Unit} (h : 0 ≤ p.m_tracking_id) :
    cache_ptr.line "~" p = (entry.destroyed p.m_tracking_id.toNat p.owner).text := line_eq h '~'

theorem line_freed {p : cache_ptr Unit} (h : 0 ≤ p.m_tracking_id) :
    cache_ptr.line "#" p = (entry.freed p.m_tracking_id.toNat p.owner).text := line_eq h '#'

theorem line_allocated {id : Int} (h : 0 ≤ id) :
    "* cache_ptr [" ++ toString id ++ "]" = (entry.allocated id.toNat).text := by
  obtain ⟨k, rfl⟩ := Int.eq_ofNat_of_zero_le h
  have hdigits : toString (k : Int) = toString k := rfl
  rw [hdigits]
  apply String.toList_injective
  simp [entry.text, entry.mark, entry.id, entry.tail]

/-! ## What a method leaves of the log, the counter and the ids -/

theorem free_raw_track (past : Nat → cache_handle) (c : cache_manager) (ptr : PcmPtr) :
    (c.free_raw past ptr).m_track_id = c.m_track_id := by
  unfold cache_manager.free_raw
  split <;> rfl

theorem effects_log (past : Nat → cache_handle) (w : World) (es : List (Effect Unit)) :
    (es.foldl (World.effect past) w).log = w.log ++ es.filterMap Effect.line? ∧
      (es.foldl (World.effect past) w).heap.cache.m_track_id = w.heap.cache.m_track_id := by
  induction es generalizing w with
  | nil => exact ⟨(List.append_nil _).symm, rfl⟩
  | cons e es ih =>
    rw [List.foldl_cons, (ih _).1, (ih _).2]
    cases e with
    | log l => exact ⟨by simp [World.effect, Effect.line?], rfl⟩
    | free_raw c p =>
      simp only [World.effect, World.free_raw]
      split
      · exact ⟨rfl, free_raw_track past _ _⟩
      · exact ⟨rfl, free_raw_track past _ _⟩

theorem after_log (past : Nat → cache_handle) (w : World) (m : Objects Unit) :
    (w.after past m).log = w.log ++ m.effects.filterMap Effect.line? ∧
      (w.after past m).heap.cache.m_track_id = w.heap.cache.m_track_id :=
  effects_log past _ m.effects

/-- No pointer has a negative id. -/
def Objects.Ids (m : Objects κ) : Prop := ∀ a, 0 ≤ (m.obj a).m_tracking_id

section
variable {κ : Type} {m : Objects κ}

theorem Objects.Ids.set (h : m.Ids) (a : Nat) {p : cache_ptr κ} (hp : 0 ≤ p.m_tracking_id) :
    (m.set a p).Ids := by
  intro b
  by_cases hb : b = a
  · subst hb
    simpa only [Objects.set, Function.update_self] using hp
  · simpa only [Objects.set, Function.update_of_ne hb] using h b

theorem ids_reset_owner (h : m.Ids) (x : Nat) : (cache_ptr.reset_owner x m).Ids :=
  h.set x (h x)

theorem ids_set_owner (h : m.Ids) (x : Nat) (handle : rhandle) :
    (cache_ptr.set_owner x handle m).Ids := h.set x (h x)

theorem ids_move_construct (h : m.Ids) (x y : Nat) : (cache_ptr.move_construct x y m).Ids :=
  (h.set x (h y)).set y (Int.le_refl 0)

theorem ids_assign (h : m.Ids) (x y : Nat) : (cache_ptr.assign x y m).Ids := by
  have hset := ids_reset_owner (h.set x (h y)) y
  exact hset.set y (hset y)

theorem ids_release (h : m.Ids) (x : Nat) : (cache_ptr.release x m).2.Ids := h.set x (h x)

theorem ids_free (h : m.Ids) (x : Nat) : (cache_ptr.free x m).Ids := by
  unfold cache_ptr.free
  split
  · have hset : (m.set x { m.obj x with m_block := none }).Ids := h.set x (h x)
    exact ids_reset_owner hset x
  · exact h

theorem ids_reset (h : m.Ids) (x : Nat) (ptr : PcmPtr) (num_blocks : Nat) :
    (cache_ptr.reset x ptr num_blocks m).Ids := by
  unfold cache_ptr.reset
  simp only
  split
  · exact (ids_free h x).set x (ids_free h x x)
  · exact h.set x (h x)

theorem ids_swap (h : m.Ids) (x y : Nat) (release_first : Bool) :
    (cache_ptr.swap x y release_first m).Ids :=
  ids_reset (ids_reset (ids_release (ids_release h y) x) y _ _) x _ _

theorem ids_destroy (h : m.Ids) (x : Nat) : (cache_ptr.destroy x m).Ids := by
  intro a
  rw [cache_ptr.destroy_obj]
  exact h a

end

/-! ## What an operation returns -/

/-- The operation neither gives nor returns a block. -/
structure Quiet (w w' : World) : Prop where
  log : w'.log = w.log
  track : w'.heap.cache.m_track_id = w.heap.cache.m_track_id
  live : w'.ledger.live = w.ledger.live

/-- The operation returns the block at `p`, and the log says so under the id. -/
structure Returned (w w' : World) (id : Int) (p : Nat) : Prop where
  log : ∃ e : entry, (e.mark = '~' ∨ e.mark = '#') ∧ (e.id : Int) = id ∧
    w'.log = w.log ++ [e.text]
  track : w'.heap.cache.m_track_id = w.heap.cache.m_track_id
  live : w'.ledger.live = w.ledger.live \ {p}
  held : p ∈ w.ledger.live

/-- What the operation does through the variable that it returns the block of. -/
def World.Settles (w w' : World) (v : cache_ptr Unit) : Prop :=
  (∀ p, v.m_cache.isSome → v.m_block ≠ some p) ∧ Quiet w w' ∨
    ∃ p, v.m_cache.isSome ∧ v.m_block = some p ∧ Returned w w' v.m_tracking_id p

/-- The variables and the raw pointers do not matter to it. -/
theorem World.Settles.same {w w1 w2 : World} {v : cache_ptr Unit} (h : w.Settles w1 v)
    (hlog : w2.log = w1.log) (hheap : w2.heap = w1.heap) : w.Settles w2 v := by
  have hlive : w2.ledger.live = w1.ledger.live := by
    unfold World.ledger
    rw [hheap]
  rcases h with ⟨hnone, hq⟩ | ⟨p, hc, hb, hr⟩
  · exact .inl ⟨hnone, hlog.trans hq.log, by rw [hheap, hq.track], hlive.trans hq.live⟩
  · refine .inr ⟨p, hc, hb, ?_, by rw [hheap, hr.track], hlive.trans hr.live, hr.held⟩
    rw [hlog]
    exact hr.log

variable {n bs raw : Nat} {w : World}

theorem quiet_after (past : Nat → cache_handle) (w : World) {m : Objects Unit}
    (he : m.effects = []) : Quiet w (w.after past m) := by
  unfold World.after
  rw [he]
  exact ⟨rfl, rfl, rfl⟩

/-- A method that frees what the variable holds, if that has a block and a cache. -/
theorem settles_after (h : Owned n bs raw w) (hbs : 1 ≤ bs) (past : Nat → cache_handle)
    {m : Objects Unit} {x : Nat} {v : cache_ptr Unit} (hx : w.vars x = some v) {e : entry}
    (he : (e.mark = '~' ∨ e.mark = '#') ∧ (e.id : Int) = v.m_tracking_id)
    (hidle : v.m_block = none ∨ v.m_cache = none → m.effects = [])
    (hfree : ∀ b c, v.m_block = some b → v.m_cache = some c →
      m.effects = [.free_raw c b, .log e.text]) : w.Settles (w.after past m) v := by
  rcases hb : v.m_block with _ | b
  · exact .inl ⟨fun p _ => by simp [hb], quiet_after past w (hidle (.inl hb))⟩
  rcases hc : v.m_cache with _ | c
  · exact .inl ⟨fun p hsome => by simp [hc] at hsome, quiet_after past w (hidle (.inr hc))⟩
  have hholds : w.holds (.var x) = some b := by simp [World.holds, hx, hb]
  have heffects := hfree b c hb hc
  obtain ⟨-, hlive⟩ := books_after_free h.books h.valid hbs past hholds heffects
  obtain ⟨hlog, htrack⟩ := after_log past w m
  refine .inr ⟨b, by simp [hc], hb, ⟨e, he.1, he.2, ?_⟩, htrack, ?_, h.valid.live (.var x) b hholds⟩
  · rw [hlog, heffects]
    rfl
  · rw [hlive]
    ext q
    rw [hholds]
    simp [eq_comm]

theorem objects_obj {x : Nat} {v : cache_ptr Unit} (hx : w.vars x = some v) :
    w.objects.obj x = v := by
  simp [World.objects, hx]

theorem settles_free (h : Owned n bs raw w) (hbs : 1 ≤ bs) (past : Nat → cache_handle) {x : Nat}
    {v : cache_ptr Unit} (hx : w.vars x = some v) (hid : 0 ≤ v.m_tracking_id) {m : Objects Unit}
    (he : m.effects = (cache_ptr.free x w.objects).effects) : w.Settles (w.after past m) v := by
  have hobj := objects_obj hx
  refine settles_after h hbs past hx
    (e := .freed v.m_tracking_id.toNat v.owner) ⟨.inr rfl, Int.toNat_of_nonneg hid⟩ ?_ ?_
  · intro hnone
    rw [he, cache_ptr.free_idle (by rwa [hobj])]
    rfl
  · intro b c hb hc
    rw [he, cache_ptr.free_effects (by rw [hobj, hb]) (by rw [hobj, hc]), hobj, line_freed hid]
    rfl

theorem settles_destroy (h : Owned n bs raw w) (hbs : 1 ≤ bs) (past : Nat → cache_handle) {x : Nat}
    {v : cache_ptr Unit} (hx : w.vars x = some v) (hid : 0 ≤ v.m_tracking_id) :
    w.Settles (w.after past (cache_ptr.destroy x w.objects)) v := by
  have hobj := objects_obj hx
  refine settles_after h hbs past hx
    (e := .destroyed v.m_tracking_id.toNat v.owner) ⟨.inl rfl, Int.toNat_of_nonneg hid⟩ ?_ ?_
  · intro hnone
    rw [cache_ptr.destroy_idle (by rwa [hobj])]
    rfl
  · intro b c hb hc
    rw [cache_ptr.destroy_effects (by rw [hobj, hb]) (by rw [hobj, hc]), hobj, line_destroyed hid]
    rfl

theorem settles_op (h : Owned n bs raw w) (hbs : 1 ≤ bs) (past : Nat → cache_handle) {op : Op}
    {x : Nat} {v : cache_ptr Unit} (hop : op.returns = some x) (hx : w.vars x = some v)
    (hid : 0 ≤ v.m_tracking_id) : w.Settles (w.perform past op) v := by
  cases op with
  | free y =>
    cases hop
    exact settles_free h hbs past hx hid rfl
  | destroy y =>
    cases hop
    exact (settles_destroy h hbs past hx hid).same rfl rfl
  | reset y ptr num_blocks =>
    cases hop
    have hset := settles_free h hbs past hx hid
      (cache_ptr.reset_spec x ptr num_blocks w.objects).1
    cases ptr with
    | none => exact hset
    | some p => exact hset.same rfl rfl
  | _ => cases hop

theorem quiet_op (past : Nat → cache_handle) {op : Op} (hop : op.returns = none)
    (hnew : op.allocates = false) (hp : w.Permits op) : Quiet w (w.perform past op) := by
  cases op with
  | construct x => exact ⟨rfl, rfl, rfl⟩
  | move_construct x y =>
    have hxy : x ≠ y := isSome_ne hp.2 hp.1
    obtain ⟨h1, h2, h3⟩ := quiet_after past (w.declare x)
      (cache_ptr.move_construct_spec hxy (w.declare x).objects).1
    exact ⟨h1, h2, h3⟩
  | assign x y => exact quiet_after past w (cache_ptr.assign_spec x y w.objects).1
  | swap x y release_first =>
    exact quiet_after past w (cache_ptr.swap_spec x y release_first w.objects).1
  | release x =>
    obtain ⟨h1, h2, h3⟩ := quiet_after past w (cache_ptr.release_spec x w.objects).2.1
    simp only [World.perform]
    rcases (cache_ptr.release x w.objects).1 with _ | p
    · exact ⟨h1, h2, h3⟩
    · exact ⟨h1, h2, h3⟩
  | cache_alloc x u num => cases hnew
  | alloc_raw num => cases hnew
  | free x => cases hop
  | destroy x => cases hop
  | reset x ptr num_blocks => cases hop

/-! ## The ids of the variables -/

/-- No variable has a negative id. -/
def World.Ids (w : World) : Prop := ∀ x v, w.vars x = some v → 0 ≤ v.m_tracking_id

theorem World.Ids.objects (h : w.Ids) : w.objects.Ids := by
  intro a
  rcases ha : w.vars a with _ | v
  · simp [World.objects, ha]
  · rw [objects_obj ha]
    exact h a v ha

theorem ids_after (past : Nat → cache_handle) (w : World) {m : Objects Unit} (h : m.Ids) :
    (w.after past m).Ids := by
  intro x v hx
  rw [after_vars] at hx
  obtain ⟨_, -, rfl⟩ := Option.map_eq_some_iff.mp hx
  exact h x

theorem ids_update {x : Nat} {v : Option (cache_ptr Unit)} (h : w.Ids)
    (hv : ∀ p, v = some p → 0 ≤ p.m_tracking_id) :
    ({ w with vars := Function.update w.vars x v } : World).Ids := by
  intro a p ha
  by_cases hax : a = x
  · subst hax
    exact hv p (by simpa using ha)
  · exact h a p (by simpa [hax] using ha)

theorem ids_op (h : w.Ids) (past : Nat → cache_handle) {op : Op} (hnew : op.allocates = false) :
    (w.perform past op).Ids := by
  cases op with
  | construct x => exact ids_update h fun p hp => by cases hp; exact Int.le_refl 0
  | move_construct x y =>
    have hdeclared : (w.declare x).Ids := ids_update h fun p hp => by cases hp; exact Int.le_refl 0
    exact ids_after past _ (ids_move_construct hdeclared.objects x y)
  | assign x y => exact ids_after past _ (ids_assign h.objects x y)
  | swap x y release_first => exact ids_after past _ (ids_swap h.objects x y release_first)
  | release x =>
    have hset := ids_after past w (ids_release h.objects x)
    simp only [World.perform]
    rcases (cache_ptr.release x w.objects).1 with _ | p
    · exact hset
    · exact hset
  | free x => exact ids_after past _ (ids_free h.objects x)
  | destroy x =>
    exact ids_update (ids_after past _ (ids_destroy h.objects x)) fun p hp => by cases hp
  | reset x ptr num_blocks =>
    have hset := ids_after past w (ids_reset h.objects x ptr num_blocks)
    cases ptr with
    | none => exact hset
    | some p => exact hset
  | cache_alloc x u num => cases hnew
  | alloc_raw num => cases hnew

/-! ## What an allocation gives -/

/-- The unit has a cache, and it is built. -/
def World.Cached (w : World) (u : cptr_utility Unit) : Prop :=
  u.m_cache.isSome ∧ w.heap.cache.m_cache_size ≠ 0

/-- An allocation throws, gives a pointer to nothing under the id 0, or gives a new block
under a new id. -/
inductive Granted (w w' : World) (x : Nat) (u : cptr_utility Unit) :
    Except cache_drain (cache_ptr Unit) → Prop
  | throws {e : cache_drain} (cached : w.Cached u) (vars : w'.vars = w.vars)
      (log : w'.log = w.log)
      (track : w'.heap.cache.m_track_id = w.heap.cache.m_track_id + 1)
      (live : w'.ledger.live = w.ledger.live) : Granted w w' x u (.error e)
  | null {p : cache_ptr Unit} (uncached : ¬ w.Cached u) (block : p.m_block = none)
      (id : p.m_tracking_id = 0) (vars : w'.vars = Function.update w.vars x (some p))
      (log : w'.log = w.log) (track : w'.heap.cache.m_track_id = w.heap.cache.m_track_id)
      (live : w'.ledger.live = w.ledger.live) : Granted w w' x u (.ok p)
  | block {p : cache_ptr Unit} {b : Nat} (cached : w.Cached u) (block : p.m_block = some b)
      (id : p.m_tracking_id = w.heap.cache.m_track_id + 1)
      (vars : w'.vars = Function.update w.vars x (some p)) (log : w'.log = w.log)
      (track : w'.heap.cache.m_track_id = w.heap.cache.m_track_id + 1)
      (fresh : b ∉ w.ledger.live) (live : w'.ledger.live = insert b w.ledger.live) :
      Granted w w' x u (.ok p)

theorem granted (h : Owned n bs raw w) (hsize : Fits n bs ∨ mul32 bs n = 0) (hbs : 1 ≤ bs)
    (past : Nat → cache_handle) (x : Nat) (u : cptr_utility Unit) (num : Nat) :
    Granted w (w.perform past (.cache_alloc x u num)) x u
      (u.cache_alloc num w.heap.cache).1 := by
  simp only [World.perform, cptr_utility.cache_alloc]
  rcases hu : u.m_cache with _ | k
  · exact .null (by simp [World.Cached, hu]) rfl rfl rfl rfl rfl rfl
  rcases alloc_raw_cases w.heap.cache num 0 with ⟨h0, he⟩ | ⟨h0, -, he⟩ | ⟨h0, -, y, -, he⟩
  · rw [he]
    exact .null (by simp [World.Cached, h0]) rfl rfl rfl rfl rfl rfl
  · rw [he]
    exact .throws ⟨by simp [hu], h0⟩ rfl rfl rfl rfl
  · obtain ⟨-, hfresh, hlive⟩ := grant_some h.books hsize hbs he
    rw [he]
    exact .block ⟨by simp [hu], h0⟩ rfl rfl rfl rfl rfl hfresh hlive

/-! ## The owner of a pointer -/

theorem set_owner_eq (past : Nat → cache_handle) (w : World) (x : Nat) (handle : rhandle) :
    w.set_owner past x handle =
      { w with
        vars := fun a => (w.vars a).map fun _ => (cache_ptr.set_owner x handle w.objects).obj a
        log := w.log ++ [cache_ptr.line ">" ((cache_ptr.set_owner x handle w.objects).obj x)] } :=
  rfl

theorem set_owner_obj (m : Objects Unit) (x : Nat) (handle : rhandle) (a : Nat) :
    (cache_ptr.set_owner x handle m).obj a =
      if a = x then { m.obj x with m_owner := handle } else m.obj a :=
  Function.update_apply _ _ _ _

theorem set_owner_ledger (past : Nat → cache_handle) (w : World) (x : Nat) (handle : rhandle) :
    (w.set_owner past x handle).ledger = w.ledger := by
  refine after_ledger (f := w.holds) rfl (fun a _ => ?_) (fun a => holds_none) fun p => rfl
  rw [set_owner_obj, ← objects_block]
  split
  · rename_i hax
    rw [hax]
  · rfl

theorem owned_set_owner (h : Owned n bs raw w) (past : Nat → cache_handle) (x : Nat)
    (handle : rhandle) : Owned n bs raw (w.set_owner past x handle) := by
  refine ⟨⟨h.books.sound, h.books.fits, h.books.counts, h.books.strays⟩, ?_⟩
  rw [set_owner_ledger]
  exact h.valid

theorem set_owner_log (past : Nat → cache_handle) {x : Nat} {v : cache_ptr Unit}
    (hx : w.vars x = some v) (hid : 0 ≤ v.m_tracking_id) (handle : rhandle) :
    ∃ owner, (w.set_owner past x handle).log =
      w.log ++ [(entry.owned v.m_tracking_id.toNat owner).text] := by
  have hobj : (cache_ptr.set_owner x handle w.objects).obj x = { v with m_owner := handle } := by
    rw [set_owner_obj, if_pos rfl, objects_obj hx]
  rw [set_owner_eq, hobj]
  exact ⟨_, congrArg (fun l => w.log ++ [l]) (line_owned (p := { v with m_owner := handle }) hid)⟩

/-! ## The invariant of the units -/

structure Logged (n bs raw : Nat) (s : Tracked) : Prop where
  owned : Owned n bs raw s.world
  complete : Complete s.world.log
  ids : s.world.Ids
  counter : 0 ≤ s.world.heap.cache.m_track_id
  given : ∀ p ∈ s.world.ledger.live,
    0 < s.given p ∧ s.given p ≤ s.world.heap.cache.m_track_id
  once : Set.InjOn s.given s.world.ledger.live

variable {s : Tracked}

theorem Logged.agrees_iff (h : Logged n bs raw s) :
    s.Agrees ↔ Follows s.world.log s.ids := cache_tracking.reports_iff h.complete _

/-- A step that changes no line and no block. -/
theorem Logged.quiet (h : Logged n bs raw s) {w' : World} (ho : Owned n bs raw w') (hi : w'.Ids)
    (hq : Quiet s.world w') :
    Logged n bs raw { s with world := w' } ∧
      (Tracked.Agrees { s with world := w' } ↔ s.Agrees) := by
  refine ⟨⟨ho, ?_, hi, ?_, ?_, ?_⟩, ?_⟩
  · exact hq.log ▸ h.complete
  · exact hq.track ▸ h.counter
  · rw [hq.live, hq.track]
    exact h.given
  · rw [hq.live]
    exact h.once
  · unfold Tracked.Agrees Tracked.ids
    rw [hq.log, hq.live]

/-- The ids that are left when a block is returned: all but that of the block. -/
theorem Logged.ids_returned (h : Logged n bs raw s) {p : Nat} (hp : p ∈ s.world.ledger.live) :
    s.given '' (s.world.ledger.live \ {p}) = s.ids \ {s.given p} := by
  ext id
  constructor
  · rintro ⟨q, ⟨hq, hqp⟩, rfl⟩
    exact ⟨⟨q, hq, rfl⟩, fun he => hqp (h.once hq hp he)⟩
  · rintro ⟨⟨q, hq, rfl⟩, hne⟩
    refine ⟨q, ⟨hq, fun hqp => hne ?_⟩, rfl⟩
    exact congrArg s.given hqp

/-- A step that returns a block: the report stays right just when the line names its id. -/
theorem Logged.returned (h : Logged n bs raw s) (ha : s.Agrees) {w' : World}
    (ho : Owned n bs raw w') (hi : w'.Ids) {id : Int} {p : Nat} (hr : Returned s.world w' id p) :
    Logged n bs raw { s with world := w' } ∧
      (Tracked.Agrees { s with world := w' } ↔ id = s.given p) := by
  obtain ⟨e, hmark, hid, hlog⟩ := hr.log
  have hlogged : Logged n bs raw { s with world := w' } := by
    refine ⟨ho, ?_, hi, ?_, ?_, ?_⟩
    · simp only [hlog]
      refine h.complete.snoc ?_
      rcases hmark with he | he
      · rw [he]
        decide
      · rw [he]
        decide
    · exact hr.track ▸ h.counter
    · rw [hr.live, hr.track]
      exact fun q hq => h.given q hq.1
    · rw [hr.live]
      exact h.once.mono Set.sdiff_subset
  refine ⟨hlogged, ?_⟩
  rw [hlogged.agrees_iff]
  unfold Tracked.ids
  simp only
  rw [hlog, hr.live, h.ids_returned hr.held, ← hid]
  exact cache_tracking.follows_remove (h.agrees_iff.mp ha) ⟨p, hr.held, rfl⟩ hmark

theorem logged_op (h : Logged n bs raw s) (ha : s.Agrees)
    (hsize : Fits n bs ∨ mul32 bs n = 0) (hbs : 1 ≤ bs) (past : Nat → cache_handle) {op : Op}
    (hnew : op.allocates = false) (hp : s.world.Permits op) :
    Logged n bs raw (s.perform past (.op op)) ∧
      ((s.perform past (.op op)).Agrees ↔ s.KeepsIds (.op op)) := by
  have ho := owned_perform h.owned hsize hbs past hp
  have hi := ids_op h.ids past hnew
  simp only [Tracked.perform, Tracked.KeepsIds]
  rcases hop : op.returns with _ | x
  · obtain ⟨hl, hsame⟩ := h.quiet ho hi (quiet_op past hop hnew hp)
    exact ⟨hl, hsame.trans (iff_of_true ha fun x v p hx => by cases hx)⟩
  have hsome : (s.world.vars x).isSome := by
    cases op with
    | free y => cases hop; exact hp
    | destroy y => cases hop; exact hp
    | reset y ptr num_blocks => cases hop; exact hp.1
    | _ => cases hop
  obtain ⟨v, hx⟩ := Option.isSome_iff_exists.mp hsome
  rcases settles_op h.owned hbs past hop hx (h.ids x v hx) with ⟨hnone, hq⟩ | ⟨p, hc, hb, hr⟩
  · obtain ⟨hl, hsame⟩ := h.quiet ho hi hq
    refine ⟨hl, hsame.trans (iff_of_true ha ?_)⟩
    intro y u p hy hu hc hb
    cases hy
    rw [hx] at hu
    cases hu
    exact absurd hb (hnone p hc)
  · obtain ⟨hl, hid⟩ := h.returned ha ho hi hr
    refine ⟨hl, hid.trans ⟨fun he => ?_, fun hk => hk x v p rfl hx hc hb⟩⟩
    intro y u q hy hu _ hq
    cases hy
    rw [hx] at hu
    cases hu
    rw [hb] at hq
    cases hq
    exact he

theorem logged_set_owner (h : Logged n bs raw s) (past : Nat → cache_handle) {x : Nat}
    (handle : rhandle) (hx : (s.world.vars x).isSome) :
    Logged n bs raw (s.perform past (.set_owner x handle)) ∧
      ((s.perform past (.set_owner x handle)).Agrees ↔ s.Agrees) := by
  obtain ⟨v, hv⟩ := Option.isSome_iff_exists.mp hx
  obtain ⟨owner, hlog⟩ := set_owner_log past hv (h.ids x v hv) handle
  have hledger := set_owner_ledger past s.world x handle
  have hlogged : Logged n bs raw (s.perform past (.set_owner x handle)) := by
    refine ⟨owned_set_owner h.owned past x handle, ?_,
      ids_after past _ (ids_set_owner h.ids.objects x handle), h.counter, ?_, ?_⟩
    · simp only [Tracked.perform, hlog]
      exact h.complete.snoc (by simp [entry.mark])
    · simp only [Tracked.perform, hledger]
      exact h.given
    · simp only [Tracked.perform, hledger]
      exact h.once
  refine ⟨hlogged, ?_⟩
  rw [hlogged.agrees_iff, h.agrees_iff]
  unfold Tracked.ids
  simp only [Tracked.perform, hledger, hlog]
  exact cache_tracking.follows_owned _ _ _ _

/-- What the lines of an allocation are: that of the id, and that of the owner. -/
theorem allocation_log (past : Nat → cache_handle) {w1 : World} {x : Nat} {p : cache_ptr Unit}
    (hx : w1.vars x = some p) (hid : 0 ≤ p.m_tracking_id) (handle : rhandle) :
    ∃ owner, (World.set_owner past { w1 with
        log := w1.log ++ ["* cache_ptr [" ++ toString p.m_tracking_id ++ "]"] } x handle).log =
      w1.log ++ [(entry.allocated p.m_tracking_id.toNat).text] ++
        [(entry.owned p.m_tracking_id.toNat owner).text] := by
  obtain ⟨owner, hlog⟩ := set_owner_log past (w := { w1 with
    log := w1.log ++ ["* cache_ptr [" ++ toString p.m_tracking_id ++ "]"] }) hx hid handle
  exact ⟨owner, by rw [hlog, line_allocated hid]⟩

/-- The units after a `unit::cache_alloc` that returned `p`. -/
def Tracked.logAllocation (past : Nat → cache_handle) (w1 : World) (g : Nat → Int) (x : Nat)
    (p : cache_ptr Unit) (handle : rhandle) : Tracked where
  world := World.set_owner past { w1 with
    log := w1.log ++ ["* cache_ptr [" ++ toString p.m_tracking_id ++ "]"] } x handle
  given := g

theorem logged_allocation (h : Logged n bs raw s) (past : Nat → cache_handle) {w1 : World}
    {g : Nat → Int} {x : Nat} {p : cache_ptr Unit} (handle : rhandle) (ho : Owned n bs raw w1)
    (hvars : w1.vars = Function.update s.world.vars x (some p)) (hlog : w1.log = s.world.log)
    (hid : 0 ≤ p.m_tracking_id) (hcounter : 0 ≤ w1.heap.cache.m_track_id)
    (hgiven : ∀ q ∈ w1.ledger.live, 0 < g q ∧ g q ≤ w1.heap.cache.m_track_id)
    (honce : Set.InjOn g w1.ledger.live) :
    Logged n bs raw (Tracked.logAllocation past w1 g x p handle) ∧
      ((Tracked.logAllocation past w1 g x p handle).Agrees ↔
        Follows (s.world.log ++ [(entry.allocated p.m_tracking_id.toNat).text])
          (g '' w1.ledger.live)) := by
  have hx : w1.vars x = some p := by rw [hvars, Function.update_self]
  have hids : w1.Ids := by
    intro a v ha
    rw [hvars] at ha
    exact ids_update h.ids (fun q hq => by cases hq; exact hid) a v ha
  obtain ⟨owner, hlines⟩ := allocation_log past hx hid handle
  rw [hlog] at hlines
  unfold Tracked.logAllocation
  rw [hlog]
  have hledger := set_owner_ledger past { w1 with
    log := s.world.log ++ ["* cache_ptr [" ++ toString p.m_tracking_id ++ "]"] } x handle
  have hlogged : Logged n bs raw
      ⟨World.set_owner past { w1 with
        log := s.world.log ++ ["* cache_ptr [" ++ toString p.m_tracking_id ++ "]"] }
        x handle, g⟩ := by
    refine ⟨owned_set_owner ?_ past x handle, ?_, ?_, hcounter, ?_, ?_⟩
    · exact ⟨⟨ho.books.sound, ho.books.fits, ho.books.counts, ho.books.strays⟩, ho.valid⟩
    · simp only [hlines]
      exact h.complete.allocated _ _
    · exact ids_after past _
        (ids_set_owner (World.Ids.objects (w := { w1 with log := _ }) hids) x handle)
    · simp only [hledger]
      exact hgiven
    · simp only [hledger]
      exact honce
  refine ⟨hlogged, hlogged.agrees_iff.trans ?_⟩
  unfold Tracked.ids
  simp only [hledger, hlines]
  exact cache_tracking.follows_owned _ _ _ _

/-! ## A new id -/

section
variable {b : Nat} {id : Int}

theorem given_update_old (fresh : b ∉ s.world.ledger.live) :
    ∀ q ∈ s.world.ledger.live, Function.update s.given b id q = s.given q := by
  intro q hq
  refine Function.update_of_ne ?_ _ _
  rintro rfl
  exact fresh hq

theorem Logged.new_id (h : Logged n bs raw s) (hid : id = s.world.heap.cache.m_track_id + 1) :
    id ∉ s.ids := by
  rintro ⟨q, hq, he⟩
  have := (h.given q hq).2
  omega

theorem Logged.given_update (h : Logged n bs raw s) (fresh : b ∉ s.world.ledger.live)
    (hid : id = s.world.heap.cache.m_track_id + 1) :
    ∀ q ∈ insert b s.world.ledger.live, 0 < Function.update s.given b id q ∧
      Function.update s.given b id q ≤ s.world.heap.cache.m_track_id + 1 := by
  have hcounter := h.counter
  intro q hq
  rcases hq with rfl | hq
  · rw [Function.update_self]
    omega
  · rw [given_update_old fresh q hq]
    have := h.given q hq
    omega

theorem Logged.once_update (h : Logged n bs raw s) (fresh : b ∉ s.world.ledger.live)
    (hid : id = s.world.heap.cache.m_track_id + 1) :
    Set.InjOn (Function.update s.given b id) (insert b s.world.ledger.live) := by
  rw [Set.injOn_insert fresh]
  refine ⟨fun q hq r hr he => ?_, ?_⟩
  · rw [given_update_old fresh q hq, given_update_old fresh r hr] at he
    exact h.once hq hr he
  · rw [Function.update_self, Set.image_congr (given_update_old fresh)]
    exact h.new_id hid

theorem ids_update_new (fresh : b ∉ s.world.ledger.live) :
    Function.update s.given b id '' insert b s.world.ledger.live = insert id s.ids := by
  rw [Set.image_insert_eq, Function.update_self]
  exact congrArg _ (Set.image_congr (given_update_old fresh))

end

theorem logged_cache_alloc (h : Logged n bs raw s) (ha : s.Agrees)
    (hsize : Fits n bs ∨ mul32 bs n = 0) (hbs : 1 ≤ bs) (past : Nat → cache_handle) {x : Nat}
    (hx : s.world.vars x = none) (u : cptr_utility Unit) (handle : rhandle) (num : Nat) :
    Logged n bs raw (s.perform past (.cache_alloc x u handle num)) ∧
      ((s.perform past (.cache_alloc x u handle num)).Agrees ↔
        s.KeepsIds (.cache_alloc x u handle num)) := by
  have ho : Owned n bs raw (s.world.perform past (.cache_alloc x u num)) :=
    owned_perform h.owned hsize hbs past hx
  have hg := granted h.owned hsize hbs past x u num
  simp only [Tracked.perform, Tracked.cache_alloc, Tracked.KeepsIds]
  generalize (u.cache_alloc num s.world.heap.cache).1 = r at hg
  generalize s.world.perform past (.cache_alloc x u num) = w1 at ho hg
  have hcounter := h.counter
  cases hg with
  | throws cached vars log track live =>
    have hi : w1.Ids := fun a v hv => h.ids a v (by rwa [vars] at hv)
    simp only
    refine ⟨⟨ho, log ▸ h.complete, hi, ?_, ?_, ?_⟩, ?_⟩
    · simp only
      omega
    · rw [live, track]
      intro q hq
      change 0 < s.given q ∧ s.given q ≤ _
      have := h.given q hq
      omega
    · rw [live]
      exact h.once
    · unfold Tracked.Agrees Tracked.ids
      rw [log, live]
      exact iff_of_true ha cached
  | @null p uncached block id vars log track live =>
    simp only [block]
    obtain ⟨hl, hf⟩ := logged_allocation h past (g := s.given) handle ho vars log (by omega)
      (by omega) (by rw [live, track]; exact h.given) (by rw [live]; exact h.once)
    refine ⟨hl, hf.trans (iff_of_false ?_ uncached)⟩
    refine cache_tracking.not_follows_allocated ?_
    -- the line names the id 0, which no block has
    rintro ⟨q, hq, hzero⟩
    rw [live] at hq
    have := (h.given q hq).1
    rw [hzero, id] at this
    cases this
  | @block p b cached block id vars log track fresh live =>
    simp only [block]
    obtain ⟨hl, hf⟩ := logged_allocation h past handle ho vars log (by omega) (by omega)
      (by rw [live, track]; exact h.given_update fresh id)
      (by rw [live]; exact h.once_update fresh id)
    refine ⟨hl, hf.trans (iff_of_true ?_ cached)⟩
    have hid : ((p.m_tracking_id.toNat : Nat) : Int) = p.m_tracking_id :=
      Int.toNat_of_nonneg (by omega)
    have hfollows := cache_tracking.follows_allocated (h.agrees_iff.mp ha)
      (k := p.m_tracking_id.toNat) (by rw [hid]; exact h.new_id id)
    rw [hid] at hfollows
    rw [live, ids_update_new fresh]
    exact hfollows

theorem logged_step (hsize : Fits n bs ∨ mul32 bs n = 0) (hbs : 1 ≤ bs) {bound : Nat}
    {act : TrackedAct} {t : Tracked} (h : Logged n bs raw s) (ha : s.Agrees)
    (hstep : (tracked n bs raw bound).step s act t) :
    Logged n bs raw t ∧ (t.Agrees ↔ s.KeepsIds act.2) := by
  obtain ⟨hp, rfl⟩ := hstep
  obtain ⟨past, op⟩ := act
  cases op with
  | cache_alloc x u handle num => exact logged_cache_alloc h ha hsize hbs past hp u handle num
  | set_owner x handle =>
    obtain ⟨hl, hsame⟩ := logged_set_owner h past handle hp
    exact ⟨hl, hsame.trans (iff_of_true ha trivial)⟩
  | op op => exact logged_op h ha hsize hbs past hp.1 hp.2

theorem logged_start {bound : Nat} (hn : 1 ≤ n) (hn' : n < u32)
    (hs : s.world = World.start n bs raw bound) : Logged n bs raw s ∧ s.Agrees := by
  have hlive : s.world.ledger.live = ∅ := by
    rw [hs]
    ext p
    simp [World.ledger, World.start, built]
  have hl : Logged n bs raw s := by
    refine ⟨hs ▸ owned_start n bs raw bound hn hn', ?_, ?_, ?_, ?_, ?_⟩
    · rw [hs]
      exact cache_tracking.complete_nil
    · rw [hs]
      exact fun x v hx => by cases hx
    · rw [hs]
      exact (by decide : (0 : Int) ≤ 1)
    · rw [hlive]
      exact fun p hp => by cases hp
    · rw [hlive]
      exact Set.injOn_empty _
  refine ⟨hl, hl.agrees_iff.mpr ?_⟩
  unfold Tracked.ids
  rw [hlive, Set.image_empty, hs]
  exact cache_tracking.follows_nil

/-- Where the layout of the cache is right, the runs after each step of which the script
reports the ids of the blocks in use are those in which the units allocate from a
cache and return each block through a pointer with its id. -/
theorem the_report_agrees_with_the_cache (n bs raw bound : Nat) (hn : 1 ≤ n) (hn' : n < u32)
    (hbs : 1 ≤ bs) (hsize : Fits n bs ∨ mul32 bs n = 0) {s t : Tracked} {acts : List TrackedAct}
    (hs : (tracked n bs raw bound).start s) :
    transition.Run ((tracked n bs raw bound).within Tracked.Agrees) s acts t ↔
      transition.Run ((tracked n bs raw bound).guarded fun s act => s.KeepsIds act.2) s acts t := by
  obtain ⟨hl, ha⟩ := logged_start hn hn' hs
  exact transition.run_within_iff (I := Logged n bs raw)
    (fun _ _ _ hl ha hstep => logged_step hsize hbs hl ha hstep) hl ha

/-! ## Runs without an exchange -/

/-- The block, the cache and the id of each object that has a block come from one object. -/
def Objects.Together {κ : Type} (m m' : Objects κ) : Prop :=
  ∀ a, (m'.obj a).m_block = none ∨ ∃ b, (m'.obj a).m_block = (m.obj b).m_block ∧
    (m'.obj a).m_cache = (m.obj b).m_cache ∧ (m'.obj a).m_tracking_id = (m.obj b).m_tracking_id

section
variable {κ : Type} (m : Objects κ)

theorem together_move_construct {x y : Nat} (hxy : x ≠ y) :
    m.Together (cache_ptr.move_construct x y m) := by
  intro a
  by_cases hay : a = y
  · left
    simp [cache_ptr.move_construct, Objects.set, hay]
  · right
    by_cases hax : a = x
    · exact ⟨y, by simp [cache_ptr.move_construct, Objects.set, hax, hxy]⟩
    · exact ⟨a, by simp [cache_ptr.move_construct, Objects.set, hax, hay]⟩

theorem together_assign (x y : Nat) : m.Together (cache_ptr.assign x y m) := by
  intro a
  by_cases hay : a = y
  · left
    simp [cache_ptr.assign, Objects.set, hay]
  · right
    by_cases hax : a = x
    · have hxy : ¬ x = y := fun e => hay (hax.trans e)
      exact ⟨y, by simp [cache_ptr.assign, cache_ptr.reset_owner, Objects.set, hax, hxy]⟩
    · exact ⟨a, by simp [cache_ptr.assign, cache_ptr.reset_owner, Objects.set, hax, hay]⟩

theorem together_release (x : Nat) : m.Together (cache_ptr.release x m).2 := by
  intro a
  by_cases hax : a = x
  · left
    simp [cache_ptr.release, Objects.set, hax]
  · right
    exact ⟨a, by simp [cache_ptr.release, Objects.set, hax]⟩

theorem free_other {x a : Nat} (hax : a ≠ x) : (cache_ptr.free x m).obj a = m.obj a := by
  unfold cache_ptr.free
  split
  · simp [cache_ptr.reset_owner, Objects.set, Objects.emit, hax]
  · rfl

theorem together_free (x : Nat) : m.Together (cache_ptr.free x m) := by
  intro a
  by_cases hax : a = x
  · subst hax
    by_cases hidle : (m.obj a).m_block = none ∨ (m.obj a).m_cache = none
    · right
      exact ⟨a, by rw [cache_ptr.free_idle hidle]; exact ⟨rfl, rfl, rfl⟩⟩
    · left
      push Not at hidle
      rw [(cache_ptr.free_spec a m a).1, if_pos ⟨rfl, Option.isSome_iff_ne_none.mpr hidle.2⟩]
  · right
    exact ⟨a, by rw [free_other m hax]; exact ⟨rfl, rfl, rfl⟩⟩

theorem together_reset (x num_blocks : Nat) : m.Together (cache_ptr.reset x none num_blocks m) := by
  intro a
  by_cases hax : a = x
  · left
    rw [((cache_ptr.reset_spec x none num_blocks m).2 a).1, if_pos hax]
  · right
    refine ⟨a, ?_⟩
    unfold cache_ptr.reset
    simp only [Objects.set, Function.update_of_ne hax]
    split
    · rw [free_other m hax]
      exact ⟨rfl, rfl, rfl⟩
    · exact ⟨rfl, rfl, rfl⟩

end

/-- Each pointer that can return its block has the id of it. -/
def Tracked.Carries (s : Tracked) : Prop :=
  ∀ x v p, s.world.vars x = some v → v.m_cache.isSome → v.m_block = some p →
    v.m_tracking_id = s.given p

/-- The unit allocates from a cache that is built, and does not give a pointer the block of
another one without its id. -/
def Tracked.MovesOnly (s : Tracked) : UnitOp → Prop
  | .cache_alloc _ u _ _ => s.world.Cached u
  | .set_owner _ _ => True
  | .op (.swap _ _ _) => False
  | .op (.reset _ ptr _) => ptr = none
  | .op _ => True

theorem Tracked.Carries.keepsIds (h : s.Carries) {op : UnitOp} (hm : s.MovesOnly op) :
    s.KeepsIds op := by
  cases op with
  | cache_alloc x u handle num => exact hm
  | set_owner x handle => trivial
  | op op => exact fun x v p _ hx hc hb => h x v p hx hc hb

theorem carries_after (h : s.Carries) (past : Nat → cache_handle) {m : Objects Unit}
    (hm : s.world.objects.Together m) :
    Tracked.Carries { s with world := s.world.after past m } := by
  intro x v p hx hc hb
  simp only [after_vars] at hx
  obtain ⟨_, -, rfl⟩ := Option.map_eq_some_iff.mp hx
  rcases hm x with hnone | ⟨b, hblock, hcache, hid⟩
  · rw [hb] at hnone
    cases hnone
  · rw [hid]
    rw [hblock] at hb
    rw [hcache] at hc
    rcases hv : s.world.vars b with _ | u
    · simp [World.objects, hv] at hb
    · rw [objects_obj hv] at hb hc ⊢
      exact h b u p hv hc hb

theorem carries_update (h : s.Carries) {x : Nat} {v : Option (cache_ptr Unit)} {g : Nat → Int}
    (hv : ∀ u p, v = some u → u.m_block = some p → u.m_tracking_id = g p)
    (hg : ∀ y u p, y ≠ x → s.world.vars y = some u → u.m_block = some p → g p = s.given p) :
    Tracked.Carries ⟨{ s.world with vars := Function.update s.world.vars x v }, g⟩ := by
  intro y u p hy hc hb
  by_cases hyx : y = x
  · subst hyx
    exact hv u p (by simpa using hy) hb
  · simp only [Function.update_of_ne hyx] at hy
    exact (h y u p hy hc hb).trans (hg y u p hyx hy hb).symm

theorem carries_set_owner (h : s.Carries) (past : Nat → cache_handle) (x : Nat)
    (handle : rhandle) : Tracked.Carries { s with world := s.world.set_owner past x handle } := by
  refine carries_after h past fun a => .inr ⟨a, ?_⟩
  rw [set_owner_obj]
  split
  · rename_i hax
    subst hax
    exact ⟨rfl, rfl, rfl⟩
  · exact ⟨rfl, rfl, rfl⟩

theorem carries_op (h : s.Carries) (past : Nat → cache_handle) {op : Op}
    (hnew : op.allocates = false) (hp : s.world.Permits op) (hm : s.MovesOnly (.op op)) :
    (s.perform past (.op op)).Carries := by
  have hdeclare : ∀ x, Tracked.Carries { s with world := s.world.declare x } := fun x =>
    carries_update h (fun u p hu hb => by cases hu; cases hb) fun _ _ _ _ _ _ => rfl
  cases op with
  | construct x => exact hdeclare x
  | move_construct x y =>
    have hxy : x ≠ y := isSome_ne hp.2 hp.1
    exact carries_after (hdeclare x) past (together_move_construct _ hxy)
  | assign x y => exact carries_after h past (together_assign _ x y)
  | release x =>
    have hset := carries_after h past (together_release s.world.objects x)
    simp only [Tracked.perform, World.perform]
    rcases (cache_ptr.release x s.world.objects).1 with _ | p
    · exact hset
    · exact hset
  | free x => exact carries_after h past (together_free _ x)
  | destroy x =>
    have hset : Tracked.Carries { s with
        world := s.world.after past (cache_ptr.destroy x s.world.objects) } :=
      carries_after h past fun a => .inr ⟨a, by rw [cache_ptr.destroy_obj]; exact ⟨rfl, rfl, rfl⟩⟩
    exact carries_update hset (fun u p hu => by cases hu) fun _ _ _ _ _ _ => rfl
  | reset x ptr num_blocks =>
    cases hm
    exact carries_after h past (together_reset _ x num_blocks)
  | swap x y release_first => cases hm
  | cache_alloc x u num => cases hnew
  | alloc_raw num => cases hnew

theorem carries_cache_alloc (h : s.Carries) (ho : Owned n bs raw s.world)
    (hsize : Fits n bs ∨ mul32 bs n = 0) (hbs : 1 ≤ bs) (past : Nat → cache_handle) (x : Nat)
    (u : cptr_utility Unit) (handle : rhandle) (num : Nat) :
    (s.perform past (.cache_alloc x u handle num)).Carries := by
  have hg := granted ho hsize hbs past x u num
  simp only [Tracked.perform, Tracked.cache_alloc]
  generalize (u.cache_alloc num s.world.heap.cache).1 = r at hg
  generalize s.world.perform past (.cache_alloc x u num) = w1 at hg
  cases hg with
  | throws cached vars log track live =>
    intro y v p hy hc hb
    simp only [vars] at hy
    exact h y v p hy hc hb
  | @null p uncached block id vars log track live =>
    simp only [block]
    refine carries_set_owner (s := ⟨_, _⟩) (fun y v q hy hc hb => ?_) past x handle
    simp only [vars] at hy
    refine carries_update h (x := x) (v := some p) (g := s.given) ?_ ?_ y v q hy hc hb
    · intro v q hv hq
      cases hv
      rw [block] at hq
      cases hq
    · exact fun _ _ _ _ _ _ => rfl
  | @block p b cached block id vars log track fresh live =>
    simp only [block]
    refine carries_set_owner (s := ⟨_, _⟩) (fun y v q hy hc hb => ?_) past x handle
    simp only [vars] at hy
    refine carries_update h (x := x) (v := some p)
      (g := Function.update s.given b p.m_tracking_id) ?_ ?_ y v q hy hc hb
    · intro v q hv hq
      cases hv
      rw [block] at hq
      cases hq
      rw [Function.update_self]
    · intro y v q _ hy hq
      have hlive : q ∈ s.world.ledger.live := ho.valid.live (.var y) q (by
        simp [World.ledger, World.holds, hy, hq])
      refine Function.update_of_ne ?_ _ _
      rintro rfl
      exact fresh hlive

/-- In the runs in which no pointer gets the block of another one by a swap or a reset, the
report is right. -/
theorem moves_keep_the_report (n bs raw bound : Nat) (hn : 1 ≤ n) (hn' : n < u32) (hbs : 1 ≤ bs)
    (hsize : Fits n bs ∨ mul32 bs n = 0) {t : Tracked}
    (h : transition.Reachable
      ((tracked n bs raw bound).guarded fun s act => s.MovesOnly act.2) t) : t.Agrees := by
  have hall : Logged n bs raw t ∧ t.Agrees ∧ t.Carries := by
    refine h.keeps (P := fun t => Logged n bs raw t ∧ t.Agrees ∧ t.Carries) ?_ ?_
    · intro s hs
      obtain ⟨hl, ha⟩ := logged_start hn hn' hs
      refine ⟨hl, ha, fun x v p hx => ?_⟩
      rw [hs] at hx
      cases hx
    · rintro s ⟨past, op⟩ t ⟨hl, ha, hc⟩ ⟨hm, hstep⟩
      obtain ⟨hl', hiff⟩ := logged_step hsize hbs hl ha hstep
      refine ⟨hl', hiff.mpr (hc.keepsIds hm), ?_⟩
      obtain ⟨hp, rfl⟩ := hstep
      cases op with
      | cache_alloc x u handle num =>
        exact carries_cache_alloc hc hl.owned hsize hbs past x u handle num
      | set_owner x handle => exact carries_set_owner hc past x handle
      | op op => exact carries_op hc past hp.1 hp.2 hm
  exact hall.2.1

/-! ## Two runs -/

/-- The units before they do anything. -/
def Tracked.first (n bs : Nat) : Tracked where
  world := World.start n bs 0 0
  given _ := 0

theorem run_perform {bound : Nat} {s t : Tracked} {acts : List TrackedAct}
    (h : transition.Run ((tracked n bs raw bound).guarded fun s act => s.KeepsIds act.2) s acts t)
    (past : Nat → cache_handle) (op : UnitOp) (hg : t.KeepsIds op) (hp : t.Permits op) :
    transition.Run ((tracked n bs raw bound).guarded fun s act => s.KeepsIds act.2) s
      (acts ++ [(past, op)]) (t.perform past op) := h.snoc ⟨hg, hp, rfl⟩

theorem reachable_perform {bound : Nat} {t : Tracked}
    (h : transition.Reachable (tracked n bs raw bound) t) (past : Nat → cache_handle) (op : UnitOp)
    (hp : t.Permits op) : transition.Reachable (tracked n bs raw bound) (t.perform past op) :=
  h.step (past, op) ⟨hp, rfl⟩

/-- What memory past the table holds in the runs below. -/
def otherMemory : Nat → cache_handle := fun _ => ⟨0, true, 0⟩

/-- The unit of the runs below has a cache. -/
def cachedUnit : cptr_utility Unit where
  m_cache := some ()
  m_component_name := "test"

/-- A unit allocates four blocks, moves the pointer and destroys it. -/
theorem a_moved_pointer_is_not_lost :
    ∃ acts t, acts.length = 3 ∧
      transition.Run ((tracked 32 512 0 0).within Tracked.Agrees)
        (Tracked.first 32 512) acts t := by
  have h0 : transition.Run ((tracked 32 512 0 0).guarded fun s act => s.KeepsIds act.2)
      (Tracked.first 32 512) [] (Tracked.first 32 512) := .nil _
  have h1 := run_perform h0 otherMemory
    (.cache_alloc 0 cachedUnit { model := "unit", label := "a" } 4) ⟨rfl, by decide⟩ rfl
  have h2 := run_perform h1 otherMemory (.op (.move_construct 1 0))
    (fun x v p hx => by cases hx) ⟨rfl, rfl, rfl⟩
  have h3 := run_perform h2 otherMemory (.op (.destroy 1))
    (fun x v p hx hv hc hb => by cases hx; cases hv; cases hb; rfl) ⟨rfl, rfl⟩
  have hstart : (tracked 32 512 0 0).start (Tracked.first 32 512) := rfl
  exact ⟨_, _, rfl, (the_report_agrees_with_the_cache 32 512 0 0 (by decide) (by decide) (by decide)
    (.inl (by unfold Fits; decide)) hstart).mpr h3⟩

/-- Two units have allocated a block each. -/
def Tracked.two : Tracked :=
  ((Tracked.first 2 4).perform otherMemory
    (.cache_alloc 0 cachedUnit { model := "unit", label := "a" } 1)).perform otherMemory
      (.cache_alloc 1 cachedUnit { model := "unit", label := "b" } 1)

theorem reachable_two : transition.Reachable (tracked 2 4 0 0) Tracked.two := by
  have h0 : transition.Reachable (tracked 2 4 0 0) (Tracked.first 2 4) :=
    ⟨Tracked.first 2 4, [], rfl, .nil _⟩
  have h1 := reachable_perform h0 otherMemory
    (.cache_alloc 0 cachedUnit { model := "unit", label := "a" } 1) rfl
  exact reachable_perform h1 otherMemory
    (.cache_alloc 1 cachedUnit { model := "unit", label := "b" } 1) rfl

/-- A pointer takes the block of the other one by a swap and is destroyed. -/
def Tracked.afterSwap : Tracked :=
  (Tracked.two.perform otherMemory (.op (.swap 0 1 false))).perform otherMemory (.op (.destroy 0))

/-- A pointer is reset to the block of the other one and destroyed. -/
def Tracked.afterReset : Tracked :=
  ((Tracked.two.perform otherMemory (.op (.release 1))).perform otherMemory
    (.op (.reset 0 (some 4) 1))).perform otherMemory (.op (.destroy 0))

/-- The report names the block that was returned, and not the one in use, after the swap. The
script ends with an exception after the reset. -/
theorem a_pointer_keeps_its_id_without_its_block :
    (transition.Reachable (tracked 2 4 0 0) Tracked.afterSwap ∧ (2 : Int) ∈ Tracked.afterSwap.ids ∧
      cache_tracking.lost_ptr Tracked.afterSwap.world.log =
        .ok { total := 1, rows := [(3, "unit::b")] } ∧ ¬ Tracked.afterSwap.Agrees) ∧
    transition.Reachable (tracked 2 4 0 0) Tracked.afterReset ∧
      cache_tracking.lost_ptr Tracked.afterReset.world.log = .error .ValueError ∧
      ¬ Tracked.afterReset.Agrees := by
  refine ⟨?_, ?_⟩
  · have h3 := reachable_perform reachable_two otherMemory (.op (.swap 0 1 false)) ⟨rfl, rfl, rfl⟩
    have h4 := reachable_perform h3 otherMemory (.op (.destroy 0)) ⟨rfl, rfl⟩
    have hid : (2 : Int) ∈ Tracked.afterSwap.ids := ⟨0, ⟨⟨0, 1⟩, by decide, by decide⟩, by decide⟩
    have hlost : cache_tracking.lost_ptr Tracked.afterSwap.world.log =
        .ok { total := 1, rows := [(3, "unit::b")] } := by decide +kernel
    exact ⟨h4, hid, hlost, cache_tracking.not_reports_of_missing hlost hid (by decide)⟩
  · have h3 := reachable_perform reachable_two otherMemory (.op (.release 1)) ⟨rfl, rfl⟩
    have h4 := reachable_perform h3 otherMemory (.op (.reset 0 (some 4) 1))
      ⟨rfl, rfl, fun p hp => by cases hp; decide⟩
    have h5 := reachable_perform h4 otherMemory (.op (.destroy 0)) ⟨rfl, rfl⟩
    have hlost : cache_tracking.lost_ptr Tracked.afterReset.world.log = .error .ValueError := by
      decide +kernel
    exact ⟨h5, hlost, cache_tracking.not_reports_of_error hlost _⟩

end strangeio.memory
