-- The owner of a run of cache blocks, as memory/cache_ptr.cpp has it, and the
-- allocation of memory/cptr_utility.cpp. Both are built with CACHE_TRACKING.
-- The objects of a program lie at addresses, so two arguments of a method may
-- be one object.
import Mathlib.Logic.Function.Basic
import StrangeIO.CacheManager

namespace strangeio.component

inductive ctype where
  | unspec
  | core
  | unit
deriving DecidableEq, Repr

structure rhandle where
  id : Int := 0
  type : ctype := .unspec
  model : String := ""
  label : String := ""
deriving DecidableEq, Repr

end strangeio.component

namespace strangeio.memory

open strangeio.component (rhandle)

variable {κ : Type}

/-- `m_cache` refers to one of the caches `κ`, or is null. The default values
are those of the default constructor. -/
structure cache_ptr (κ : Type) where
  m_cache : Option κ := none
  m_block : PcmPtr := none
  m_num_blocks : Nat := 0
  m_tracking_id : Int := 0
  m_owner : rhandle := {}
deriving DecidableEq

instance : Inhabited (cache_ptr κ) := ⟨{}⟩

/-- What a method does beside writing its objects. -/
inductive Effect (κ : Type) where
  | free_raw (cache : κ) (ptr : Nat)
  | log (line : String)
deriving DecidableEq

/-- The objects by their addresses, and the effects so far. -/
structure Objects (κ : Type) where
  obj : Nat → cache_ptr κ
  effects : List (Effect κ)

def Objects.set (m : Objects κ) (a : Nat) (p : cache_ptr κ) : Objects κ :=
  { m with obj := Function.update m.obj a p }

def Objects.emit (m : Objects κ) (e : Effect κ) : Objects κ :=
  { m with effects := m.effects ++ [e] }

namespace cache_ptr

/-- A line of the log about an owner. -/
def line (mark : String) (p : cache_ptr κ) : String :=
  mark ++ " cache_ptr [" ++ toString p.m_tracking_id ++ "] " ++
    p.m_owner.model ++ "::" ++ p.m_owner.label

def reset_owner (this : Nat) (m : Objects κ) : Objects κ :=
  m.set this { m.obj this with
    m_owner := { id := -1, label := "null", model := "null", type := .unspec } }

def set_owner (this : Nat) (handle : rhandle) (m : Objects κ) : Objects κ :=
  let m := m.set this { m.obj this with m_owner := handle }
  m.emit (.log (line ">" (m.obj this)))

/-- The move constructor: `this` is a new object. It leaves the owner of
`that` as it was. -/
def move_construct (this that : Nat) (m : Objects κ) : Objects κ :=
  let m := m.set this {
    m_cache := (m.obj that).m_cache
    m_block := (m.obj that).m_block
    m_num_blocks := (m.obj that).m_num_blocks
    m_owner := (m.obj that).m_owner
    m_tracking_id := (m.obj that).m_tracking_id }
  m.set that { m.obj that with m_tracking_id := 0, m_block := none, m_num_blocks := 0 }

/-- The destructor. -/
def destroy (this : Nat) (m : Objects κ) : Objects κ :=
  match (m.obj this).m_block, (m.obj this).m_cache with
  | some block, some cache =>
    (m.emit (.free_raw cache block)).emit (.log (line "~" (m.obj this)))
  | _, _ => m

def release (this : Nat) (m : Objects κ) : PcmPtr × Objects κ :=
  ((m.obj this).m_block, m.set this { m.obj this with m_num_blocks := 0, m_block := none })

def free (this : Nat) (m : Objects κ) : Objects κ :=
  match (m.obj this).m_block, (m.obj this).m_cache with
  | some block, some cache =>
    let m := m.emit (.free_raw cache block)
    let m := m.set this { m.obj this with m_block := none }
    let m := m.emit (.log (line "#" (m.obj this)))
    reset_owner this m
  | _, _ => m

def reset (this : Nat) (ptr : PcmPtr) (num_blocks : Nat) (m : Objects κ) : Objects κ :=
  let m := if (m.obj this).m_block.isSome then free this m else m
  m.set this { m.obj this with m_num_blocks := num_blocks, m_block := ptr }

/-- The arguments of the inner `reset(release(), m_num_blocks)` are evaluated
in either order. -/
def swap (this cptr : Nat) (release_first : Bool) (m : Objects κ) : Objects κ :=
  let nblocks := (m.obj cptr).m_num_blocks
  let (ptr, m) := release cptr m
  let before := (m.obj this).m_num_blocks
  let (mine, m) := release this m
  let num := if release_first then (m.obj this).m_num_blocks else before
  let m := reset cptr mine num m
  reset this ptr nblocks m

/-- The move assignment. -/
def assign (this that : Nat) (m : Objects κ) : Objects κ :=
  let m := m.set this {
    m_cache := (m.obj that).m_cache
    m_block := (m.obj that).m_block
    m_num_blocks := (m.obj that).m_num_blocks
    m_owner := (m.obj that).m_owner
    m_tracking_id := (m.obj that).m_tracking_id }
  let m := reset_owner that m
  m.set that { m.obj that with m_block := none, m_num_blocks := 0 }

/-! ## What each method does to the blocks -/

theorem move_construct_spec {x y : Nat} (hxy : x ≠ y) (m : Objects κ) :
    (move_construct x y m).effects = m.effects ∧ ∀ a,
      ((move_construct x y m).obj a).m_block =
        (if a = y then none else if a = x then (m.obj y).m_block else (m.obj a).m_block) ∧
      ((move_construct x y m).obj a).m_cache =
        if a = x then (m.obj y).m_cache else (m.obj a).m_cache := by
  refine ⟨rfl, fun a => ?_⟩
  by_cases hay : a = y
  · subst hay
    simp [move_construct, Objects.set, hxy.symm]
  · by_cases hax : a = x
    · subst hax
      simp [move_construct, Objects.set, hay]
    · simp [move_construct, Objects.set, hax, hay]

/-- A self-assignment drops the block as well. -/
theorem assign_spec (x y : Nat) (m : Objects κ) :
    (assign x y m).effects = m.effects ∧ ∀ a,
      ((assign x y m).obj a).m_block =
        (if a = y then none else if a = x then (m.obj y).m_block else (m.obj a).m_block) ∧
      ((assign x y m).obj a).m_cache =
        if a = x then (m.obj y).m_cache else (m.obj a).m_cache := by
  refine ⟨rfl, fun a => ?_⟩
  by_cases hay : a = y
  · subst hay
    by_cases hax : a = x
    · subst hax
      simp [assign, reset_owner, Objects.set]
    · simp [assign, reset_owner, Objects.set, hax]
  · by_cases hax : a = x
    · subst hax
      simp [assign, reset_owner, Objects.set, hay]
    · simp [assign, reset_owner, Objects.set, hax, hay]

theorem release_spec (x : Nat) (m : Objects κ) :
    (release x m).1 = (m.obj x).m_block ∧ (release x m).2.effects = m.effects ∧ ∀ a,
      ((release x m).2.obj a).m_block = (if a = x then none else (m.obj a).m_block) ∧
      ((release x m).2.obj a).m_cache = (m.obj a).m_cache := by
  refine ⟨rfl, rfl, fun a => ?_⟩
  by_cases hax : a = x
  · subst hax
    simp [release, Objects.set]
  · simp [release, Objects.set, hax]

/-- A free of an owner without a block or without a cache does nothing. -/
theorem free_idle {x : Nat} {m : Objects κ}
    (h : (m.obj x).m_block = none ∨ (m.obj x).m_cache = none) : free x m = m := by
  unfold free
  split
  · rename_i b c hb hc
    rw [hb, hc] at h
    simp at h
  · rfl

theorem free_effects {x : Nat} {m : Objects κ} {block : Nat} {cache : κ}
    (hb : (m.obj x).m_block = some block) (hc : (m.obj x).m_cache = some cache) :
    (free x m).effects = m.effects ++ [.free_raw cache block, .log (line "#" (m.obj x))] := by
  unfold free
  simp only [hb, hc, reset_owner, Objects.set, Objects.emit, Function.update_self,
    List.append_assoc, List.cons_append, List.nil_append]
  rfl

/-- An owner with a cache has no block after a free, and every owner keeps its cache. -/
theorem free_spec (x : Nat) (m : Objects κ) (a : Nat) :
    ((free x m).obj a).m_block =
      (if a = x ∧ (m.obj x).m_cache.isSome then none else (m.obj a).m_block) ∧
    ((free x m).obj a).m_cache = (m.obj a).m_cache := by
  rcases hb : (m.obj x).m_block with _ | block
  · rw [free_idle (Or.inl hb)]
    refine ⟨?_, rfl⟩
    split
    · rename_i h
      rw [h.1, hb]
    · rfl
  · rcases hc : (m.obj x).m_cache with _ | cache
    · rw [free_idle (Or.inr hc)]
      simp
    · unfold free
      by_cases hax : a = x
      · subst hax
        simp [hb, hc, reset_owner, Objects.set, Objects.emit]
      · simp [hb, hc, reset_owner, Objects.set, Objects.emit, hax]

theorem destroy_idle {x : Nat} {m : Objects κ}
    (h : (m.obj x).m_block = none ∨ (m.obj x).m_cache = none) : destroy x m = m := by
  unfold destroy
  split
  · rename_i b c hb hc
    rw [hb, hc] at h
    simp at h
  · rfl

theorem destroy_effects {x : Nat} {m : Objects κ} {block : Nat} {cache : κ}
    (hb : (m.obj x).m_block = some block) (hc : (m.obj x).m_cache = some cache) :
    (destroy x m).effects = m.effects ++ [.free_raw cache block, .log (line "~" (m.obj x))] := by
  unfold destroy
  simp only [hb, hc, Objects.emit, List.append_assoc, List.cons_append, List.nil_append]

theorem destroy_obj (x : Nat) (m : Objects κ) : (destroy x m).obj = m.obj := by
  unfold destroy
  split <;> rfl

/-- A reset frees what the owner can free, and takes the new pointer. -/
theorem reset_spec (x : Nat) (ptr : PcmPtr) (num_blocks : Nat) (m : Objects κ) :
    (reset x ptr num_blocks m).effects = (free x m).effects ∧ ∀ a,
      ((reset x ptr num_blocks m).obj a).m_block = (if a = x then ptr else (m.obj a).m_block) ∧
      ((reset x ptr num_blocks m).obj a).m_cache = (m.obj a).m_cache := by
  have hfree : (if (m.obj x).m_block.isSome then free x m else m) = free x m := by
    split
    · rfl
    · rename_i hb
      exact (free_idle (Or.inl (by simpa using hb))).symm
  unfold reset
  rw [hfree]
  refine ⟨rfl, fun a => ?_⟩
  by_cases hax : a = x
  · subst hax
    simp [Objects.set, (free_spec a m a).2]
  · simp [Objects.set, hax, free_spec x m a]

/-- A swap exchanges the blocks, and leaves each owner its own cache. -/
theorem swap_spec (x y : Nat) (release_first : Bool) (m : Objects κ) :
    (swap x y release_first m).effects = m.effects ∧ ∀ a,
      ((swap x y release_first m).obj a).m_block =
        (if a = x then (m.obj y).m_block else if a = y then (m.obj x).m_block
          else (m.obj a).m_block) ∧
      ((swap x y release_first m).obj a).m_cache = (m.obj a).m_cache := by
  obtain ⟨_, he1, h1⟩ := release_spec y m
  obtain ⟨hp2, he2, h2⟩ := release_spec x (release y m).2
  unfold swap
  simp only
  generalize (if release_first = true then _ else _) = num
  have hy : ((release x (release y m).2).2.obj y).m_block = none := by
    rw [(h2 y).1, (h1 y).1]
    simp
  obtain ⟨he3, h3⟩ := reset_spec y (release x (release y m).2).1 num (release x (release y m).2).2
  rw [free_idle (Or.inl hy)] at he3
  generalize reset y (release x (release y m).2).1 num (release x (release y m).2).2 = m3 at *
  -- `this` gave its block away before the last reset, also when it is `cptr`
  have hmine : (release x (release y m).2).1 = if x = y then none else (m.obj x).m_block := by
    rw [hp2, (h1 x).1]
  have hx : (m3.obj x).m_block = none := by
    rw [(h3 x).1, hmine, (h2 x).1]
    split <;> simp
  obtain ⟨he4, h4⟩ := reset_spec x (m.obj y).m_block (m.obj y).m_num_blocks m3
  rw [free_idle (Or.inl hx)] at he4
  refine ⟨he4.trans (he3.trans (he2.trans he1)), fun a => ?_⟩
  refine ⟨?_, (h4 a).2.trans ((h3 a).2.trans ((h2 a).2.trans (h1 a).2))⟩
  refine (h4 a).1.trans ?_
  by_cases hax : a = x
  · rw [if_pos hax, if_pos hax]
  · rw [if_neg hax, if_neg hax, (h3 a).1, hmine, (h2 a).1, if_neg hax, (h1 a).1]
    by_cases hay : a = y
    · rw [if_pos hay, if_pos hay, if_neg (fun e => hax (hay.trans e.symm))]
    · rw [if_neg hay, if_neg hay, if_neg hay]

/-! ## What each method does to the counts -/

theorem move_construct_count {x y : Nat} (hxy : x ≠ y) (m : Objects κ) (a : Nat) :
    ((move_construct x y m).obj a).m_num_blocks =
      if a = y then 0 else if a = x then (m.obj y).m_num_blocks else (m.obj a).m_num_blocks := by
  by_cases hay : a = y
  · subst hay
    simp [move_construct, Objects.set]
  · by_cases hax : a = x
    · subst hax
      simp [move_construct, Objects.set, hay]
    · simp [move_construct, Objects.set, hax, hay]

theorem assign_count (x y : Nat) (m : Objects κ) (a : Nat) :
    ((assign x y m).obj a).m_num_blocks =
      if a = y then 0 else if a = x then (m.obj y).m_num_blocks else (m.obj a).m_num_blocks := by
  by_cases hay : a = y
  · subst hay
    simp [assign, reset_owner, Objects.set]
  · by_cases hax : a = x
    · subst hax
      simp [assign, reset_owner, Objects.set, hay]
    · simp [assign, reset_owner, Objects.set, hax, hay]

theorem release_count (x : Nat) (m : Objects κ) (a : Nat) :
    ((release x m).2.obj a).m_num_blocks = if a = x then 0 else (m.obj a).m_num_blocks := by
  by_cases hax : a = x
  · subst hax
    simp [release, Objects.set]
  · simp [release, Objects.set, hax]

/-- A free takes the block only. -/
theorem free_count (x : Nat) (m : Objects κ) (a : Nat) :
    ((free x m).obj a).m_num_blocks = (m.obj a).m_num_blocks := by
  unfold free
  split
  · by_cases hax : a = x
    · subst hax
      simp [reset_owner, Objects.set, Objects.emit]
    · simp [reset_owner, Objects.set, Objects.emit, hax]
  · rfl

theorem reset_count (x : Nat) (ptr : PcmPtr) (num_blocks : Nat) (m : Objects κ) (a : Nat) :
    ((reset x ptr num_blocks m).obj a).m_num_blocks =
      if a = x then num_blocks else (m.obj a).m_num_blocks := by
  unfold reset
  by_cases hax : a = x
  · subst hax
    simp [Objects.set]
  · simp only [Objects.set, Function.update_of_ne hax, if_neg hax]
    split
    · exact free_count x m a
    · rfl

/-- The count that `cptr` takes is the one that `release` left, if that comes first. -/
theorem swap_count (x y : Nat) (release_first : Bool) (m : Objects κ) (a : Nat) :
    ((swap x y release_first m).obj a).m_num_blocks =
      if a = x then (m.obj y).m_num_blocks
      else if a = y then (if release_first then 0 else (m.obj x).m_num_blocks)
      else (m.obj a).m_num_blocks := by
  simp only [swap, reset_count, release_count, if_true]
  by_cases hax : a = x
  · simp only [if_pos hax]
  · by_cases hay : a = y
    · have hxy : ¬ x = y := fun e => hax (hay.trans e.symm)
      simp only [if_neg hax, if_pos hay, if_neg hxy]
    · simp only [if_neg hax, if_neg hay]

end cache_ptr

/-! ## Allocation -/

structure cptr_utility (κ : Type) where
  m_cache : Option κ
  m_component_name : String

/-- `c` is the cache that `m_cache` refers to. The exception names the
component that it passes through. -/
def cptr_utility.cache_alloc (u : cptr_utility κ) (num : Nat) (c : cache_manager) :
    Except cache_drain (cache_ptr κ) × cache_manager :=
  match u.m_cache with
  | none => (.ok {}, c)
  | some cache =>
    match c.alloc_raw num 0 with
    | (.ok ptr, id, c) =>
      (.ok { m_cache := some cache, m_block := ptr, m_num_blocks := num, m_tracking_id := id }, c)
    | (.error e, _, c) => (.error { e with m_component := u.m_component_name }, c)

end strangeio.memory
