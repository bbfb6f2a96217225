-- What a swap of two owners exchanges. Each of them keeps its own cache, and the
-- count of `this` is read after its release or before it.
import StrangeIO.CachePtr

namespace strangeio.memory

variable {κ : Type}

/-! ## Ownership, and what returns to the caches -/

/-- The block that the destructor returns, with the cache that it returns it to. -/
def cache_ptr.owned (p : cache_ptr κ) : List (κ × Nat) :=
  match p.m_block, p.m_cache with
  | some block, some cache => [(cache, block)]
  | _, _ => []

def Effect.returned : Effect κ → Option (κ × Nat)
  | .free_raw cache block => some (cache, block)
  | .log _ => none

/-- The blocks that went back, each to its cache, in order. -/
def Objects.returned (m : Objects κ) : List (κ × Nat) := m.effects.filterMap Effect.returned

/-- `p` holds the block and the count that `q` held, and is to return the block to
the cache that it came from. -/
structure cache_ptr.TakesOver (p q : cache_ptr κ) : Prop where
  block : p.m_block = q.m_block
  num_blocks : p.m_num_blocks = q.m_num_blocks
  cache : q.m_block.isSome → p.m_cache = q.m_cache

/-- The owners `x` and `y` of `m` are exchanged in `m'`: each took over from the other,
and to destroy both returns what they owned, and nothing else. -/
structure Exchanged (x y : Nat) (m m' : Objects κ) : Prop where
  left : (m'.obj x).TakesOver (m.obj y)
  right : (m'.obj y).TakesOver (m.obj x)
  returned : (cache_ptr.destroy y (cache_ptr.destroy x m')).returned =
    m.returned ++ (m.obj y).owned ++ (m.obj x).owned

/-- `this` has no blocks to count, and a block does not change its cache. -/
def Swappable (x y : Nat) (m : Objects κ) : Prop :=
  (m.obj x).m_num_blocks = 0 ∧
    ((m.obj x).m_block.isSome ∨ (m.obj y).m_block.isSome →
      (m.obj x).m_cache = (m.obj y).m_cache)

namespace cache_ptr

theorem owned_congr {p q : cache_ptr κ} (hb : p.m_block = q.m_block)
    (hc : q.m_block.isSome → p.m_cache = q.m_cache) : p.owned = q.owned := by
  unfold owned
  rw [hb]
  cases hq : q.m_block with
  | none => rfl
  | some block => rw [hc (by rw [hq]; rfl)]

theorem destroy_returned (x : Nat) (m : Objects κ) :
    (destroy x m).returned = m.returned ++ (m.obj x).owned := by
  unfold destroy owned
  rcases (m.obj x).m_block with _ | block
  · simp
  · rcases (m.obj x).m_cache with _ | cache
    · simp
    · simp [Objects.emit, Objects.returned, Effect.returned]

theorem swap_returned (x y : Nat) (release_first : Bool) (m : Objects κ) :
    (swap x y release_first m).returned = m.returned := by
  unfold Objects.returned
  rw [(swap_spec x y release_first m).1]

/-! ## The swap -/

variable {x y : Nat} (hxy : x ≠ y) (release_first : Bool) (m : Objects κ)

/-- `this` takes over the block and the count. -/
theorem swap_left :
    ((swap x y release_first m).obj x).TakesOver (m.obj y) ↔
      ((m.obj y).m_block.isSome → (m.obj x).m_cache = (m.obj y).m_cache) := by
  obtain ⟨hblock, hcache⟩ := (swap_spec x y release_first m).2 x
  have hcount := swap_count x y release_first m x
  rw [if_pos rfl] at hblock hcount
  rw [← hcache]
  constructor
  · intro h
    exact h.cache
  · intro h
    exact ⟨hblock, hcount, h⟩

include hxy

/-- `cptr` takes over the block, and the count if that is read before the release. -/
theorem swap_right :
    ((swap x y release_first m).obj y).TakesOver (m.obj x) ↔
      (release_first → (m.obj x).m_num_blocks = 0) ∧
      ((m.obj x).m_block.isSome → (m.obj x).m_cache = (m.obj y).m_cache) := by
  obtain ⟨hblock, hcache⟩ := (swap_spec x y release_first m).2 y
  have hcount := swap_count x y release_first m y
  rw [if_neg hxy.symm, if_pos rfl] at hblock hcount
  constructor
  · intro h
    refine ⟨fun hr => ?_, fun hb => ((h.cache hb).symm.trans hcache)⟩
    rw [if_pos hr] at hcount
    exact h.num_blocks.symm.trans hcount
  · intro h
    refine ⟨hblock, ?_, fun hb => hcache.trans (h.2 hb).symm⟩
    rw [hcount]
    split
    · rename_i hr
      exact (h.1 hr).symm
    · rfl

theorem swap_exchanged :
    Exchanged x y m (swap x y release_first m) ↔
      (release_first → (m.obj x).m_num_blocks = 0) ∧
      ((m.obj x).m_block.isSome ∨ (m.obj y).m_block.isSome →
        (m.obj x).m_cache = (m.obj y).m_cache) := by
  constructor
  · intro h
    obtain ⟨hcount, hcache⟩ := (swap_right hxy release_first m).mp h.right
    exact ⟨hcount, fun hb => hb.elim hcache ((swap_left release_first m).mp h.left)⟩
  · intro h
    have hleft := (swap_left release_first m).mpr fun hb => h.2 (Or.inr hb)
    have hright := (swap_right hxy release_first m).mpr ⟨h.1, fun hb => h.2 (Or.inl hb)⟩
    refine ⟨hleft, hright, ?_⟩
    rw [destroy_returned, destroy_returned, destroy_obj, swap_returned,
      owned_congr hleft.block hleft.cache, owned_congr hright.block hright.cache]

/-- In both orders of the arguments a swap exchanges the owners just when `this` has no
blocks, and the block that `cptr` may have is of the cache of `this`. -/
theorem a_swap_exchanges_into_an_empty_owner :
    (∀ release_first, Exchanged x y m (swap x y release_first m)) ↔ Swappable x y m := by
  constructor
  · intro h
    have hswap := (swap_exchanged hxy true m).mp (h true)
    exact ⟨hswap.1 rfl, hswap.2⟩
  · intro h release_first
    exact (swap_exchanged hxy release_first m).mpr ⟨fun _ => h.1, h.2⟩

omit hxy

/-- An owner of two blocks of cache 0 at address 0, and one of three blocks of `cache`. -/
def twoOwners (cache : Nat) : Objects Nat where
  obj a :=
    if a = 0 then { m_cache := some 0, m_block := some 100, m_num_blocks := 2 }
    else { m_cache := some cache, m_block := some 200, m_num_blocks := 3 }
  effects := []

/-- An owner that its block was moved from, and one of three blocks. -/
def emptyOwner : Objects Nat where
  obj a :=
    if a = 0 then { m_cache := some 0 }
    else { m_cache := some 0, m_block := some 200, m_num_blocks := 3 }
  effects := []

theorem a_swap_into_a_moved_owner_exchanges :
    (0 : Nat) ≠ 1 ∧ ∀ release_first, Exchanged 0 1 emptyOwner (swap 0 1 release_first emptyOwner) :=
  ⟨by decide, (a_swap_exchanges_into_an_empty_owner (by decide) emptyOwner).mpr
    ⟨by decide, by decide⟩⟩

/-- Of two owners of one cache `cptr` gets no count when `release` comes first, and two
owners of two caches return their blocks to the wrong cache in either order. -/
theorem a_swap_loses_the_count_and_the_cache :
    ¬ Exchanged 0 1 (twoOwners 0) (swap 0 1 true (twoOwners 0)) ∧
      ∀ release_first, ¬ Exchanged 0 1 (twoOwners 1) (swap 0 1 release_first (twoOwners 1)) := by
  refine ⟨fun h => ?_, fun release_first h => ?_⟩
  · have hcount : ((swap 0 1 true (twoOwners 0)).obj 1).m_num_blocks ≠ 2 := by decide
    exact hcount h.right.num_blocks
  · have hreturned : ∀ r, (destroy 1 (destroy 0 (swap 0 1 r (twoOwners 1)))).returned ≠
        (twoOwners 1).returned ++ ((twoOwners 1).obj 1).owned ++ ((twoOwners 1).obj 0).owned := by
      decide
    exact hreturned release_first h.returned

end cache_ptr

end strangeio.memory
