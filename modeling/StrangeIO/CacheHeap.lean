-- The calls of the cache allocator on one built cache, with the runs that
-- are live. Each call has one description here, and the laws of the handle
-- table follow from it by induction over the calls.
import StrangeIO.CacheTable
import StrangeIO.Transition

namespace strangeio.memory

/-- A cache, and the runs of blocks that were allocated and not freed since. -/
structure Heap where
  cache : cache_manager
  live : List Extent

/-- The pointer that `alloc_raw` gave for a run. -/
def Heap.ptrOf (h : Heap) (r : Extent) : PcmPtr := h.cache.m_handles[r.start]?.map (·.ptr)

def Heap.alloc (h : Heap) (num : Nat) : Heap :=
  match h.cache.alloc_raw num 0 with
  | (.ok (some _), _, c) =>
    { cache := c, live := ⟨firstFit num h.cache.m_handles, num⟩ :: h.live }
  | (_, _, c) => { h with cache := c }

def Heap.free (h : Heap) (past : Nat → cache_handle) (r : Extent) : Heap where
  cache := h.cache.free_raw past (h.ptrOf r)
  live := h.live.erase r

inductive Call where
  | alloc (num : Nat)
  | free (past : Nat → cache_handle) (r : Extent)

def Heap.call (h : Heap) : Call → Heap
  | .alloc num => h.alloc num
  | .free past r => h.free past r

/-- A call that the program may make: it frees only what is live. -/
def Heap.Permits (h : Heap) : Call → Prop
  | .alloc _ => True
  | .free _ r => r ∈ h.live

/-- The cache of `n` blocks after `build_cache`. -/
def built (n bs raw bound : Nat) : Heap where
  cache := (cache_manager.make n bound).build_cache raw bs
  live := []

def heaps (n bs raw bound : Nat) : transition.System Heap Call where
  start h := h = built n bs raw bound
  step h call h' := h.Permits call ∧ h' = h.call call

/-! ## The layout -/

/-- What no call changes: the geometry of the cache, and the pointer of every handle. -/
structure Layout (n bs raw : Nat) (c : cache_manager) : Prop where
  raw_cache : c.m_raw_cache = some raw
  block_size : c.m_block_size = bs
  cache_size : c.m_cache_size = mul32 bs n
  bound : c.m_bound = raw + mul32 (n - 1) bs
  ptrs : c.m_handles.map (·.ptr) = (List.range n).map (fun i => raw + mul32 i bs)

/-- The offset of the last block fits 32 bits. -/
def Fits (n bs : Nat) : Prop := (n - 1) * bs < u32

theorem Layout.length {n bs raw : Nat} {c : cache_manager} (h : Layout n bs raw c) :
    c.m_handles.length = n := by
  simpa using congrArg List.length h.ptrs

theorem Layout.ptr {n bs raw : Nat} {c : cache_manager} (h : Layout n bs raw c) {i : Nat}
    {x : cache_handle} (hx : c.m_handles[i]? = some x) : x.ptr = raw + mul32 i bs := by
  have hlt : i < n := h.length ▸ (List.getElem?_eq_some_iff.mp hx).1
  have h1 : (c.m_handles.map (·.ptr))[i]? = some x.ptr := by simp [hx]
  rw [h.ptrs] at h1
  simp [hlt] at h1
  exact h1.symm

theorem takeRun_ptrs (hs : List cache_handle) (s k : Nat) :
    (takeRun hs s k).map (·.ptr) = hs.map (·.ptr) := by
  apply List.ext_getElem?
  intro j
  simp only [List.getElem?_map, takeRun_get, Option.map_map]
  congr 1
  funext x
  simp only [Function.comp, takeHandle]
  split <;> rfl

theorem free_blocks_ptrs (index link blocks : Nat) (hs : List cache_handle) :
    (free_blocks index link blocks hs).map (·.ptr) = hs.map (·.ptr) := by
  apply List.ext_getElem?
  intro j
  simp only [List.getElem?_map, free_blocks_get]
  split
  · cases hs[j]? <;> rfl
  · rfl

theorem relink_up_ptrs (i link : Nat) (hs : List cache_handle) :
    (relink_up i link hs).map (·.ptr) = hs.map (·.ptr) := by
  induction i generalizing link hs with
  | zero => rfl
  | succ i ih =>
    rw [relink_up]
    rcases hx : hs[i]? with _ | x
    · rfl
    · simp only
      split
      · rfl
      · rw [ih, List.map_set]
        obtain ⟨hlt, rfl⟩ := List.getElem?_eq_some_iff.mp hx
        apply List.ext_getElem?
        intro j
        by_cases hj : i = j
        · subst hj
          simp [hlt]
        · rw [List.getElem?_set_ne hj]

theorem layout_built (n bs raw bound : Nat) (hn : 1 ≤ n) :
    Layout n bs raw (built n bs raw bound).cache := by
  have hlast := build_handles_get raw bs 0 n (n - 1) (by omega)
  refine ⟨rfl, rfl, rfl, ?_, ?_⟩
  · simp [built, cache_manager.make, cache_manager.build_cache, hlast]
  · apply List.ext_getElem?
    intro j
    by_cases hj : j < n
    · simp [built, cache_manager.make, cache_manager.build_cache,
        build_handles_get _ _ _ _ _ hj, hj]
    · simp [built, cache_manager.make, cache_manager.build_cache, hj, build_handles_length]

theorem layout_free {n bs raw : Nat} {c : cache_manager} (h : Layout n bs raw c)
    (past : Nat → cache_handle) (ptr : PcmPtr) : Layout n bs raw (c.free_raw past ptr) := by
  unfold cache_manager.free_raw
  split
  · exact h
  · obtain ⟨h1, h2, h3, h4, h5⟩ := h
    exact ⟨h1, h2, h3, h4, by simp only [relink_up_ptrs, free_blocks_ptrs, h5]⟩

/-! ## What an allocation does -/

/-- The cache after an allocation that took the run of `num` blocks at `s`. -/
def cache_manager.taken (c : cache_manager) (s num : Nat) : cache_manager :=
  { c with
    m_track_id := c.m_track_id + 1
    m_handles := takeRun c.m_handles s num
    m_total := int32 (c.m_total + num) }

/-- `alloc_raw` takes the first run that fits and hands out its pointer, or
leaves the table as it was and throws. A cache of size 0 gives null. -/
theorem alloc_raw_cases (c : cache_manager) (num : Nat) (id : Int) :
    (c.m_cache_size = 0 ∧ c.alloc_raw num id = (.ok none, id, c)) ∨
    (c.m_cache_size ≠ 0 ∧ (num = 0 ∨ c.m_handles[firstFit num c.m_handles]? = none) ∧
      c.alloc_raw num id =
        (.error {}, c.m_track_id + 1, { c with m_track_id := c.m_track_id + 1 })) ∨
    (c.m_cache_size ≠ 0 ∧ 0 < num ∧ ∃ x, c.m_handles[firstFit num c.m_handles]? = some x ∧
      c.alloc_raw num id = (.ok (some x.ptr), c.m_track_id + 1,
        c.taken (firstFit num c.m_handles) num)) := by
  by_cases hsize : c.m_cache_size = 0
  · exact Or.inl ⟨hsize, by simp [cache_manager.alloc_raw, hsize]⟩
  right
  rcases Nat.eq_zero_or_pos num with rfl | hpos
  · left
    refine ⟨hsize, Or.inl rfl, ?_⟩
    simp [cache_manager.alloc_raw, cache_manager.allocate, hsize, allocate_loop_zero]
  · have hloop := allocate_loop_spec num none c.m_handles hpos
    rcases hx : c.m_handles[firstFit num c.m_handles]? with _ | x
    · left
      refine ⟨hsize, Or.inr rfl, ?_⟩
      simp [cache_manager.alloc_raw, cache_manager.allocate, hsize, hloop, hx]
    · right
      refine ⟨hsize, hpos, x, rfl, ?_⟩
      simp [cache_manager.alloc_raw, cache_manager.allocate, hsize, hloop, hx,
        cache_manager.taken]

/-- An allocation takes a run, or changes nothing but the tracking id. -/
theorem heap_alloc_cases (h : Heap) (num : Nat) :
    (∃ x, h.cache.m_cache_size ≠ 0 ∧ 0 < num ∧
      h.cache.m_handles[firstFit num h.cache.m_handles]? = some x ∧
      h.alloc num = { cache := h.cache.taken (firstFit num h.cache.m_handles) num,
                      live := ⟨firstFit num h.cache.m_handles, num⟩ :: h.live }) ∨
    (∃ t, h.alloc num = { h with cache := { h.cache with m_track_id := t } }) := by
  unfold Heap.alloc
  rcases alloc_raw_cases h.cache num 0 with ⟨_, he⟩ | ⟨_, _, he⟩ | ⟨hs, hpos, x, hx, he⟩
  · right
    exact ⟨h.cache.m_track_id, by rw [he]⟩
  · right
    exact ⟨_, by rw [he]⟩
  · left
    exact ⟨x, hs, hpos, hx, by rw [he]⟩

theorem layout_alloc {n bs raw : Nat} {h : Heap} (hl : Layout n bs raw h.cache) (num : Nat) :
    Layout n bs raw (h.alloc num).cache := by
  obtain ⟨h1, h2, h3, h4, h5⟩ := hl
  rcases heap_alloc_cases h num with ⟨x, _, _, _, he⟩ | ⟨t, he⟩
  · rw [he]
    exact ⟨h1, h2, h3, h4, by simp only [cache_manager.taken, takeRun_ptrs, h5]⟩
  · rw [he]
    exact ⟨h1, h2, h3, h4, h5⟩

/-! ## What a free does -/

/-- A pointer that falls on the head of a run of `k` blocks frees that run. -/
theorem free_raw_eq {c : cache_manager} {ptr : PcmPtr} {r : Extent} {x : cache_handle}
    (past : Nat → cache_handle) (hi : c.index_of ptr = some r.start)
    (hx : c.m_handles[r.start]? = some x) (hk : x.num_blocks = r.size) :
    c.free_raw past ptr =
      { c with
        m_handles := freeRun past c.m_handles r
        m_total := int32 (c.m_total - r.size) } := by
  unfold cache_manager.free_raw freeRun
  simp only [hi, handle_at, hx, Option.getD_some, hk]

/-- Where the offsets fit, the pointer of a handle falls on that handle. -/
theorem Layout.index_ptr {n bs raw : Nat} {c : cache_manager} (h : Layout n bs raw c)
    (hfit : Fits n bs) (hbs : 1 ≤ bs) {i : Nat} {x : cache_handle}
    (hx : c.m_handles[i]? = some x) : c.index_of (some x.ptr) = some i := by
  have hlt : i < n := h.length ▸ (List.getElem?_eq_some_iff.mp hx).1
  have hle : i * bs ≤ (n - 1) * bs := Nat.mul_le_mul_right bs (by omega)
  have hmul : ∀ j, j * bs ≤ (n - 1) * bs → mul32 j bs = j * bs := fun j hj =>
    Nat.mod_eq_of_lt (by unfold Fits at hfit; omega)
  have hp := h.ptr hx
  rw [hmul i hle] at hp
  have hb := h.bound
  rw [hmul (n - 1) (Nat.le_refl _)] at hb
  have hnot : ¬ (x.ptr < raw ∨ c.m_bound < x.ptr) := by omega
  have hsub : x.ptr - raw = i * bs := by omega
  simp only [cache_manager.index_of, h.raw_cache, hnot, if_false, h.block_size, hsub]
  rw [Nat.mul_div_cancel _ (by omega)]

/-- A pointer that `free_raw` does not turn away falls in the table. -/
theorem Layout.index_lt {n bs raw : Nat} {c : cache_manager} (h : Layout n bs raw c)
    (hn : 1 ≤ n) {ptr : PcmPtr} {i : Nat} (hi : c.index_of ptr = some i) : i < n := by
  unfold cache_manager.index_of at hi
  rw [h.raw_cache] at hi
  rcases ptr with _ | p
  · cases hi
  · simp only at hi
    split at hi
    · cases hi
    · rename_i hp
      rw [Option.some.injEq, h.block_size] at hi
      have hb := h.bound
      have hm : mul32 (n - 1) bs ≤ (n - 1) * bs := Nat.mod_le _ _
      have hd : (p - raw) / bs ≤ (n - 1) * bs / bs := Nat.div_le_div_right (by omega)
      have hd' : (n - 1) * bs / bs ≤ n - 1 := by
        rcases Nat.eq_zero_or_pos bs with rfl | hpos
        · simp
        · rw [Nat.mul_div_cancel _ hpos]
      omega

/-! ## The invariant of a run -/

structure Sound (n bs raw : Nat) (h : Heap) : Prop where
  layout : Layout n bs raw h.cache
  linked : Linked h.cache.m_handles h.live

theorem sound_alloc {n bs raw : Nat} {h : Heap} (hs : Sound n bs raw h) (num : Nat) :
    Sound n bs raw (h.alloc num) := by
  refine ⟨layout_alloc hs.layout num, ?_⟩
  rcases heap_alloc_cases h num with ⟨x, _, hpos, hx, he⟩ | ⟨t, he⟩
  · rw [he]
    exact linked_take hs.linked hpos hx
  · rw [he]
    exact hs.linked

/-- Freeing a live run frees that run, where the offsets fit. -/
theorem heap_free_eq {n bs raw : Nat} {h : Heap} (hs : Sound n bs raw h) (hfit : Fits n bs)
    (hbs : 1 ≤ bs) (past : Nat → cache_handle) {r : Extent} (hr : r ∈ h.live) :
    h.free past r =
      { cache := { h.cache with
          m_handles := freeRun past h.cache.m_handles r
          m_total := int32 (h.cache.m_total - r.size) },
        live := h.live.erase r } := by
  obtain ⟨x, hx, _⟩ := hs.linked.start_in_use hr
  have hi := hs.layout.index_ptr hfit hbs hx
  unfold Heap.free Heap.ptrOf
  rw [hx, Option.map_some, free_raw_eq past hi hx (hs.linked.head r hr x hx)]

theorem sound_free {n bs raw : Nat} {h : Heap} (hs : Sound n bs raw h) (hfit : Fits n bs)
    (hbs : 1 ≤ bs) (past : Nat → cache_handle) {r : Extent} (hr : r ∈ h.live) :
    Sound n bs raw (h.free past r) := by
  refine ⟨layout_free hs.layout past _, ?_⟩
  rw [heap_free_eq hs hfit hbs past hr]
  exact linked_free hs.linked past hr

theorem built_get (n bs raw bound : Nat) {i : Nat} {x : cache_handle}
    (h : (built n bs raw bound).cache.m_handles[i]? = some x) :
    i < n ∧ x = { ptr := raw + mul32 i bs, in_use := false, num_blocks := n - i } := by
  have hi : (build_handles raw bs 0 n)[i]? = some x := h
  have hlt : i < n := build_handles_length raw bs 0 n ▸ (List.getElem?_eq_some_iff.mp hi).1
  rw [build_handles_get _ _ _ _ _ hlt, Option.some.injEq, Nat.zero_add] at hi
  exact ⟨hlt, hi.symm⟩

theorem built_length (n bs raw bound : Nat) :
    (built n bs raw bound).cache.m_handles.length = n := build_handles_length raw bs 0 n

theorem sound_built (n bs raw bound : Nat) (hn : 1 ≤ n) (hn' : n < u32) :
    Sound n bs raw (built n bs raw bound) := by
  refine ⟨layout_built n bs raw bound hn, ?_, ?_, ?_, ?_, ?_, ?_, ?_⟩
  · intro i x hx
    obtain ⟨_, rfl⟩ := built_get _ _ _ _ hx
    simp only
    omega
  · simp [built]
  · exact List.Pairwise.nil
  · intro i x hx
    obtain ⟨_, rfl⟩ := built_get _ _ _ _ hx
    simp [built]
  · simp [built]
  · intro i x y _ hy _ hyu
    obtain ⟨_, rfl⟩ := built_get _ _ _ _ hy
    cases hyu
  · intro i x y hx hy _ _
    obtain ⟨_, rfl⟩ := built_get _ _ _ _ hx
    obtain ⟨_, rfl⟩ := built_get _ _ _ _ hy
    simp only [add32]
    rw [Nat.mod_eq_of_lt (by omega)]
    omega

theorem exact_built (n bs raw bound : Nat) :
    Exact (built n bs raw bound).cache.m_handles (built n bs raw bound).live := by
  refine ⟨by simp [built], by simp [built], ?_⟩
  intro i x hx _ hnext
  obtain ⟨_, rfl⟩ := built_get _ _ _ _ hx
  rcases hnext with hend | ⟨y, hy, hyu⟩
  · rw [built_length] at hend
    simp only
    omega
  · obtain ⟨_, rfl⟩ := built_get _ _ _ _ hy
    cases hyu

end strangeio.memory
