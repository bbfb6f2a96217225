-- Where an allocation lands: on the first free blocks in a row that are
-- enough, in every state of the cache. The counts of the table say so also
-- when the offsets of the blocks do not fit 32 bits and a free lands on a
-- handle of another run.
import StrangeIO.CacheLaws

namespace strangeio.memory

/-! ## The counts of a table -/

/-- The `k` blocks from `s` on are free. -/
def Room (hs : List cache_handle) (s k : Nat) : Prop :=
  ∀ j, s ≤ j → j < s + k → ∃ x, hs[j]? = some x ∧ x.in_use = false

/-- The counts of the free handles are exact, and no count reaches past the table. -/
structure Counted (hs : List cache_handle) : Prop where
  links : Links hs
  last : Last hs
  within : ∀ (i : Nat) (x : cache_handle), hs[i]? = some x → x.in_use = true →
    0 < x.num_blocks ∧ i + x.num_blocks ≤ hs.length

section
variable {hs : List cache_handle} {i num : Nat} {x : cache_handle}

theorem room_iff (hs : List cache_handle) (i k : Nat) : Room hs i k ↔ k ≤ freeLength hs i := by
  unfold freeLength
  rw [runs.le_runLength_iff]
  simp [Room]

/-- The count of a handle, in use or free, ends in the table. -/
theorem Counted.ends (h : Counted hs) (hn : hs.length < u32) (hx : hs[i]? = some x) :
    0 < x.num_blocks ∧ i + x.num_blocks ≤ hs.length := by
  cases hxu : x.in_use with
  | true => exact h.within i x hx hxu
  | false =>
    have hlt := (List.getElem?_eq_some_iff.mp hx).1
    have hlen := free_links h.links h.last hn hx hxu
    have hpos := runs.runLength_pos (p := fun x : cache_handle => !x.in_use) hx (by simp [hxu])
    have hle := runs.runLength_le (fun x : cache_handle => !x.in_use) hs (Nat.le_of_lt hlt)
    unfold freeLength at hlen
    omega

/-- A handle fits an allocation just when enough free blocks start at it. -/
theorem Counted.fits_iff (h : Counted hs) (hn : hs.length < u32) (hx : hs[i]? = some x)
    (hnum : 0 < num) : fits num x = true ↔ Room hs i num := by
  rw [room_iff]
  cases hxu : x.in_use with
  | true =>
    have hzero := runs.runLength_neg (p := fun x : cache_handle => !x.in_use) hx (by simp [hxu])
    unfold freeLength
    simp [fits, hxu, hzero]
    omega
  | false => simp [fits, hxu, free_links h.links h.last hn hx hxu]

/-! ## What keeps the counts -/

theorem counted_take (h : Counted hs) (hn : hs.length < u32)
    (hx : hs[firstFit num hs]? = some x) : Counted (takeRun hs (firstFit num hs) num) := by
  have hfit := fits_firstFit hx
  have hend := (h.ends hn hx).2
  refine ⟨links_take h.links hx, last_take h.links h.last hn hx, ?_⟩
  intro i y hy hyu
  rw [takeRun_length]
  obtain ⟨z, hz, ⟨hc, rfl⟩ | ⟨_, rfl⟩⟩ := takeRun_cases hy
  · unfold Extent.Covers at hc
    simp only at hc ⊢
    omega
  · exact h.within i _ hz hyu

theorem counted_free (h : Counted hs) (hn : hs.length < u32) {past : Nat → cache_handle}
    (hpast : (past hs.length).in_use = true) (hx : hs[i]? = some x) :
    Counted (freeRun past hs ⟨i, x.num_blocks⟩) := by
  obtain ⟨hpos, hend⟩ := h.ends hn hx
  have hlt := (List.getElem?_eq_some_iff.mp hx).1
  have hsize := h.links.links_lt i x hx
  refine ⟨links_free h.links past hpos hlt hsize, last_free h.last hpast hpos hend hsize, ?_⟩
  intro j y hy hyu
  rw [freeRun_length]
  obtain ⟨u, hu, hb, hcases⟩ := freeRun_cases past (r := ⟨i, x.num_blocks⟩) hpos hlt hsize
  obtain ⟨z, hz, ⟨_, rfl⟩ | ⟨_, _, hzu, rfl⟩ | ⟨_, rfl⟩⟩ := hcases j y hy
  · cases hyu
  · rw [hzu] at hyu
    cases hyu
  · exact h.within j _ hz hyu

end

/-- A free keeps the counts wherever in the table its pointer falls. -/
theorem counted_free_raw {n bs raw : Nat} {c : cache_manager} (hl : Layout n bs raw c)
    (hn : 1 ≤ n) (hn' : n < u32) (h : Counted c.m_handles) {past : Nat → cache_handle}
    (hpast : (past n).in_use = true) (ptr : PcmPtr) :
    Counted (c.free_raw past ptr).m_handles := by
  have hlen := hl.length
  cases hi : c.index_of ptr with
  | none =>
    unfold cache_manager.free_raw
    rw [hi]
    exact h
  | some i =>
    have hlt := hl.index_lt hn hi
    have hx := List.getElem?_eq_getElem (l := c.m_handles) (i := i) (by omega)
    rw [free_raw_eq (r := ⟨i, (c.m_handles[i]).num_blocks⟩) past hi hx rfl]
    exact counted_free h (by omega) (by rwa [hlen]) hx

theorem counted_built (n bs raw bound : Nat) (hn : 1 ≤ n) (hn' : n < u32) :
    Counted (built n bs raw bound).cache.m_handles := by
  have hs := sound_built n bs raw bound hn hn'
  refine ⟨hs.linked.links, (exact_built n bs raw bound).last, ?_⟩
  intro i x hx hxu
  obtain ⟨_, rfl⟩ := built_get _ _ _ _ hx
  cases hxu

theorem counted_reachable {n bs raw bound : Nat} (hn : 1 ≤ n) (hn' : n < u32) {h : Heap}
    (hr : transition.Reachable ((heaps n bs raw bound).guarded fun _ => ReadsInUse n) h) :
    Layout n bs raw h.cache ∧ Counted h.cache.m_handles := by
  refine hr.keeps (P := fun h => Layout n bs raw h.cache ∧ Counted h.cache.m_handles) ?_ ?_
  · rintro s rfl
    exact ⟨layout_built n bs raw bound hn, counted_built n bs raw bound hn hn'⟩
  · rintro s call t ⟨hl, hc⟩ ⟨hg, hp, rfl⟩
    cases call with
    | alloc num =>
      refine ⟨layout_alloc hl num, ?_⟩
      rcases heap_alloc_cases s num with ⟨x, _, _, hx, he⟩ | ⟨t, he⟩
      · simp only [Heap.call, he]
        exact counted_take hc (by rw [hl.length]; exact hn') hx
      · simp only [Heap.call, he]
        exact hc
    | free past r => exact ⟨layout_free hl past _, counted_free_raw hl hn hn' hc hg _⟩

/-! ## The law -/

/-- The blocks from `s` on are taken: their handles change, and no other. -/
structure Takes (c c' : cache_manager) (s num : Nat) : Prop where
  rest : c' = { c with
    m_handles := c'.m_handles
    m_total := int32 (c.m_total + num)
    m_track_id := c.m_track_id + 1 }
  run : ∀ (j : Nat) (x : cache_handle), s ≤ j → j < s + num → c.m_handles[j]? = some x →
    c'.m_handles[j]? = some { x with in_use := true, num_blocks := num - (j - s) }
  others : ∀ j, j < s ∨ s + num ≤ j → c'.m_handles[j]? = c.m_handles[j]?

theorem takes_taken (c : cache_manager) (s num : Nat) : Takes c (c.taken s num) s num := by
  refine ⟨rfl, ?_, ?_⟩
  · intro j x h1 h2 hx
    simp only [cache_manager.taken, takeRun_get, hx, Option.map_some]
    rw [takeHandle_covered ⟨h1, h2⟩]
  · intro j hj
    simp only [cache_manager.taken, takeRun_get]
    cases c.m_handles[j]? with
    | none => rfl
    | some x =>
      rw [Option.map_some, takeHandle_other]
      unfold Extent.Covers
      simp only
      omega

/-- No room starts before the place where the search ends. -/
theorem Counted.no_room_before {hs : List cache_handle} (h : Counted hs) (hlen : hs.length < u32)
    {num s : Nat} (hpos : 0 < num) (hs' : s < firstFit num hs) : ¬ Room hs s num := by
  intro hroom
  obtain ⟨x, hx, hxu⟩ := hroom s (by omega) (by omega)
  have hfit := (h.fits_iff hlen hx hpos).mpr hroom
  have hsmall := not_fits_before hx hs' hxu
  simp only [fits, hxu, Bool.not_false, Bool.true_and, decide_eq_true_eq] at hfit
  omega

/-- An allocation succeeds just where enough free blocks stand in a row. It
takes the first of them, or it throws and leaves every handle as it was. -/
theorem an_allocation_takes_the_first_room (n bs raw bound : Nat) (hn : 1 ≤ n)
    (hn' : n < 2147483648) (hsize : mul32 bs n ≠ 0) (h : Heap)
    (hr : transition.Reachable ((heaps n bs raw bound).guarded fun _ => ReadsInUse n) h)
    (num : Nat) (id : Int) :
    ((∃ p, (h.cache.alloc_raw num id).1 = .ok p) ↔
      0 < num ∧ ∃ s, Room h.cache.m_handles s num) ∧
    (∀ p, (h.cache.alloc_raw num id).1 = .ok p → ∃ s, Room h.cache.m_handles s num ∧
      (∀ t, Room h.cache.m_handles t num → s ≤ t) ∧ p = some (raw + mul32 s bs) ∧
      Takes h.cache (h.cache.alloc_raw num id).2.2 s num) ∧
    (∀ e, (h.cache.alloc_raw num id).1 = .error e → (h.cache.alloc_raw num id).2.2 =
      { h.cache with m_track_id := h.cache.m_track_id + 1 }) := by
  obtain ⟨hl, hc⟩ := counted_reachable hn (by unfold u32; omega) hr
  have hlen : h.cache.m_handles.length < u32 := by rw [hl.length]; unfold u32; omega
  have hsize' : h.cache.m_cache_size ≠ 0 := hl.cache_size ▸ hsize
  -- nothing fits where the search ends on nothing
  have hnone : 0 < num → h.cache.m_handles[firstFit num h.cache.m_handles]? = none →
      ∀ s, ¬ Room h.cache.m_handles s num := by
    intro hpos hnot s hroom
    obtain ⟨x, hx, -⟩ := hroom s (by omega) (by omega)
    have hlt := (List.getElem?_eq_some_iff.mp hx).1
    have hle : h.cache.m_handles.length ≤ firstFit num h.cache.m_handles :=
      List.getElem?_eq_none_iff.mp hnot
    exact hc.no_room_before hlen hpos (hlt.trans_le hle) hroom
  rcases alloc_raw_cases h.cache num id with ⟨h0, _⟩ | ⟨_, hfail, he⟩ | ⟨_, hpos, x, hx, he⟩
  · exact absurd h0 hsize'
  · rw [he]
    refine ⟨?_, ?_, fun _ _ => rfl⟩
    · constructor
      · rintro ⟨p, hp⟩
        cases hp
      · rintro ⟨hpos, s, hroom⟩
        rcases hfail with rfl | hnot
        · omega
        · exact absurd hroom (hnone hpos hnot s)
    · intro p hp
      cases hp
  · obtain ⟨hfree, hle⟩ := fits_firstFit hx
    have hroom : Room h.cache.m_handles (firstFit num h.cache.m_handles) num :=
      (hc.fits_iff hlen hx hpos).mp (by simp [fits, hfree, hle])
    rw [he]
    refine ⟨⟨fun _ => ⟨hpos, _, hroom⟩, fun _ => ⟨_, rfl⟩⟩, ?_, fun e h => by cases h⟩
    intro p hp
    cases hp
    refine ⟨_, hroom, ?_, ?_, takes_taken _ _ _⟩
    · intro t ht
      by_contra hnot
      exact hc.no_room_before hlen hpos (Nat.lt_of_not_le hnot) ht
    · rw [hl.ptr hx]

/-- The law on a cache of 32 blocks of which the first four are live. -/
theorem a_small_cache_allocates :
    (∃ p, (((built 32 512 0 0).alloc 4).cache.alloc_raw 28 0).1 = .ok p) ↔
      0 < 28 ∧ ∃ s, Room ((built 32 512 0 0).alloc 4).cache.m_handles s 28 := by
  have h0 : transition.Reachable ((heaps 32 512 0 0).guarded fun _ => ReadsInUse 32)
      (built 32 512 0 0) := ⟨_, [], rfl, .nil _⟩
  have h1 := h0.step (.alloc 4) ⟨trivial, trivial, rfl⟩
  exact (an_allocation_takes_the_first_room 32 512 0 0 (by decide) (by decide) (by decide) _ h1
    28 0).1

end strangeio.memory
