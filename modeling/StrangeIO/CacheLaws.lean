-- The laws of the cache allocator. The handle table represents the live
-- runs after every sequence of calls, as long as the offsets of the blocks
-- fit 32 bits: past that, `build_cache` gives two handles one address.
import StrangeIO.CacheHeap

namespace strangeio.memory

/-! ## The representation -/

/-- The free reads a handle in use where it looks past the table. -/
def ReadsInUse (n : Nat) : Call → Prop
  | .alloc _ => True
  | .free past _ => (past n).in_use = true

/-- What the handle table says of the live runs. -/
structure Represents (n : Nat) (h : Heap) : Prop where
  length : h.cache.m_handles.length = n
  inside : ∀ r ∈ h.live, 0 < r.size ∧ r.start + r.size ≤ n
  apart : h.live.Pairwise Extent.Apart
  in_use : ∀ (i : Nat) (x : cache_handle), h.cache.m_handles[i]? = some x →
    (x.in_use = true ↔ ∃ r ∈ h.live, r.Covers i)
  run_links : ∀ r ∈ h.live, ∀ (j : Nat) (x : cache_handle), j < r.size →
    h.cache.m_handles[r.start + j]? = some x → x.num_blocks = r.size - j
  free_links : ∀ (i : Nat) (x : cache_handle), h.cache.m_handles[i]? = some x →
    x.in_use = false → x.num_blocks = freeLength h.cache.m_handles i
  total : h.cache.m_total = h.cache.m_handles.countP (·.in_use)

/-- The invariant of the runs that never read a free handle past the table. -/
structure Intact (n bs raw : Nat) (h : Heap) : Prop where
  sound : Sound n bs raw h
  exact : Exact h.cache.m_handles h.live
  total : h.cache.m_total = h.cache.m_handles.countP (·.in_use)

theorem Intact.represents {n bs raw : Nat} {h : Heap} (hi : Intact n bs raw h) (hn : n < u32) :
    Represents n h := by
  have hlen := hi.sound.layout.length
  refine ⟨hlen, ?_, hi.sound.linked.apart, hi.sound.linked.in_use, ?_, ?_, hi.total⟩
  · intro r hr
    exact ⟨(hi.sound.linked.inside r hr).1, hlen ▸ hi.exact.within r hr⟩
  · intro r hr j x hj hx
    exact hi.exact.run_links r hr j x hx hj
  · intro i x hx hxu
    exact free_links hi.sound.linked.links hi.exact.last (hlen ▸ hn) hx hxu

/-- An `int` holds every count of a table of fewer than 2^31 handles. -/
theorem int32_of_nat {k : Nat} (h : k < 2147483648) : int32 k = k := by
  unfold int32 u32
  rw [Int.bmod_eq_of_le] <;> omega

theorem intact_alloc {n bs raw : Nat} {h : Heap} (hi : Intact n bs raw h)
    (hn : n < 2147483648) (num : Nat) : Intact n bs raw (h.alloc num) := by
  have hlen := hi.sound.layout.length
  rcases heap_alloc_cases h num with ⟨x, _, hpos, hx, he⟩ | ⟨t, he⟩
  · have hexact : Exact (h.alloc num).cache.m_handles (h.alloc num).live := by
      rw [he]
      exact exact_take hi.sound.linked hi.exact (by unfold u32; omega) hx
    refine ⟨sound_alloc hi.sound num, hexact, ?_⟩
    have hend : firstFit num h.cache.m_handles + num ≤ h.cache.m_handles.length := by
      have := hexact.within ⟨firstFit num h.cache.m_handles, num⟩ (by rw [he]; simp)
      rw [he] at this
      simpa [cache_manager.taken] using this
    have hfree : ∀ (j : Nat) (y : cache_handle), firstFit num h.cache.m_handles ≤ j →
        j < firstFit num h.cache.m_handles + num → h.cache.m_handles[j]? = some y →
        y.in_use = false := by
      intro j y h1 h2 hy
      by_contra hc
      obtain ⟨r, hr, hrj⟩ := (hi.sound.linked.in_use j y hy).mp (by simpa using hc)
      exact Extent.not_covers_of_apart (hi.sound.linked.apart_firstFit hx hr) ⟨h1, h2⟩ hrj
    have hcount := takeRun_count hend hfree
    have hle : (takeRun h.cache.m_handles (firstFit num h.cache.m_handles) num).countP
        (·.in_use) ≤ n := by
      have := List.countP_le_length (p := fun x : cache_handle => x.in_use)
        (l := takeRun h.cache.m_handles (firstFit num h.cache.m_handles) num)
      rw [takeRun_length] at this
      omega
    rw [he]
    simp only [cache_manager.taken, hi.total]
    rw [hcount] at hle ⊢
    exact_mod_cast int32_of_nat (by omega)
  · rw [he]
    obtain ⟨⟨⟨h1, h2, h3, h4, h5⟩, hl⟩, hx, ht⟩ := hi
    exact ⟨⟨⟨h1, h2, h3, h4, h5⟩, hl⟩, hx, ht⟩

theorem intact_free {n bs raw : Nat} {h : Heap} (hi : Intact n bs raw h) (hfit : Fits n bs)
    (hbs : 1 ≤ bs) (hn : n < 2147483648) {past : Nat → cache_handle}
    (hpast : (past n).in_use = true) {r : Extent} (hr : r ∈ h.live) :
    Intact n bs raw (h.free past r) := by
  have hlen := hi.sound.layout.length
  refine ⟨sound_free hi.sound hfit hbs past hr, ?_, ?_⟩
  · rw [heap_free_eq hi.sound hfit hbs past hr]
    exact exact_free hi.sound.linked hi.exact (hlen ▸ hpast) hr
  · rw [heap_free_eq hi.sound hfit hbs past hr]
    have hcount := freeRun_count hi.sound.linked past hr (hi.exact.within r hr)
    have hle := List.countP_le_length (p := fun x : cache_handle => x.in_use)
      (l := h.cache.m_handles)
    simp only [hi.total]
    rw [hcount, Int.natCast_add, Int.add_sub_cancel]
    exact int32_of_nat (by omega)

/-! ## A cache that is full of single blocks -/

/-- The table after `t` allocations of one block each. -/
def filled (n bs raw t : Nat) : List cache_handle :=
  (List.range n).map fun j =>
    { ptr := raw + mul32 j bs, in_use := decide (j < t), num_blocks := if j < t then 1 else n - j }

/-- The runs of those allocations, the last one first. -/
def singles : Nat → List Extent
  | 0 => []
  | t + 1 => ⟨t, 1⟩ :: singles t

theorem mem_singles {t : Nat} {r : Extent} : r ∈ singles t ↔ r.start < t ∧ r.size = 1 := by
  induction t with
  | zero => simp [singles]
  | succ t ih =>
    rw [singles, List.mem_cons, ih]
    obtain ⟨s, k⟩ := r
    simp only [Extent.mk.injEq]
    omega

theorem filled_get {n bs raw t j : Nat} (hj : j < n) :
    (filled n bs raw t)[j]? =
      some { ptr := raw + mul32 j bs, in_use := decide (j < t),
             num_blocks := if j < t then 1 else n - j } := by
  simp [filled, hj]

theorem firstFit_filled {n bs raw t : Nat} (ht : t < n) : firstFit 1 (filled n bs raw t) = t := by
  have hlen : (filled n bs raw t).length = n := by simp [filled]
  rw [firstFit, List.findIdx_eq (by omega)]
  constructor
  · simp [filled, fits]
    omega
  · intro j hj
    simp [filled, fits, hj]

theorem takeRun_filled {n bs raw t : Nat} :
    takeRun (filled n bs raw t) t 1 = filled n bs raw (t + 1) := by
  apply List.ext_getElem?
  intro j
  rw [takeRun_get]
  by_cases hj : j < n
  · rw [filled_get hj, filled_get hj, Option.map_some, Option.some.injEq]
    rcases Nat.lt_trichotomy j t with h | rfl | h
    · rw [takeHandle_other (by unfold Extent.Covers; simp only; omega)]
      simp [h, Nat.lt_succ_of_lt h]
    · rw [takeHandle_covered (by unfold Extent.Covers; simp only; omega)]
      simp
    · rw [takeHandle_other (by unfold Extent.Covers; simp only; omega)]
      simp [show ¬ j < t by omega, show ¬ j < t + 1 by omega]
  · rw [List.getElem?_eq_none (by simp [filled]; omega),
      List.getElem?_eq_none (by simp [filled]; omega)]
    rfl

/-- One more block, while the table has one free. -/
theorem alloc_filled {n bs raw t : Nat} {h : Heap} (hl : Layout n bs raw h.cache)
    (hsize : mul32 bs n ≠ 0) (ht : t < n) (hh : h.cache.m_handles = filled n bs raw t) :
    (h.alloc 1).cache.m_handles = filled n bs raw (t + 1) ∧
      (h.alloc 1).live = ⟨t, 1⟩ :: h.live ∧
      h.cache.alloc_raw 1 0 =
        (.ok (some (raw + mul32 t bs)), h.cache.m_track_id + 1, (h.alloc 1).cache) := by
  have hfit : firstFit 1 h.cache.m_handles = t := by rw [hh]; exact firstFit_filled ht
  have hget : (filled n bs raw t)[t]?.isSome := by rw [filled_get ht]; rfl
  rcases alloc_raw_cases h.cache 1 0 with ⟨h0, _⟩ | ⟨_, hbad, _⟩ | ⟨_, _, x, hx, he⟩
  · exact absurd (hl.cache_size ▸ h0) hsize
  · rw [hfit, hh] at hbad
    rcases hbad with hbad | hbad
    · cases hbad
    · rw [hbad] at hget
      cases hget
  · rw [hfit] at hx he
    have hp := hl.ptr hx
    rw [hp] at he
    unfold Heap.alloc
    rw [he]
    refine ⟨?_, ?_, rfl⟩
    · simp only [cache_manager.taken, hh, takeRun_filled]
    · simp only [hfit]

theorem built_filled (n bs raw bound : Nat) :
    (built n bs raw bound).cache.m_handles = filled n bs raw 0 := by
  apply List.ext_getElem?
  intro j
  by_cases hj : j < n
  · rw [filled_get hj]
    simp [built, cache_manager.make, cache_manager.build_cache, build_handles_get _ _ _ _ _ hj]
  · rw [List.getElem?_eq_none (by rw [built_length]; omega),
      List.getElem?_eq_none (by simp [filled]; omega)]

/-- `t` allocations of one block each fill the first `t` handles. -/
theorem reachable_filled {n bs : Nat} (raw bound : Nat) (hn : 1 ≤ n)
    (hsize : mul32 bs n ≠ 0) {t : Nat}
    (ht : t ≤ n) :
    ∃ h, transition.Reachable ((heaps n bs raw bound).guarded fun _ => ReadsInUse n) h ∧
      Layout n bs raw h.cache ∧ h.cache.m_handles = filled n bs raw t ∧ h.live = singles t := by
  induction t with
  | zero =>
    exact ⟨_, ⟨_, [], rfl, .nil _⟩, layout_built n bs raw bound hn,
      built_filled n bs raw bound, rfl⟩
  | succ t ih =>
    obtain ⟨h, hr, hl, hh, hlive⟩ := ih (by omega)
    obtain ⟨h1, h2, _⟩ := alloc_filled hl hsize (by omega) hh
    refine ⟨h.alloc 1, hr.step (.alloc 1) ⟨trivial, trivial, rfl⟩, ?_, h1, ?_⟩
    · exact layout_alloc hl 1
    · rw [h2, hlive, singles]

/-- Where the offsets do not fit, the pointer of the last block falls on an
earlier handle of a table that is full of single blocks. -/
theorem last_falls_short {n bs raw : Nat} {c : cache_manager} (hl : Layout n bs raw c)
    (hbs : 1 ≤ bs) (hfit : ¬ Fits n bs) :
    ∃ i, i < n - 1 ∧ c.index_of (some (raw + mul32 (n - 1) bs)) = some i := by
  have hlt : mul32 (n - 1) bs < (n - 1) * bs := by
    unfold Fits at hfit
    have : mul32 (n - 1) bs < u32 := Nat.mod_lt _ (by decide)
    omega
  refine ⟨mul32 (n - 1) bs / bs, (Nat.div_lt_iff_lt_mul (by omega)).mpr hlt, ?_⟩
  have hb := hl.bound
  have hnot : ¬ (raw + mul32 (n - 1) bs < raw ∨ c.m_bound < raw + mul32 (n - 1) bs) := by omega
  simp only [cache_manager.index_of, hl.raw_cache, hnot, if_false, hl.block_size]
  rw [Nat.add_sub_cancel_left]

/-- Freeing the last block then frees another block, which stays live. -/
theorem free_last_misses {n bs raw : Nat} {h : Heap} (hl : Layout n bs raw h.cache)
    (hn : 1 ≤ n) (hbs : 1 ≤ bs) (hfit : ¬ Fits n bs)
    (hh : h.cache.m_handles = filled n bs raw n) (hlive : h.live = singles n)
    (past : Nat → cache_handle) :
    ∃ i, i < n - 1 ∧ (h.free past ⟨n - 1, 1⟩).live = singles (n - 1) ∧
      ∀ j < n, (h.free past ⟨n - 1, 1⟩).cache.m_handles[j]? =
        some ⟨raw + mul32 j bs, decide (j ≠ i), 1⟩ := by
  obtain ⟨i, hi, hidx⟩ := last_falls_short hl hbs hfit
  have hget : ∀ j < n, h.cache.m_handles[j]? = some ⟨raw + mul32 j bs, true, 1⟩ := by
    intro j hj
    rw [hh, filled_get hj]
    simp [hj]
  have hptr : h.ptrOf ⟨n - 1, 1⟩ = some (raw + mul32 (n - 1) bs) := by
    unfold Heap.ptrOf
    rw [hget (n - 1) (by omega)]
    rfl
  refine ⟨i, hi, ?_, ?_⟩
  · obtain ⟨m, rfl⟩ : ∃ m, n = m + 1 := ⟨n - 1, by omega⟩
    simp only [Heap.free, hlive, singles, Nat.add_sub_cancel, List.erase_cons_head]
  · have hlt : i < h.cache.m_handles.length := by rw [hl.length]; omega
    have hlink : free_link past h.cache.m_handles i 1 = 1 := by
      simp [free_link, handle_at, hget (i + 1) (by omega)]
    obtain ⟨u, hu, _, hcases⟩ := freeRun_cases past (r := ⟨i, 1⟩)
      Nat.one_pos hlt (show 1 < u32 by decide)
    unfold Heap.free
    rw [hptr, free_raw_eq (r := ⟨i, 1⟩) past hidx (hget i (by omega)) rfl]
    simp only at hlink hcases hu
    rw [hlink] at hcases
    intro j hj
    obtain ⟨y, hy⟩ : ∃ y, (freeRun past h.cache.m_handles ⟨i, 1⟩)[j]? = some y :=
      ⟨_, List.getElem?_eq_getElem (by rw [freeRun_length, hl.length]; exact hj)⟩
    simp only [hy]
    obtain ⟨x, hx, ⟨hc, rfl⟩ | ⟨_, _, hxu, _⟩ | ⟨hout, rfl⟩⟩ := hcases j y hy
    · have hji : j = i := by unfold Extent.Covers at hc; simp only at hc; omega
      subst hji
      rw [hget j hj] at hx
      cases hx
      simp [freeHandle, sub32, u32]
    · rw [hget j hj] at hx
      cases hx
      cases hxu
    · have hji : j ≠ i := by omega
      rw [hget j hj] at hx
      cases hx
      simp [hji]

/-! ## The laws -/

/-- A cache of size 0 never hands out a block. -/
theorem empty_keeps {n bs raw bound : Nat} (hn : 1 ≤ n) (hsize : mul32 bs n = 0) {h : Heap}
    (hr : transition.Reachable ((heaps n bs raw bound).guarded fun _ => ReadsInUse n) h) :
    h = built n bs raw bound := by
  refine hr.keeps (P := fun h => h = built n bs raw bound) (fun _ hs => hs) ?_
  rintro s call t rfl ⟨_, hp, rfl⟩
  have hl := layout_built n bs raw bound hn
  cases call with
  | alloc num =>
    have h0 : (built n bs raw bound).cache.m_cache_size = 0 := hl.cache_size.trans hsize
    rcases alloc_raw_cases (built n bs raw bound).cache num 0 with ⟨_, he⟩ | ⟨h1, _⟩ | ⟨h1, _⟩
    · simp only [Heap.call, Heap.alloc, he]
    · exact absurd h0 h1
    · exact absurd h0 h1
  | free past r => exact absurd hp (by simp [Heap.Permits, built])

theorem intact_built (n bs raw bound : Nat) (hn : 1 ≤ n) (hn' : n < u32) :
    Intact n bs raw (built n bs raw bound) := by
  refine ⟨sound_built n bs raw bound hn hn', exact_built n bs raw bound, ?_⟩
  have hfree : (built n bs raw bound).cache.m_handles.countP (·.in_use) = 0 := by
    rw [List.countP_eq_zero]
    intro x hx
    obtain ⟨i, hi⟩ := List.getElem?_of_mem hx
    obtain ⟨_, rfl⟩ := built_get _ _ _ _ hi
    simp
  rw [hfree]
  rfl

theorem intact_reachable {n bs raw bound : Nat} (hn : 1 ≤ n) (hn' : n < 2147483648)
    (hbs : 1 ≤ bs) (hfit : Fits n bs) {h : Heap}
    (hr : transition.Reachable ((heaps n bs raw bound).guarded fun _ => ReadsInUse n) h) :
    Intact n bs raw h := by
  refine hr.keeps ?_ ?_
  · rintro s rfl
    exact intact_built n bs raw bound hn (by unfold u32; omega)
  · rintro s call t hi ⟨hg, hp, rfl⟩
    cases call with
    | alloc num => exact intact_alloc hi hn' num
    | free past r => exact intact_free hi hfit hbs hn' hg hp

/-- The table represents the live runs after every sequence of calls, just
where the offset of the last block fits 32 bits, or where the size of the
cache wraps to 0 and nothing can be allocated. -/
theorem the_table_represents_the_live_runs (n bs raw bound : Nat) (hn : 1 ≤ n)
    (hn' : n < 2147483648) (hbs : 1 ≤ bs) :
    (∀ h, transition.Reachable ((heaps n bs raw bound).guarded fun _ => ReadsInUse n) h →
      Represents n h) ↔ (Fits n bs ∨ mul32 bs n = 0) := by
  have hn32 : n < u32 := by unfold u32; omega
  constructor
  · intro hall
    by_contra hc
    obtain ⟨hfit, hsize⟩ := not_or.mp hc
    obtain ⟨h, hr, hl, hh, hlive⟩ := reachable_filled raw bound hn hsize (Nat.le_refl n)
    let past : Nat → cache_handle := fun _ => ⟨0, true, 0⟩
    have hlast : (⟨n - 1, 1⟩ : Extent) ∈ h.live := by
      rw [hlive, mem_singles]
      exact ⟨show n - 1 < n by omega, rfl⟩
    have hrep := hall _ (hr.step (.free past ⟨n - 1, 1⟩) ⟨rfl, hlast, rfl⟩)
    obtain ⟨i, hi, hlive', hget⟩ := free_last_misses hl hn hbs hfit hh hlive past
    have hmem : (⟨i, 1⟩ : Extent) ∈ (h.free past ⟨n - 1, 1⟩).live := by
      rw [hlive', mem_singles]
      exact ⟨hi, rfl⟩
    have := (hrep.in_use i _ (hget i (by omega))).mpr ⟨_, hmem, Extent.covers_start Nat.one_pos⟩
    simp at this
  · rintro (hfit | hsize) h hr
    · exact (intact_reachable hn hn' hbs hfit hr).represents hn32
    · rw [empty_keeps hn hsize hr]
      exact (intact_built n bs raw bound hn hn32).represents hn32

/-- The law after an allocation and a free, on a cache as the tests build it. -/
theorem a_small_cache_represents :
    Represents 32 (((built 32 512 0 0).alloc 32).free (fun _ => ⟨0, true, 0⟩) ⟨0, 32⟩) := by
  have h0 : transition.Reachable ((heaps 32 512 0 0).guarded fun _ => ReadsInUse 32)
      (built 32 512 0 0) := ⟨_, [], rfl, .nil _⟩
  have h1 := h0.step (.alloc 32) ⟨trivial, trivial, rfl⟩
  have hlive : (⟨0, 32⟩ : Extent) ∈ ((built 32 512 0 0).alloc 32).live := by decide
  have h2 := h1.step (.free (fun _ => ⟨0, true, 0⟩) ⟨0, 32⟩) ⟨rfl, hlive, rfl⟩
  exact (the_table_represents_the_live_runs 32 512 0 0 (by decide) (by decide) (by decide)).mpr
    (Or.inl (by unfold Fits; decide)) _ h2

/-- Three blocks of 2^31 samples: the third starts where the first does, so
the bound of the cache lies before the second, and a free of it is turned away. -/
theorem a_wrapped_table_keeps_a_freed_block :
    ¬ ∀ n bs raw bound : Nat, 1 ≤ n → n < 2147483648 → 1 ≤ bs →
      ∀ h, transition.Reachable ((heaps n bs raw bound).guarded fun _ => ReadsInUse n) h →
        Represents n h := by
  intro hall
  let past : Nat → cache_handle := fun _ => ⟨0, true, 0⟩
  let h := ((built 3 2147483648 0 0).alloc 1).alloc 1
  have hreach : transition.Reachable
      ((heaps 3 2147483648 0 0).guarded fun _ => ReadsInUse 3) (h.free past ⟨1, 1⟩) := by
    have h0 : transition.Reachable ((heaps 3 2147483648 0 0).guarded fun _ => ReadsInUse 3)
        (built 3 2147483648 0 0) := ⟨_, [], rfl, .nil _⟩
    have h1 := h0.step (.alloc 1) ⟨trivial, trivial, rfl⟩
    have h2 := h1.step (.alloc 1) ⟨trivial, trivial, rfl⟩
    have hlive : (⟨1, 1⟩ : Extent) ∈ h.live := by decide
    exact h2.step (.free past ⟨1, 1⟩) ⟨rfl, hlive, rfl⟩
  have hrep := hall 3 2147483648 0 0 (by decide) (by decide) (by decide) _ hreach
  have hget : (h.free past ⟨1, 1⟩).cache.m_handles[1]? = some ⟨2147483648, true, 1⟩ := by decide
  obtain ⟨r, hr, hc⟩ := (hrep.in_use 1 _ hget).mp rfl
  have hlive : (h.free past ⟨1, 1⟩).live = [⟨0, 1⟩] := by decide
  rw [hlive, List.mem_singleton] at hr
  subst hr
  exact absurd hc (by decide)

/-! ## The indices into the table -/

/-- The run of the table that a free of `ptr` takes: it starts where the
pointer falls, and is as long as the handle there says. -/
def cache_manager.addressed (c : cache_manager) (ptr : PcmPtr) : Option Extent :=
  (c.index_of ptr).bind fun i => c.m_handles[i]?.map fun x => ⟨i, x.num_blocks⟩

theorem allocate_loop_indices_lt (num toggle i : Nat) (hs : List cache_handle) :
    ∀ j ∈ allocate_loop_indices num toggle i hs, j < i + hs.length := by
  induction hs generalizing toggle i with
  | nil => simp [allocate_loop_indices]
  | cons x hs ih =>
    have hrest : ∀ t, ∀ j ∈ i :: allocate_loop_indices num t (i + 1) hs,
        j < i + (x :: hs).length := by
      intro t j hj
      rw [List.length_cons]
      rcases List.mem_cons.mp hj with rfl | hj
      · omega
      · have := ih t (i + 1) j hj
        omega
    intro j hj
    unfold allocate_loop_indices at hj
    split at hj
    · rw [List.mem_singleton.mp hj, List.length_cons]
      omega
    · split at hj
      · exact hrest _ j hj
      · split at hj
        · exact hrest _ j hj
        · exact hrest _ j hj

theorem relink_indices_lt (i : Nat) (hs : List cache_handle) :
    ∀ j ∈ relink_indices i hs, j < i := by
  induction i with
  | zero => simp [relink_indices]
  | succ i ih =>
    intro j hj
    unfold relink_indices at hj
    split at hj
    · rw [List.mem_singleton.mp hj]
      omega
    · split at hj
      · rw [List.mem_singleton.mp hj]
        omega
      · rcases List.mem_cons.mp hj with rfl | hj
        · omega
        · exact Nat.lt_succ_of_lt (ih j hj)

/-- A free stays in the table just when the handle after the run that it
frees is in the table. -/
theorem free_raw_indices_lt {n bs raw : Nat} {c : cache_manager} (hl : Layout n bs raw c)
    (hn : 1 ≤ n) (past : Nat → cache_handle) (ptr : PcmPtr) :
    (∀ i ∈ c.free_raw_indices past ptr, i < n) ↔
      ∀ e, c.addressed ptr = some e → e.start + e.size < n := by
  unfold cache_manager.free_raw_indices cache_manager.addressed
  rcases hi : c.index_of ptr with _ | index
  · simp
  have hlt := hl.index_lt hn hi
  obtain ⟨x, hx⟩ : ∃ x, c.m_handles[index]? = some x :=
    ⟨_, List.getElem?_eq_getElem (by rw [hl.length]; exact hlt)⟩
  simp only [Option.bind_some, handle_at, hx, Option.getD_some, Option.map_some]
  generalize x.num_blocks = blocks
  constructor
  · rintro h e he
    cases he
    exact h (index + blocks) (by simp)
  · intro h i hmem
    have hnext : index + blocks < n := h _ rfl
    simp only [List.cons_append, List.nil_append, List.mem_cons, List.mem_append,
      List.mem_map, List.mem_range] at hmem
    rcases hmem with rfl | rfl | ⟨k, hk, rfl⟩ | hup
    · exact hlt
    · exact hnext
    · omega
    · have := relink_indices_lt _ _ i hup
      omega

theorem layout_reachable {n bs raw bound : Nat} (hn : 1 ≤ n) {h : Heap}
    (hr : transition.Reachable (heaps n bs raw bound) h) : Layout n bs raw h.cache := by
  refine hr.keeps (P := fun h => Layout n bs raw h.cache) ?_ ?_
  · rintro s rfl
    exact layout_built n bs raw bound hn
  · rintro s call t hl ⟨_, rfl⟩
    cases call with
    | alloc num => exact layout_alloc hl num
    | free past r => exact layout_free hl past _

theorem sound_reachable {n bs raw bound : Nat} (hn : 1 ≤ n) (hn' : n < u32) (hbs : 1 ≤ bs)
    (hfit : Fits n bs) {h : Heap} (hr : transition.Reachable (heaps n bs raw bound) h) :
    Sound n bs raw h := by
  refine hr.keeps ?_ ?_
  · rintro s rfl
    exact sound_built n bs raw bound hn hn'
  · rintro s call t hs ⟨hp, rfl⟩
    cases call with
    | alloc num => exact sound_alloc hs num
    | free past r => exact sound_free hs hfit hbs past hp

/-- Every allocation stays in the table. A free stays in it just when the
run that it frees ends before the last block: where the offsets of the blocks
fit 32 bits, that run is the live run itself. -/
theorem a_free_stays_in_the_table_before_the_last_block (n bs raw bound : Nat) (hn : 1 ≤ n)
    (hn' : n < u32) (hbs : 1 ≤ bs) (h : Heap)
    (hr : transition.Reachable (heaps n bs raw bound) h) :
    (∀ num, ∀ i ∈ h.cache.allocate_indices num, i < n) ∧
      (∀ past, ∀ r ∈ h.live, (∀ i ∈ h.cache.free_raw_indices past (h.ptrOf r), i < n) ↔
        ∀ e, h.cache.addressed (h.ptrOf r) = some e → e.start + e.size < n) ∧
      (Fits n bs → ∀ r ∈ h.live, h.cache.addressed (h.ptrOf r) = some r) := by
  have hl := layout_reachable hn hr
  refine ⟨?_, ?_, ?_⟩
  · intro num i hi
    have := allocate_loop_indices_lt num num 0 _ i hi
    rwa [Nat.zero_add, hl.length] at this
  · intro past r _
    exact free_raw_indices_lt hl hn past _
  · intro hfit r hmem
    have hs := sound_reachable hn hn' hbs hfit hr
    obtain ⟨x, hx, _⟩ := hs.linked.start_in_use hmem
    have hi := hl.index_ptr hfit hbs hx
    simp only [cache_manager.addressed, Heap.ptrOf, hx, Option.map_some, hi, Option.bind_some,
      hs.linked.head r hmem x hx]

/-- The law on a cache of 32 blocks of which the first four are live. -/
theorem a_free_at_the_start_stays_in_the_table :
    (⟨0, 4⟩ : Extent) ∈ ((built 32 512 0 0).alloc 4).live ∧
      ∀ i ∈ ((built 32 512 0 0).alloc 4).cache.free_raw_indices (fun _ => ⟨0, false, 7⟩)
        (((built 32 512 0 0).alloc 4).ptrOf ⟨0, 4⟩), i < 32 := by
  have h0 : transition.Reachable (heaps 32 512 0 0) (built 32 512 0 0) := ⟨_, [], rfl, .nil _⟩
  have h1 := h0.step (.alloc 4) ⟨trivial, rfl⟩
  obtain ⟨_, h2, h3⟩ := a_free_stays_in_the_table_before_the_last_block 32 512 0 0 (by decide)
    (by decide) (by decide) _ h1
  have hlive : (⟨0, 4⟩ : Extent) ∈ ((built 32 512 0 0).alloc 4).live := by decide
  refine ⟨hlive, (h2 _ _ hlive).mpr ?_⟩
  intro e he
  have := (h3 (by unfold Fits; decide) _ hlive).symm.trans he
  cases this
  decide

/-- A free of the whole cache looks at the handle past the last one. -/
theorem a_free_of_the_whole_cache_leaves_the_table :
    ¬ ∀ n bs raw bound : Nat, 1 ≤ n → n < u32 → 1 ≤ bs →
      ∀ h, transition.Reachable (heaps n bs raw bound) h →
        ∀ past, ∀ r ∈ h.live, ∀ i ∈ h.cache.free_raw_indices past (h.ptrOf r), i < n := by
  intro hall
  let h := (built 2 4 0 0).alloc 2
  have h0 : transition.Reachable (heaps 2 4 0 0) (built 2 4 0 0) := ⟨_, [], rfl, .nil _⟩
  have h1 : transition.Reachable (heaps 2 4 0 0) h := h0.step (.alloc 2) ⟨trivial, rfl⟩
  have hlive : (⟨0, 2⟩ : Extent) ∈ h.live := by decide
  have hidx : 2 ∈ h.cache.free_raw_indices (fun _ => ⟨0, true, 0⟩) (h.ptrOf ⟨0, 2⟩) := by decide
  have := hall 2 4 0 0 (by decide) (by decide) (by decide) h h1 _ _ hlive 2 hidx
  omega

end strangeio.memory
