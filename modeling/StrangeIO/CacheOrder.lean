-- Frees in any order. The handle table is a function of the set of live
-- runs, so an allocation that is freed leaves no trace, the order of frees
-- does not show, and a cache with nothing live is as it was built.
import Mathlib.Data.List.Nodup
import Mathlib.Data.List.Perm.Subperm
import StrangeIO.CacheLaws

namespace strangeio.memory

/-! ## The table that a set of live runs has -/

/-- Two caches of one layout with the same live runs have the same table. -/
theorem Intact.table_eq {n bs raw : Nat} {g h : Heap} (hg : Intact n bs raw g)
    (hh : Intact n bs raw h) (hn : n < u32) (hlive : ∀ r, r ∈ g.live ↔ r ∈ h.live) :
    g.cache.m_handles = h.cache.m_handles := by
  have hlg := hg.sound.layout.length
  have hlh := hh.sound.layout.length
  have hboth : ∀ i < n, ∃ x y, g.cache.m_handles[i]? = some x ∧ h.cache.m_handles[i]? = some y :=
    fun i hi => ⟨_, _, List.getElem?_eq_getElem (by omega), List.getElem?_eq_getElem (by omega)⟩
  have huse : ∀ (i : Nat) (x y : cache_handle), g.cache.m_handles[i]? = some x →
    h.cache.m_handles[i]? = some y →
      x.in_use = y.in_use := by
    intro i x y hx hy
    rw [Bool.eq_iff_iff, hg.sound.linked.in_use i x hx, hh.sound.linked.in_use i y hy]
    simp only [hlive]
  have hmap : g.cache.m_handles.map (fun x => !x.in_use) =
      h.cache.m_handles.map (fun x => !x.in_use) := by
    apply List.ext_getElem?
    intro i
    by_cases hi : i < n
    · obtain ⟨x, y, hx, hy⟩ := hboth i hi
      simp only [List.getElem?_map, hx, hy, Option.map_some, huse i x y hx hy]
    · rw [List.getElem?_eq_none (by simp; omega), List.getElem?_eq_none (by simp; omega)]
  apply List.ext_getElem?
  intro i
  by_cases hi : i < n
  · obtain ⟨x, y, hx, hy⟩ := hboth i hi
    have hptr : x.ptr = y.ptr := by rw [hg.sound.layout.ptr hx, hh.sound.layout.ptr hy]
    have hsame := huse i x y hx hy
    have hcount : x.num_blocks = y.num_blocks := by
      cases hxu : x.in_use with
      | true =>
        obtain ⟨r, hr, hri⟩ := (hg.sound.linked.in_use i x hx).mp hxu
        obtain ⟨j, rfl⟩ : ∃ j, i = r.start + j :=
          ⟨i - r.start, by unfold Extent.Covers at hri; omega⟩
        have hj : j < r.size := by unfold Extent.Covers at hri; omega
        rw [hg.exact.run_links r hr j x hx hj, hh.exact.run_links r ((hlive r).mp hr) j y hy hj]
      | false =>
        have h1 := free_links hg.sound.linked.links hg.exact.last (by omega) hx hxu
        have h2 := free_links hh.sound.linked.links hh.exact.last (by omega) hy (hsame ▸ hxu)
        rw [h1, h2]
        exact runs.runLength_congr hmap i
    rw [hx, hy]
    cases x
    cases y
    simp_all
  · rw [List.getElem?_eq_none (by omega), List.getElem?_eq_none (by omega)]

/-! ## Frees one after the other -/

/-- Live runs freed in turn, each with what the free finds past the table. -/
def Heap.freeAll (h : Heap) (fs : List ((Nat → cache_handle) × Extent)) : Heap :=
  fs.foldl (fun h f => h.free f.1 f.2) h

theorem freeAll_live (h : Heap) (fs : List ((Nat → cache_handle) × Extent)) :
    (h.freeAll fs).live = h.live.diff (fs.map Prod.snd) := by
  induction fs generalizing h with
  | nil => rfl
  | cons f fs ih =>
    rw [List.map_cons, List.diff_cons]
    exact ih (h.free f.1 f.2)

theorem intact_freeAll {n bs raw : Nat} {h : Heap} (hi : Intact n bs raw h) (hfit : Fits n bs)
    (hbs : 1 ≤ bs) (hn : n < 2147483648) {fs : List ((Nat → cache_handle) × Extent)}
    (hpast : ∀ f ∈ fs, (f.1 n).in_use = true) (hnodup : (fs.map Prod.snd).Nodup)
    (hlive : ∀ r ∈ fs.map Prod.snd, r ∈ h.live) : Intact n bs raw (h.freeAll fs) := by
  induction fs generalizing h with
  | nil => exact hi
  | cons f fs ih =>
    obtain ⟨hnot, hnodup⟩ := List.nodup_cons.mp hnodup
    have hfree := intact_free hi hfit hbs hn (hpast f List.mem_cons_self)
      (hlive f.2 List.mem_cons_self)
    apply ih hfree (fun g hg => hpast g (List.mem_cons_of_mem _ hg)) hnodup
    intro r hr
    have hne : r ≠ f.2 := by
      rintro rfl
      exact hnot hr
    exact (List.mem_erase_of_ne hne).mpr (hlive r (List.mem_cons_of_mem _ hr))

/-! ## The law -/

/-- What frees undo in a state of the cache. -/
structure Undone (n bs raw bound : Nat) (h : Heap) : Prop where
  restored : ∀ (num : Nat) (id : Int) (past : Nat → cache_handle) (p : PcmPtr),
    (past n).in_use = true → (h.cache.alloc_raw num id).1 = .ok p →
    (((h.cache.alloc_raw num id).2.2).free_raw past p).m_handles = h.cache.m_handles ∧
      (((h.cache.alloc_raw num id).2.2).free_raw past p).m_total = h.cache.m_total
  reordered : ∀ fs gs : List ((Nat → cache_handle) × Extent),
    (∀ f ∈ fs ++ gs, (f.1 n).in_use = true) → (fs.map Prod.snd).Nodup →
    (∀ r ∈ fs.map Prod.snd, r ∈ h.live) → (fs.map Prod.snd).Perm (gs.map Prod.snd) →
    (h.freeAll fs).cache.m_handles = (h.freeAll gs).cache.m_handles
  emptied : ∀ fs : List ((Nat → cache_handle) × Extent),
    (∀ f ∈ fs, (f.1 n).in_use = true) → (fs.map Prod.snd).Perm h.live →
    (h.freeAll fs).cache.m_handles = (built n bs raw bound).cache.m_handles

/-- An allocation that finds a run that fits takes it. -/
theorem heap_alloc_eq {h : Heap} {num : Nat} {x : cache_handle} (hsize : h.cache.m_cache_size ≠ 0)
    (hpos : 0 < num) (hx : h.cache.m_handles[firstFit num h.cache.m_handles]? = some x) :
    h.alloc num = ⟨h.cache.taken (firstFit num h.cache.m_handles) num,
      ⟨firstFit num h.cache.m_handles, num⟩ :: h.live⟩ := by
  rcases alloc_raw_cases h.cache num 0 with ⟨h0, _⟩ | ⟨_, h0 | h0, _⟩ | ⟨_, _, y, hy, he⟩
  · exact absurd h0 hsize
  · omega
  · rw [hx] at h0
    cases h0
  · unfold Heap.alloc
    rw [he]

/-- A cache of size 0 gives null, which no free takes. -/
theorem free_raw_null (past : Nat → cache_handle) (c : cache_manager) :
    c.free_raw past none = c := by
  unfold cache_manager.free_raw cache_manager.index_of
  cases c.m_raw_cache <;> rfl

/-- A block that is handed out and given back leaves the table as it was. -/
theorem Intact.restored {n bs raw : Nat} {h : Heap} (hi : Intact n bs raw h) (hfit : Fits n bs)
    (hbs : 1 ≤ bs) (hn : n < 2147483648) {num : Nat} {id : Int} {past : Nat → cache_handle}
    {p : PcmPtr} (hpast : (past n).in_use = true) (hp : (h.cache.alloc_raw num id).1 = .ok p) :
    (((h.cache.alloc_raw num id).2.2).free_raw past p).m_handles = h.cache.m_handles ∧
      (((h.cache.alloc_raw num id).2.2).free_raw past p).m_total = h.cache.m_total := by
  have hn32 : n < u32 := by unfold u32; omega
  have halloc := intact_alloc hi hn num
  rcases alloc_raw_cases h.cache num id with ⟨_, he⟩ | ⟨_, _, he⟩ | ⟨hsize, hpos, x, hx, he⟩
  · rw [he] at hp ⊢
    cases hp
    rw [free_raw_null]
    exact ⟨rfl, rfl⟩
  · rw [he] at hp
    cases hp
  · rw [he] at hp ⊢
    cases hp
    rw [heap_alloc_eq hsize hpos hx] at halloc
    have hmem : (⟨firstFit num h.cache.m_handles, num⟩ : Extent) ∈
        ⟨firstFit num h.cache.m_handles, num⟩ :: h.live := List.mem_cons_self
    have hfree := intact_free halloc hfit hbs hn hpast hmem
    have hptr : Heap.ptrOf ⟨h.cache.taken (firstFit num h.cache.m_handles) num,
        ⟨firstFit num h.cache.m_handles, num⟩ :: h.live⟩
        ⟨firstFit num h.cache.m_handles, num⟩ = some x.ptr := by
      simp [Heap.ptrOf, cache_manager.taken, takeRun_get, hx, takeHandle]
      split <;> rfl
    unfold Heap.free at hfree
    rw [hptr] at hfree
    have htable := hfree.table_eq hi hn32 (fun r => by simp)
    refine ⟨htable, ?_⟩
    rw [hi.total, ← congrArg (List.countP (·.in_use)) htable]
    exact hfree.total

theorem undone_intact {n bs raw bound : Nat} {h : Heap} (hi : Intact n bs raw h) (hn : 1 ≤ n)
    (hn' : n < 2147483648) (hbs : 1 ≤ bs) (hfit : Fits n bs) : Undone n bs raw bound h := by
  have hn32 : n < u32 := by unfold u32; omega
  refine ⟨fun _ _ _ _ hpast hp => hi.restored hfit hbs hn' hpast hp, ?_, ?_⟩
  · intro fs gs hpast hnodup hlive hperm
    have hf := intact_freeAll hi hfit hbs hn' (fun f hf => hpast f (List.mem_append_left _ hf))
      hnodup hlive
    have hg := intact_freeAll hi hfit hbs hn' (fun f hf => hpast f (List.mem_append_right _ hf))
      (hperm.nodup_iff.mp hnodup) (fun r hr => hlive r (hperm.mem_iff.mpr hr))
    apply hf.table_eq hg hn32
    intro r
    rw [freeAll_live, freeAll_live, hperm.diff_left h.live]
  · intro fs hpast hperm
    have hnodup := hi.sound.linked.nodup
    have hf := intact_freeAll hi hfit hbs hn' hpast (hperm.nodup_iff.mpr hnodup)
      (fun r hr => hperm.mem_iff.mp hr)
    apply hf.table_eq (intact_built n bs raw bound hn hn32) hn32
    intro r
    have hnone : r ∉ (h.freeAll fs).live := by
      rw [freeAll_live, hperm.diff_left h.live]
      intro hr
      obtain ⟨h1, h2⟩ := (List.Nodup.mem_sdiff_iff hnodup).mp hr
      exact h2 h1
    simp [hnone, built]

theorem undone_empty {n bs raw bound : Nat} (hn : 1 ≤ n) (hsize : mul32 bs n = 0) :
    Undone n bs raw bound (built n bs raw bound) := by
  have h0 := (layout_built n bs raw bound hn).cache_size.trans hsize
  refine ⟨?_, ?_, ?_⟩
  · intro num id past p _ hp
    rcases alloc_raw_cases (built n bs raw bound).cache num id with ⟨_, he⟩ | ⟨h1, _⟩ | ⟨h1, _⟩
    · rw [he] at hp ⊢
      cases hp
      rw [free_raw_null]
      exact ⟨rfl, rfl⟩
    · exact absurd h0 h1
    · exact absurd h0 h1
  · intro fs gs _ _ hlive hperm
    have hfs : fs.map Prod.snd = [] :=
      List.eq_nil_iff_forall_not_mem.mpr fun r hr => List.not_mem_nil (hlive r hr)
    rw [hfs] at hperm
    rw [List.map_eq_nil_iff.mp hfs, List.map_eq_nil_iff.mp hperm.nil_eq.symm]
  · intro fs _ hperm
    rw [List.map_eq_nil_iff.mp (List.Perm.eq_nil hperm)]
    rfl

/-- Where the offsets do not fit, the last block of a cache that is full
otherwise is not given back where it was taken. -/
theorem last_not_restored {n bs : Nat} (raw bound : Nat) (hn : 1 ≤ n) (hbs : 1 ≤ bs)
    (hfit : ¬ Fits n bs)
    (hsize : mul32 bs n ≠ 0) :
    ∃ h, transition.Reachable ((heaps n bs raw bound).guarded fun _ => ReadsInUse n) h ∧
      ¬ Undone n bs raw bound h := by
  obtain ⟨h, hr, hl, hh, hlive⟩ := reachable_filled raw bound hn hsize (Nat.sub_le n 1)
  refine ⟨h, hr, ?_⟩
  intro hundone
  let past : Nat → cache_handle := fun _ => ⟨0, true, 0⟩
  obtain ⟨m, rfl⟩ : ∃ m, n = m + 1 := ⟨n - 1, by omega⟩
  rw [Nat.add_sub_cancel] at hh hlive
  obtain ⟨hfull, hlive', halloc⟩ := alloc_filled hl hsize (Nat.lt_succ_self m) hh
  obtain ⟨i, hi, _, hmiss⟩ := free_last_misses (layout_alloc hl 1) hn hbs hfit hfull
    (hlive'.trans (by rw [hlive, singles])) past
  rw [Nat.add_sub_cancel] at hi hmiss
  have hptr : (h.alloc 1).ptrOf ⟨m, 1⟩ = some (raw + mul32 m bs) := by
    unfold Heap.ptrOf
    rw [hfull, filled_get (Nat.lt_succ_self m)]
    rfl
  have hback := (hundone.restored 1 0 past _ rfl (by rw [halloc])).1
  rw [halloc, ← hptr] at hback
  -- the last block stays in use, where it was free before
  have hm := hmiss m (Nat.lt_succ_self m)
  unfold Heap.free at hm
  rw [hback, hh, filled_get (Nat.lt_succ_self m)] at hm
  simp at hm
  omega

/-- Frees undo allocations in any order, just where the offset of the last
block fits 32 bits, or where nothing can be allocated. -/
theorem frees_undo_in_any_order (n bs raw bound : Nat) (hn : 1 ≤ n) (hn' : n < 2147483648)
    (hbs : 1 ≤ bs) :
    (∀ h, transition.Reachable ((heaps n bs raw bound).guarded fun _ => ReadsInUse n) h →
      Undone n bs raw bound h) ↔ (Fits n bs ∨ mul32 bs n = 0) := by
  have hn32 : n < u32 := by unfold u32; omega
  constructor
  · intro hall
    by_contra hc
    obtain ⟨hfit, hsize⟩ := not_or.mp hc
    obtain ⟨h, hr, hnot⟩ := last_not_restored raw bound hn hbs hfit hsize
    exact hnot (hall h hr)
  · rintro (hfit | hsize) h hr
    · exact undone_intact (intact_reachable hn hn' hbs hfit hr) hn hn' hbs hfit
    · rw [empty_keeps hn hsize hr]
      exact undone_empty hn hsize

/-- The law on a cache of 32 blocks with two live runs. -/
theorem a_small_cache_undoes :
    Undone 32 512 0 0 (((built 32 512 0 0).alloc 4).alloc 7) := by
  have h0 : transition.Reachable ((heaps 32 512 0 0).guarded fun _ => ReadsInUse 32)
      (built 32 512 0 0) := ⟨_, [], rfl, .nil _⟩
  have h1 := h0.step (.alloc 4) ⟨trivial, trivial, rfl⟩
  have h2 := h1.step (.alloc 7) ⟨trivial, trivial, rfl⟩
  exact (frees_undo_in_any_order 32 512 0 0 (by decide) (by decide) (by decide)).mpr
    (Or.inl (by unfold Fits; decide)) _ h2

/-- Three blocks of 2^31 samples, of which the third starts where the first
does: given back, the third leaves the first one free in its place. -/
theorem a_wrapped_table_frees_the_wrong_block :
    ¬ ∀ n bs raw bound : Nat, 1 ≤ n → n < 2147483648 → 1 ≤ bs →
      ∀ h, transition.Reachable ((heaps n bs raw bound).guarded fun _ => ReadsInUse n) h →
        Undone n bs raw bound h := by
  intro hall
  let past : Nat → cache_handle := fun _ => ⟨0, true, 0⟩
  let h := ((built 3 2147483648 0 0).alloc 1).alloc 1
  have h0 : transition.Reachable ((heaps 3 2147483648 0 0).guarded fun _ => ReadsInUse 3)
      (built 3 2147483648 0 0) := ⟨_, [], rfl, .nil _⟩
  have h1 := h0.step (.alloc 1) ⟨trivial, trivial, rfl⟩
  have h2 : transition.Reachable ((heaps 3 2147483648 0 0).guarded fun _ => ReadsInUse 3) h :=
    h1.step (.alloc 1) ⟨trivial, trivial, rfl⟩
  have hundone := hall 3 2147483648 0 0 (by decide) (by decide) (by decide) _ h2
  have hback := (hundone.restored 1 0 past (some 0) rfl (by decide)).1
  exact absurd hback (by decide)

end strangeio.memory
