-- The invariant of the cache table. Every call of the allocator keeps the
-- links of the table, also when a free reads past it. Where what it reads
-- there is in use, the free counts stay exact as well.
import Mathlib.Data.List.Pairwise
import StrangeIO.CacheLoops
import StrangeIO.Runs

namespace strangeio.memory

/-! ## Runs of blocks -/

/-- A run of blocks of the table. -/
structure Extent where
  start : Nat
  size : Nat
deriving DecidableEq, Repr

def Extent.Covers (r : Extent) (i : Nat) : Prop := r.start ≤ i ∧ i < r.start + r.size

instance (r : Extent) (i : Nat) : Decidable (r.Covers i) :=
  inferInstanceAs (Decidable (_ ∧ _))

def Extent.Apart (a b : Extent) : Prop :=
  a.start + a.size ≤ b.start ∨ b.start + b.size ≤ a.start

instance (a b : Extent) : Decidable (a.Apart b) := inferInstanceAs (Decidable (_ ∨ _))

instance : Std.Symm Extent.Apart := ⟨fun _ _ h => Or.symm h⟩

/-- Two runs that are apart share no block. -/
theorem Extent.not_covers_of_apart {a b : Extent} {i : Nat} (h : a.Apart b) (ha : a.Covers i) :
    ¬ b.Covers i := by
  unfold Extent.Apart at h
  unfold Extent.Covers at *
  omega

theorem Extent.covers_start {r : Extent} (h : 0 < r.size) : r.Covers r.start := by
  unfold Extent.Covers; omega

/-! ## The links of the table -/

/-- The links of the table, for the runs in use. A free handle counts one
more than the free handle after it, and at most 1 before a handle in use.
What the last handle counts is left open: a free that ends on the last
block reads its count past the table. -/
structure Linked (hs : List cache_handle) (live : List Extent) : Prop where
  links_lt : ∀ (i : Nat) (x : cache_handle), hs[i]? = some x → x.num_blocks < u32
  inside : ∀ r ∈ live, 0 < r.size ∧ r.start < hs.length
  apart : live.Pairwise Extent.Apart
  in_use : ∀ (i : Nat) (x : cache_handle), hs[i]? = some x →
    (x.in_use = true ↔ ∃ r ∈ live, r.Covers i)
  head : ∀ r ∈ live, ∀ x : cache_handle, hs[r.start]? = some x → x.num_blocks = r.size
  used_next : ∀ (i : Nat) (x y : cache_handle), hs[i]? = some x → hs[i + 1]? = some y →
    x.in_use = false → y.in_use = true → x.num_blocks ≤ 1
  free_next : ∀ (i : Nat) (x y : cache_handle), hs[i]? = some x → hs[i + 1]? = some y →
    x.in_use = false → y.in_use = false → x.num_blocks = add32 y.num_blocks 1

/-- The part of it that speaks of the counts alone, whatever is live. -/
structure Links (hs : List cache_handle) : Prop where
  links_lt : ∀ (i : Nat) (x : cache_handle), hs[i]? = some x → x.num_blocks < u32
  used_next : ∀ (i : Nat) (x y : cache_handle), hs[i]? = some x → hs[i + 1]? = some y →
    x.in_use = false → y.in_use = true → x.num_blocks ≤ 1
  free_next : ∀ (i : Nat) (x y : cache_handle), hs[i]? = some x → hs[i + 1]? = some y →
    x.in_use = false → y.in_use = false → x.num_blocks = add32 y.num_blocks 1

/-- The last handle of every free run counts 1. -/
def Last (hs : List cache_handle) : Prop :=
  ∀ (i : Nat) (x : cache_handle), hs[i]? = some x → x.in_use = false →
    (i + 1 = hs.length ∨ ∃ y, hs[i + 1]? = some y ∧ y.in_use = true) → x.num_blocks = 1

theorem Linked.links {hs : List cache_handle} {live : List Extent} (h : Linked hs live) :
    Links hs := ⟨h.links_lt, h.used_next, h.free_next⟩

theorem add32_le (a b : Nat) : add32 a b ≤ a + b := Nat.mod_le _ _

/-- The count of a free handle never reaches past the next handle in use. -/
theorem Linked.reach {hs : List cache_handle} {live : List Extent} (h : Linked hs live)
    {i m : Nat} {x y : cache_handle} (hx : hs[i]? = some x) (hxu : x.in_use = false)
    (hy : hs[m]? = some y) (hyu : y.in_use = true) (him : i < m) : i + x.num_blocks ≤ m := by
  obtain ⟨d, rfl⟩ : ∃ d, m = i + 1 + d := ⟨m - i - 1, by omega⟩
  induction d generalizing i x with
  | zero =>
    have := h.used_next i x y hx hy hxu hyu
    omega
  | succ d ih =>
    have hlt := (List.getElem?_eq_some_iff.mp hy).1
    obtain ⟨z, hz⟩ : ∃ z, hs[i + 1]? = some z := ⟨_, List.getElem?_eq_getElem (by omega)⟩
    by_cases hzu : z.in_use = true
    · have := h.used_next i x z hx hz hxu hzu
      omega
    · have hzu' : z.in_use = false := by simpa using hzu
      have h1 := h.free_next i x z hx hz hxu hzu'
      have h2 := ih hz hzu' (by rw [show i + 1 + 1 + d = i + 1 + (d + 1) by omega]; exact hy)
        (by omega)
      have h3 := add32_le z.num_blocks 1
      omega

theorem Linked.start_in_use {hs : List cache_handle} {live : List Extent} (h : Linked hs live)
    {r : Extent} (hr : r ∈ live) : ∃ x, hs[r.start]? = some x ∧ x.in_use = true := by
  obtain ⟨hpos, hlt⟩ := h.inside r hr
  have hget := List.getElem?_eq_getElem hlt
  exact ⟨_, hget, (h.in_use _ _ hget).mpr ⟨r, hr, Extent.covers_start hpos⟩⟩

/-! ## A run taken -/

/-- The first run that fits is apart from every run in use. -/
theorem Linked.apart_firstFit {hs : List cache_handle} {live : List Extent} (h : Linked hs live)
    {num : Nat} {x : cache_handle} (hx : hs[firstFit num hs]? = some x) {r : Extent}
    (hr : r ∈ live) : Extent.Apart ⟨firstFit num hs, num⟩ r := by
  obtain ⟨hfree, hnum⟩ := fits_firstFit hx
  obtain ⟨y, hy, hyu⟩ := h.start_in_use hr
  unfold Extent.Apart
  rcases Nat.lt_trichotomy (firstFit num hs) r.start with hlt | heq | hgt
  · have := h.reach hx hfree hy hyu hlt
    simp only
    omega
  · rw [heq, hy] at hx
    cases hx
    rw [hyu] at hfree
    cases hfree
  · right
    by_contra hc
    have hin := (h.in_use _ _ hx).mpr ⟨r, hr, by unfold Extent.Covers; simp only at hc; omega⟩
    rw [hfree] at hin
    cases hin

theorem takeHandle_covered {s k j : Nat} {x : cache_handle} (h : (⟨s, k⟩ : Extent).Covers j) :
    takeHandle s k j x = { x with in_use := true, num_blocks := k - (j - s) } := if_pos h

theorem takeHandle_other {s k j : Nat} {x : cache_handle} (h : ¬ (⟨s, k⟩ : Extent).Covers j) :
    takeHandle s k j x = x := if_neg h

/-- A handle of the table after a run was taken: of the run, or as before. -/
theorem takeRun_cases {hs : List cache_handle} {s k j : Nat} {y : cache_handle}
    (h : (takeRun hs s k)[j]? = some y) :
    ∃ x, hs[j]? = some x ∧
      ((⟨s, k⟩ : Extent).Covers j ∧
          y = { x with in_use := true, num_blocks := k - (j - s) } ∨
        ¬ (⟨s, k⟩ : Extent).Covers j ∧ y = x) := by
  rw [takeRun_get] at h
  obtain ⟨x, hx, rfl⟩ := Option.map_eq_some_iff.mp h
  refine ⟨x, hx, ?_⟩
  by_cases hc : (⟨s, k⟩ : Extent).Covers j
  · exact Or.inl ⟨hc, takeHandle_covered hc⟩
  · exact Or.inr ⟨hc, takeHandle_other hc⟩

/-- Before the first run that fits stands nothing that would fit. -/
theorem links_take {hs : List cache_handle} (h : Links hs) {num : Nat} {x : cache_handle}
    (hx : hs[firstFit num hs]? = some x) : Links (takeRun hs (firstFit num hs) num) := by
  obtain ⟨hfree, hle⟩ := fits_firstFit hx
  have hbig := h.links_lt _ _ hx
  have hbefore : ∀ j y, hs[j]? = some y → j < firstFit num hs → y.in_use = false →
      y.num_blocks < num := fun j y hy hj hyu => not_fits_before hy hj hyu
  generalize firstFit num hs = s at *
  refine ⟨?_, ?_, ?_⟩
  · intro i y hy
    obtain ⟨z, hz, ⟨_, rfl⟩ | ⟨_, rfl⟩⟩ := takeRun_cases hy
    · simp only
      omega
    · exact h.links_lt _ _ hz
  · intro i y z hy hz hyu hzu
    obtain ⟨y', hy', ⟨_, rfl⟩ | ⟨hc, rfl⟩⟩ := takeRun_cases hy
    · cases hyu
    obtain ⟨z', hz', ⟨hcz, rfl⟩ | ⟨_, rfl⟩⟩ := takeRun_cases hz
    · -- the run starts at the next handle, which was free: the count wrapped to 0
      have hsi : s = i + 1 := by unfold Extent.Covers at hc hcz; simp only at hc hcz; omega
      subst hsi
      rw [hx] at hz'
      cases hz'
      have h1 := h.free_next i _ _ hy' hx hyu hfree
      have h2 := hbefore i _ hy' (by omega) hyu
      unfold add32 u32 at h1
      unfold u32 at hbig
      omega
    · exact h.used_next i _ _ hy' hz' hyu hzu
  · intro i y z hy hz hyu hzu
    obtain ⟨y', hy', ⟨_, rfl⟩ | ⟨_, rfl⟩⟩ := takeRun_cases hy
    · cases hyu
    obtain ⟨z', hz', ⟨_, rfl⟩ | ⟨_, rfl⟩⟩ := takeRun_cases hz
    · cases hzu
    · exact h.free_next i _ _ hy' hz' hyu hzu

theorem linked_take {hs : List cache_handle} {live : List Extent} (h : Linked hs live)
    {num : Nat} (hnum : 0 < num) {x : cache_handle} (hx : hs[firstFit num hs]? = some x) :
    Linked (takeRun hs (firstFit num hs) num) (⟨firstFit num hs, num⟩ :: live) := by
  have hlt := (List.getElem?_eq_some_iff.mp hx).1
  have hlinks := links_take h.links hx
  have hapart : ∀ r ∈ live, Extent.Apart ⟨firstFit num hs, num⟩ r :=
    fun r hr => h.apart_firstFit hx hr
  generalize firstFit num hs = s at *
  refine ⟨hlinks.links_lt, ?_, ?_, ?_, ?_, hlinks.used_next, hlinks.free_next⟩
  · intro r hr
    rcases List.mem_cons.mp hr with rfl | hr
    · exact ⟨hnum, by simpa using hlt⟩
    · simpa using h.inside r hr
  · exact List.pairwise_cons.mpr ⟨hapart, h.apart⟩
  · intro i y hy
    obtain ⟨z, hz, ⟨hc, rfl⟩ | ⟨hc, rfl⟩⟩ := takeRun_cases hy
    · simp only [true_iff]
      exact ⟨_, List.mem_cons_self, hc⟩
    · rw [h.in_use _ _ hz]
      constructor
      · rintro ⟨r, hr, hri⟩
        exact ⟨r, List.mem_cons_of_mem _ hr, hri⟩
      · rintro ⟨r, hr, hri⟩
        rcases List.mem_cons.mp hr with rfl | hr
        · exact absurd hri hc
        · exact ⟨r, hr, hri⟩
  · intro r hr y hy
    obtain ⟨z, hz, ⟨hc, rfl⟩ | ⟨hc, rfl⟩⟩ := takeRun_cases hy
    · rcases List.mem_cons.mp hr with rfl | hr
      · simp
      · exact absurd (Extent.covers_start (h.inside r hr).1)
          (Extent.not_covers_of_apart (hapart r hr) hc)
    · rcases List.mem_cons.mp hr with rfl | hr
      · exact absurd (Extent.covers_start hnum) hc
      · exact h.head r hr _ hz

/-! ## A run freed -/

/-- The table after `free_raw` of the run `r`. -/
def freeRun (past : Nat → cache_handle) (hs : List cache_handle) (r : Extent) :
    List cache_handle :=
  let link := free_link past hs r.start r.size
  relink_up (r.start + 1) link (free_blocks r.start link r.size hs)

@[simp] theorem freeRun_length (past : Nat → cache_handle) (hs : List cache_handle)
    (r : Extent) : (freeRun past hs r).length = hs.length := by simp [freeRun]

theorem free_link_lt (past : Nat → cache_handle) (hs : List cache_handle) {r : Extent}
    (h : r.size < u32) : free_link past hs r.start r.size < u32 := by
  unfold free_link
  dsimp only
  split
  · exact Nat.mod_lt _ (by decide)
  · exact h

/-- A handle of the table after a free, by the place where it stands: in the
freed run, in the free run before it, or elsewhere. -/
theorem freeRun_cases (past : Nat → cache_handle) {hs : List cache_handle} {r : Extent}
    (hpos : 0 < r.size) (hlt : r.start < hs.length) (hsize : r.size < u32) :
    ∃ u ≤ r.start, (u = 0 ∨ ∃ x, hs[u - 1]? = some x ∧ x.in_use = true) ∧
      ∀ j y, (freeRun past hs r)[j]? = some y → ∃ x, hs[j]? = some x ∧
        (r.Covers j ∧ y = freeHandle (free_link past hs r.start r.size) (j - r.start) x ∨
          u ≤ j ∧ j < r.start ∧ x.in_use = false ∧ y =
            { x with num_blocks := add32 (free_link past hs r.start r.size) (r.start - j) } ∨
          (j < u ∨ r.start + r.size ≤ j) ∧ y = x) := by
  obtain ⟨u, hu, hrun, hup, hrest, hb⟩ :=
    free_table_get r.start r.size _ hs hpos hlt (free_link_lt past hs hsize)
  refine ⟨u, hu, hb, ?_⟩
  intro j y hy
  unfold freeRun at hy
  by_cases h1 : r.Covers j
  · rw [hrun j h1.1 h1.2] at hy
    obtain ⟨x, hx, rfl⟩ := Option.map_eq_some_iff.mp hy
    exact ⟨x, hx, Or.inl ⟨h1, rfl⟩⟩
  · by_cases h2 : u ≤ j ∧ j < r.start
    · have hjl : j < hs.length := by omega
      obtain ⟨h3, h4⟩ := hup j _ h2.1 h2.2 (List.getElem?_eq_getElem hjl)
      rw [h4] at hy
      cases hy
      exact ⟨_, List.getElem?_eq_getElem hjl, Or.inr (Or.inl ⟨h2.1, h2.2, h3, rfl⟩)⟩
    · have h3 : j < u ∨ r.start + r.size ≤ j := by unfold Extent.Covers at h1; omega
      rw [hrest j h3] at hy
      exact ⟨y, hy, Or.inr (Or.inr ⟨h3, rfl⟩)⟩

/-- Runs that are apart from one another are not listed twice. -/
theorem nodup_apart {live : List Extent} (h : live.Pairwise Extent.Apart)
    (hpos : ∀ r ∈ live, 0 < r.size) : live.Nodup := by
  refine h.imp_of_mem ?_
  rintro a b ha _ hab rfl
  have := hpos a ha
  unfold Extent.Apart at hab
  omega

theorem mem_erase_apart {live : List Extent} (h : live.Pairwise Extent.Apart)
    (hpos : ∀ r ∈ live, 0 < r.size) {r q : Extent} (hr : r ∈ live) (hq : q ∈ live.erase r) :
    q ∈ live ∧ q.Apart r := by
  obtain ⟨hne, hmem⟩ := (List.Nodup.mem_erase_iff (nodup_apart h hpos)).mp hq
  exact ⟨hmem, h.forall hmem hr hne⟩

theorem add32_sub32 {link i : Nat} (h : i < u32) : sub32 link i = add32 (sub32 link (i + 1)) 1 := by
  unfold sub32 add32 u32 at *
  omega

/-- The link of a freed run that a handle in use follows. -/
theorem free_link_used (past : Nat → cache_handle) {hs : List cache_handle} {s n : Nat}
    {x : cache_handle} (hx : hs[s + n]? = some x) (hxu : x.in_use = true) :
    free_link past hs s n = n := by
  simp [free_link, handle_at, hx, hxu]

/-- The link of a freed run that a free handle follows. -/
theorem free_link_unused (past : Nat → cache_handle) {hs : List cache_handle} {s n : Nat}
    {x : cache_handle} (hx : hs[s + n]? = some x) (hxu : x.in_use = false) :
    free_link past hs s n = add32 n x.num_blocks := by
  simp [free_link, handle_at, hx, hxu]

section
variable {hs : List cache_handle} {r : Extent}

theorem freeRun_links_lt (h : Links hs) (past : Nat → cache_handle) (hpos : 0 < r.size)
    (hlt : r.start < hs.length) (hsize : r.size < u32) {i : Nat} {y : cache_handle}
    (hy : (freeRun past hs r)[i]? = some y) : y.num_blocks < u32 := by
  obtain ⟨u, hu, hb, hcases⟩ := freeRun_cases past hpos hlt hsize
  obtain ⟨x, hx, ⟨_, rfl⟩ | ⟨_, _, _, rfl⟩ | ⟨_, rfl⟩⟩ := hcases i y hy
  · exact Nat.mod_lt _ (by decide)
  · exact Nat.mod_lt _ (by decide)
  · exact h.links_lt i _ hx

theorem freeRun_used_next (h : Links hs) (past : Nat → cache_handle) (hpos : 0 < r.size)
    (hlt : r.start < hs.length) (hsize : r.size < u32) {i : Nat} {y z : cache_handle}
    (hy : (freeRun past hs r)[i]? = some y) (hz : (freeRun past hs r)[i + 1]? = some z)
    (hyu : y.in_use = false) (hzu : z.in_use = true) : y.num_blocks ≤ 1 := by
  obtain ⟨u, hu, hb, hcases⟩ := freeRun_cases past hpos hlt hsize
  obtain ⟨z', hz', ⟨_, rfl⟩ | ⟨_, _, hzf, rfl⟩ | ⟨hcz, rfl⟩⟩ := hcases (i + 1) z hz
  · cases hzu
  · rw [hzf] at hzu
    cases hzu
  obtain ⟨y', hy', ⟨hc, rfl⟩ | ⟨h1, h2, _, rfl⟩ | ⟨_, rfl⟩⟩ := hcases i y hy
  · -- the last handle of the freed run, before a handle in use
    have hend : r.start + r.size = i + 1 := by unfold Extent.Covers at hc; omega
    have hl := free_link_used past (hend ▸ hz') hzu
    simp only [freeHandle, hl, sub32]
    unfold u32 at *
    omega
  · omega
  · exact h.used_next i _ _ hy' hz' hyu hzu

theorem freeRun_free_next (h : Links hs) (past : Nat → cache_handle) (hpos : 0 < r.size)
    (hlt : r.start < hs.length) (hsize : r.size < u32) {i : Nat} {y z : cache_handle}
    (hy : (freeRun past hs r)[i]? = some y) (hz : (freeRun past hs r)[i + 1]? = some z)
    (hyu : y.in_use = false) (hzu : z.in_use = false) :
    y.num_blocks = add32 z.num_blocks 1 := by
  have hlink := free_link_lt past hs hsize
  obtain ⟨u, hu, hb, hcases⟩ := freeRun_cases past hpos hlt hsize
  obtain ⟨y', hy', ⟨hc, rfl⟩ | ⟨h1, h2, _, rfl⟩ | ⟨hc, rfl⟩⟩ := hcases i y hy
  · obtain ⟨z', hz', ⟨hcz, rfl⟩ | ⟨_, _, _, rfl⟩ | ⟨hcz, rfl⟩⟩ := hcases (i + 1) z hz
    · unfold Extent.Covers at hc hcz
      simp only [freeHandle]
      rw [show i + 1 - r.start = i - r.start + 1 by omega]
      exact add32_sub32 (by omega)
    · unfold Extent.Covers at hc; omega
    · -- the last handle of the freed run, before a free handle
      have hend : r.start + r.size = i + 1 := by unfold Extent.Covers at hc; omega
      have hl := free_link_unused past (hend ▸ hz') hzu
      have hz1 := h.links_lt _ _ hz'
      simp only [freeHandle, hl, sub32, add32]
      unfold u32 at *
      omega
  · generalize free_link past hs r.start r.size = link at *
    obtain ⟨z', hz', ⟨hcz, rfl⟩ | ⟨h3, h4, _, rfl⟩ | ⟨hcz, rfl⟩⟩ := hcases (i + 1) z hz
    · have hi : i + 1 = r.start := by unfold Extent.Covers at hcz; omega
      simp only [freeHandle, hi, Nat.sub_self, sub32, add32]
      unfold u32 at *
      omega
    · simp only [add32]
      unfold u32 at *
      omega
    · omega
  · by_cases hbelow : i + 1 = u
    · -- just below the relinked run stands a handle in use
      obtain rfl | ⟨w, hw, hwu⟩ := hb
      · cases hbelow
      · rw [show u - 1 = i by omega, hy'] at hw
        cases hw
        rw [hwu] at hyu
        cases hyu
    · obtain ⟨z', hz', ⟨hcz, rfl⟩ | ⟨h3, h4, _, rfl⟩ | ⟨_, rfl⟩⟩ := hcases (i + 1) z hz
      · unfold Extent.Covers at hcz; omega
      · omega
      · exact h.free_next i _ _ hy' hz' hyu hzu

theorem links_free (h : Links hs) (past : Nat → cache_handle) (hpos : 0 < r.size)
    (hlt : r.start < hs.length) (hsize : r.size < u32) : Links (freeRun past hs r) where
  links_lt _ _ hy := freeRun_links_lt h past hpos hlt hsize hy
  used_next _ _ _ hy hz hyu hzu := freeRun_used_next h past hpos hlt hsize hy hz hyu hzu
  free_next _ _ _ hy hz hyu hzu := freeRun_free_next h past hpos hlt hsize hy hz hyu hzu

/-- Where the free finds nothing free past the table, its run ends on a count of 1. -/
theorem last_free (h : Last hs) {past : Nat → cache_handle}
    (hpast : (past hs.length).in_use = true) (hpos : 0 < r.size)
    (hend : r.start + r.size ≤ hs.length) (hsize : r.size < u32) : Last (freeRun past hs r) := by
  have hlt : r.start < hs.length := by omega
  have hlink : (r.start + r.size = hs.length ∨
      ∃ x, hs[r.start + r.size]? = some x ∧ x.in_use = true) →
      free_link past hs r.start r.size = r.size := by
    rintro (hl | ⟨x, hx, hxu⟩)
    · simp [free_link, handle_at, hl, hpast]
    · exact free_link_used past hx hxu
  obtain ⟨u, hu, hb, hcases⟩ := freeRun_cases past hpos hlt hsize
  generalize free_link past hs r.start r.size = link at *
  intro i y hy hyu hnext
  rw [freeRun_length] at hnext
  obtain ⟨y', hy', ⟨hc, rfl⟩ | ⟨h1, h2, _, rfl⟩ | ⟨hc, rfl⟩⟩ := hcases i y hy
  · have hlast : r.start + r.size = i + 1 ∧ (r.start + r.size = hs.length ∨
        ∃ x, hs[r.start + r.size]? = some x ∧ x.in_use = true) := by
      unfold Extent.Covers at hc
      rcases hnext with hn | ⟨z, hz, hzu⟩
      · exact ⟨by omega, Or.inl (by omega)⟩
      · obtain ⟨z', hz', ⟨_, rfl⟩ | ⟨_, _, hzf, rfl⟩ | ⟨hcz, rfl⟩⟩ := hcases _ z hz
        · cases hzu
        · rw [hzf] at hzu
          cases hzu
        · have he' : r.start + r.size = i + 1 := by omega
          exact ⟨he', Or.inr ⟨_, he' ▸ hz', hzu⟩⟩
    have hl := hlink hlast.2
    simp only [freeHandle, hl, sub32]
    unfold u32 at *
    omega
  · rcases hnext with hn | ⟨z, hz, hzu⟩
    · omega
    · obtain ⟨z', hz', ⟨_, rfl⟩ | ⟨_, _, hzf, rfl⟩ | ⟨hcz, rfl⟩⟩ := hcases _ z hz
      · cases hzu
      · rw [hzf] at hzu
        cases hzu
      · omega
  · apply h i _ hy' hyu
    rcases hnext with hn | ⟨z, hz, hzu⟩
    · exact Or.inl hn
    · obtain ⟨z', hz', ⟨_, rfl⟩ | ⟨_, _, hzf, rfl⟩ | ⟨hcz, rfl⟩⟩ := hcases _ z hz
      · cases hzu
      · rw [hzf] at hzu
        cases hzu
      · exact Or.inr ⟨_, hz', hzu⟩

variable {live : List Extent}

/-- The size of a live run is the count of its first handle. -/
theorem Linked.size_lt (h : Linked hs live) (hr : r ∈ live) : r.size < u32 := by
  have hget := List.getElem?_eq_getElem (h.inside r hr).2
  rw [← h.head r hr _ hget]
  exact h.links_lt _ _ hget

theorem Linked.freeRun_cases (h : Linked hs live) (past : Nat → cache_handle) (hr : r ∈ live) :
    ∃ u ≤ r.start, (u = 0 ∨ ∃ x, hs[u - 1]? = some x ∧ x.in_use = true) ∧
      ∀ j y, (freeRun past hs r)[j]? = some y → ∃ x, hs[j]? = some x ∧
        (r.Covers j ∧ y = freeHandle (free_link past hs r.start r.size) (j - r.start) x ∨
          u ≤ j ∧ j < r.start ∧ x.in_use = false ∧ y =
            { x with num_blocks := add32 (free_link past hs r.start r.size) (r.start - j) } ∨
          (j < u ∨ r.start + r.size ≤ j) ∧ y = x) :=
  strangeio.memory.freeRun_cases past (h.inside r hr).1 (h.inside r hr).2 (h.size_lt hr)

theorem Linked.nodup (h : Linked hs live) : live.Nodup :=
  nodup_apart h.apart fun r hr => (h.inside r hr).1

theorem Linked.freed_apart (h : Linked hs live) (hr : r ∈ live) {q : Extent}
    (hq : q ∈ live.erase r) : q ∈ live ∧ q.Apart r :=
  mem_erase_apart h.apart (fun q hq => (h.inside q hq).1) hr hq

theorem freeRun_in_use (h : Linked hs live) (past : Nat → cache_handle) (hr : r ∈ live)
    {i : Nat} {y : cache_handle} (hy : (freeRun past hs r)[i]? = some y) :
    y.in_use = true ↔ ∃ q ∈ live.erase r, q.Covers i := by
  obtain ⟨u, hu, hb, hcases⟩ := h.freeRun_cases past hr
  obtain ⟨x, hx, ⟨hc, rfl⟩ | ⟨h1, h2, hxu, rfl⟩ | ⟨hc, rfl⟩⟩ := hcases i y hy
  · simp only [freeHandle, Bool.false_eq_true, false_iff]
    rintro ⟨q, hq, hqi⟩
    exact Extent.not_covers_of_apart (h.freed_apart hr hq).2 hqi hc
  · simp only [hxu, Bool.false_eq_true, false_iff]
    rintro ⟨q, hq, hqi⟩
    have := (h.in_use i x hx).mpr ⟨q, (h.freed_apart hr hq).1, hqi⟩
    rw [hxu] at this
    cases this
  · constructor
    · intro hyu
      obtain ⟨q, hq, hqi⟩ := (h.in_use i _ hx).mp hyu
      by_cases hqr : q = r
      · subst hqr
        unfold Extent.Covers at hqi
        omega
      · exact ⟨q, (List.mem_erase_of_ne hqr).mpr hq, hqi⟩
    · rintro ⟨q, hq, hqi⟩
      exact (h.in_use i _ hx).mpr ⟨q, (h.freed_apart hr hq).1, hqi⟩

theorem freeRun_head (h : Linked hs live) (past : Nat → cache_handle) (hr : r ∈ live)
    {q : Extent} (hq : q ∈ live.erase r) {y : cache_handle}
    (hy : (freeRun past hs r)[q.start]? = some y) : y.num_blocks = q.size := by
  obtain ⟨hql, hqr⟩ := h.freed_apart hr hq
  have hqc := Extent.covers_start (h.inside q hql).1
  obtain ⟨u, hu, hb, hcases⟩ := h.freeRun_cases past hr
  obtain ⟨x, hx, ⟨hc, rfl⟩ | ⟨_, _, hxu, rfl⟩ | ⟨hc, rfl⟩⟩ := hcases q.start y hy
  · exact absurd hc (Extent.not_covers_of_apart hqr hqc)
  · have := (h.in_use _ x hx).mpr ⟨q, hql, hqc⟩
    rw [hxu] at this
    cases this
  · exact h.head q hql _ hx

theorem linked_free (h : Linked hs live) (past : Nat → cache_handle) (hr : r ∈ live) :
    Linked (freeRun past hs r) (live.erase r) := by
  obtain ⟨hpos, hlt⟩ := h.inside r hr
  have hlinks := links_free h.links past hpos hlt (h.size_lt hr)
  refine ⟨hlinks.links_lt, ?_, ?_, ?_, ?_, hlinks.used_next, hlinks.free_next⟩
  · intro q hq
    simpa using h.inside q (h.freed_apart hr hq).1
  · exact h.apart.sublist List.erase_sublist
  · intro i y hy
    exact freeRun_in_use h past hr hy
  · intro q hq y hy
    exact freeRun_head h past hr hq hy

end

/-! ## The exact counts -/

/-- The free handles from `i` on, up to a handle in use or the end. -/
def freeLength (hs : List cache_handle) (i : Nat) : Nat :=
  runs.runLength (fun x => !x.in_use) hs i

/-- What the links leave open: the runs end in the table, every handle of a
run counts down to its end, and the last handle of a free run counts 1. -/
structure Exact (hs : List cache_handle) (live : List Extent) : Prop where
  within : ∀ r ∈ live, r.start + r.size ≤ hs.length
  run_links : ∀ r ∈ live, ∀ (j : Nat) (x : cache_handle), hs[r.start + j]? = some x →
    j < r.size → x.num_blocks = r.size - j
  last : ∀ (i : Nat) (x : cache_handle), hs[i]? = some x → x.in_use = false →
    (i + 1 = hs.length ∨ ∃ y, hs[i + 1]? = some y ∧ y.in_use = true) → x.num_blocks = 1

/-- Every free handle counts the free run that starts at it. -/
theorem free_links {hs : List cache_handle} (h : Links hs) (hlast : Last hs)
    (hn : hs.length < u32) {i : Nat} {x : cache_handle}
    (hx : hs[i]? = some x) (hxu : x.in_use = false) : x.num_blocks = freeLength hs i := by
  have hlt := (List.getElem?_eq_some_iff.mp hx).1
  obtain ⟨d, hd⟩ : ∃ d, hs.length = i + 1 + d := ⟨hs.length - i - 1, by omega⟩
  have hrun : freeLength hs i = freeLength hs (i + 1) + 1 :=
    runs.runLength_pos hx (by simp [hxu])
  induction d generalizing i x with
  | zero =>
    rw [hrun, hlast i x hx hxu (Or.inl (by omega))]
    rw [freeLength, runs.runLength_end _ _ (by omega)]
  | succ d ih =>
    obtain ⟨y, hy⟩ : ∃ y, hs[i + 1]? = some y := ⟨_, List.getElem?_eq_getElem (by omega)⟩
    by_cases hyu : y.in_use = true
    · rw [hrun, hlast i x hx hxu (Or.inr ⟨y, hy, hyu⟩)]
      rw [freeLength, runs.runLength_neg hy (by simp [hyu])]
    · have hyu' : y.in_use = false := by simpa using hyu
      have h1 := ih hy hyu' (by omega) (by omega) (runs.runLength_pos hy (by simp [hyu']))
      have h2 := h.free_next i x y hx hy hxu hyu'
      have h3 := runs.runLength_le (fun x : cache_handle => !x.in_use) hs (i := i + 1) (by omega)
      unfold freeLength at *
      unfold add32 at h2
      rw [Nat.mod_eq_of_lt (by omega)] at h2
      omega

theorem last_take {hs : List cache_handle} (h : Links hs) (hlast : Last hs)
    (hn : hs.length < u32) {num : Nat} {x : cache_handle}
    (hx : hs[firstFit num hs]? = some x) : Last (takeRun hs (firstFit num hs) num) := by
  obtain ⟨hfree, hle⟩ := fits_firstFit hx
  have hlt := (List.getElem?_eq_some_iff.mp hx).1
  have hlink := free_links h hlast hn hx hfree
  have hroom := runs.runLength_le (fun x : cache_handle => !x.in_use) hs (Nat.le_of_lt hlt)
  have hbefore : ∀ j y, hs[j]? = some y → j < firstFit num hs → y.in_use = false →
      y.num_blocks < num := fun j y hy hj hyu => not_fits_before hy hj hyu
  unfold freeLength at hlink
  generalize firstFit num hs = s at *
  intro i y hy hyu hnext
  obtain ⟨y', hy', ⟨_, rfl⟩ | ⟨hc, rfl⟩⟩ := takeRun_cases hy
  · cases hyu
  · rw [takeRun_length] at hnext
    rcases hnext with hend | ⟨z, hz, hzu⟩
    · exact hlast i _ hy' hyu (Or.inl hend)
    · obtain ⟨z', hz', ⟨hcz, rfl⟩ | ⟨_, rfl⟩⟩ := takeRun_cases hz
      · -- the free handle before the run would have fitted first
        have hsi : s = i + 1 := by
          unfold Extent.Covers at hc hcz; simp only at hc hcz; omega
        subst hsi
        rw [hx] at hz'
        cases hz'
        have h1 := hbefore i _ hy' (by omega) hyu
        have h2 := h.free_next i _ _ hy' hx hyu hfree
        unfold add32 at h2
        rw [Nat.mod_eq_of_lt (by omega)] at h2
        omega
      · exact hlast i _ hy' hyu (Or.inr ⟨_, hz', hzu⟩)

theorem exact_take {hs : List cache_handle} {live : List Extent} (h : Linked hs live)
    (he : Exact hs live) (hn : hs.length < u32) {num : Nat} {x : cache_handle}
    (hx : hs[firstFit num hs]? = some x) :
    Exact (takeRun hs (firstFit num hs) num) (⟨firstFit num hs, num⟩ :: live) := by
  obtain ⟨hfree, hle⟩ := fits_firstFit hx
  have hlt := (List.getElem?_eq_some_iff.mp hx).1
  have hlink := free_links h.links he.last hn hx hfree
  have hroom := runs.runLength_le (fun x : cache_handle => !x.in_use) hs (Nat.le_of_lt hlt)
  have hapart : ∀ r ∈ live, Extent.Apart ⟨firstFit num hs, num⟩ r :=
    fun r hr => h.apart_firstFit hx hr
  have hlast := last_take h.links he.last hn hx
  unfold freeLength at hlink
  generalize firstFit num hs = s at *
  refine ⟨?_, ?_, hlast⟩
  · intro r hr
    rcases List.mem_cons.mp hr with rfl | hr
    · simp only [takeRun_length]
      omega
    · simpa using he.within r hr
  · intro r hr j y hy hj
    obtain ⟨z, hz, ⟨hc, rfl⟩ | ⟨hc, rfl⟩⟩ := takeRun_cases hy
    · rcases List.mem_cons.mp hr with rfl | hr
      · simp
      · have hrj : r.Covers (r.start + j) := by unfold Extent.Covers; omega
        exact absurd hrj (Extent.not_covers_of_apart (hapart r hr) hc)
    · rcases List.mem_cons.mp hr with rfl | hr
      · unfold Extent.Covers at hc; simp only at hc hj; omega
      · exact he.run_links r hr j _ hz hj

theorem exact_free {hs : List cache_handle} {live : List Extent} (h : Linked hs live)
    (he : Exact hs live) {past : Nat → cache_handle} (hpast : (past hs.length).in_use = true)
    {r : Extent} (hr : r ∈ live) : Exact (freeRun past hs r) (live.erase r) := by
  have hend := he.within r hr
  refine ⟨?_, ?_, last_free he.last hpast (h.inside r hr).1 hend (h.size_lt hr)⟩
  · intro q hq
    simpa using he.within q (h.freed_apart hr hq).1
  · intro q hq j y hy hj
    obtain ⟨hql, hqr⟩ := h.freed_apart hr hq
    have hqc : q.Covers (q.start + j) := by unfold Extent.Covers; omega
    obtain ⟨u, hu, hb, hcases⟩ := h.freeRun_cases past hr
    obtain ⟨x, hx, ⟨hc, rfl⟩ | ⟨_, _, hxu, rfl⟩ | ⟨hc, rfl⟩⟩ := hcases _ y hy
    · exact absurd hc (Extent.not_covers_of_apart hqr hqc)
    · have := (h.in_use _ x hx).mpr ⟨q, hql, hqc⟩
      rw [hxu] at this
      cases this
    · exact he.run_links q hql j _ hx hj

/-! ## The count of the handles in use -/

theorem takeRun_count {hs : List cache_handle} {s num : Nat} (hend : s + num ≤ hs.length)
    (hfree : ∀ (j : Nat) (x : cache_handle), s ≤ j → j < s + num → hs[j]? = some x →
      x.in_use = false) :
    (takeRun hs s num).countP (·.in_use) = hs.countP (·.in_use) + num := by
  apply runs.countP_run (fun x => x.in_use) hs _ s num (by simp) hend
  · intro j x y hj hx hy
    obtain ⟨z, hz, ⟨hc, rfl⟩ | ⟨_, rfl⟩⟩ := takeRun_cases hy
    · unfold Extent.Covers at hc; simp only at hc; omega
    · rw [hx] at hz
      cases hz
      rfl
  · exact hfree
  · intro j x h1 h2 hx
    obtain ⟨z, hz, ⟨_, rfl⟩ | ⟨hc, _⟩⟩ := takeRun_cases hx
    · rfl
    · exact absurd ⟨h1, h2⟩ hc

theorem freeRun_count {hs : List cache_handle} {live : List Extent} (h : Linked hs live)
    (past : Nat → cache_handle) {r : Extent} (hr : r ∈ live) (hend : r.start + r.size ≤ hs.length) :
    hs.countP (·.in_use) = (freeRun past hs r).countP (·.in_use) + r.size := by
  obtain ⟨u, hu, hb, hcases⟩ := h.freeRun_cases past hr
  apply runs.countP_run (fun x => x.in_use) _ hs r.start r.size (by simp) (by simpa using hend)
  · intro j x y hj hx hy
    obtain ⟨z, hz, ⟨hc, rfl⟩ | ⟨_, _, _, rfl⟩ | ⟨_, rfl⟩⟩ := hcases j x hx
    · unfold Extent.Covers at hc; omega
    · rw [hy] at hz
      cases hz
      rfl
    · rw [hy] at hz
      cases hz
      rfl
  · intro j x h1 h2 hx
    obtain ⟨z, hz, ⟨_, rfl⟩ | ⟨_, h3, _, _⟩ | ⟨h3, _⟩⟩ := hcases j x hx
    · rfl
    · omega
    · omega
  · intro j x h1 h2 hx
    exact (h.in_use j x hx).mpr ⟨r, hr, h1, h2⟩

end strangeio.memory
