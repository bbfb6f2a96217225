-- Where build_cache lays the blocks out. The length of the array and the offset
-- of each block are products of 32 bits, and free_raw divides the difference
-- of two pointers (memory/cache_manager.cpp, component/rack.cpp).
import Mathlib.Order.Interval.Set.Defs
import StrangeIO.CacheBlock
import StrangeIO.CacheHeap

namespace strangeio.memory

/-! ## The layout of the blocks -/

/-- The addresses of a block. -/
def cache_manager.block (c : cache_manager) (x : cache_handle) : Set Nat :=
  Set.Ico x.ptr (x.ptr + c.m_block_size)

/-- The addresses that `new PcmSample[m_block_size*m_num_blocks]` gave at `raw`. -/
def cache_manager.array (c : cache_manager) (raw : Nat) : Set Nat :=
  Set.Ico raw (raw + mul32 c.m_block_size c.m_num_blocks)

/-- The blocks lie apart in the array, and `free_raw` finds the handle of each. -/
structure cache_manager.LaidOut (c : cache_manager) (raw : Nat) : Prop where
  apart : ∀ (i j : Nat) (x y : cache_handle), c.m_handles[i]? = some x →
    c.m_handles[j]? = some y → i ≠ j → ∀ a ∈ c.block x, a ∉ c.block y
  inside : ∀ (i : Nat) (x : cache_handle), c.m_handles[i]? = some x → c.block x ⊆ c.array raw
  index : ∀ (i : Nat) (x : cache_handle), c.m_handles[i]? = some x →
    c.index_of (some x.ptr) = some i

/-! ## Products that wrap -/

/-- The first multiple of `b` that passes `m` passes it by less than `b`. -/
theorem first_wrap {m n b : Nat} (hb : 0 < b) (hbm : b < m) (h : m ≤ n * b) :
    ∃ k, 0 < k ∧ k ≤ n ∧ k * b % m < b := by
  have hdiv := Nat.div_add_mod (m - 1) b
  have hmod := Nat.mod_lt (m - 1) hb
  have hk : ((m - 1) / b + 1) * b = b * ((m - 1) / b) + b := by
    rw [Nat.succ_mul, Nat.mul_comm]
  have hle : (m - 1) / b < n := (Nat.div_lt_iff_lt_mul hb).mpr (by omega)
  refine ⟨(m - 1) / b + 1, Nat.succ_pos _, hle, ?_⟩
  rw [hk, Nat.mod_eq_sub_mod (by omega), Nat.mod_eq_of_lt (by omega)]
  omega

theorem mul32_of_lt {i b : Nat} (h : i * b < u32) : mul32 i b = i * b := Nat.mod_eq_of_lt h

theorem mul32_comm (a b : Nat) : mul32 a b = mul32 b a := by
  unfold mul32
  rw [Nat.mul_comm]

section
variable {n bs raw bound : Nat}

theorem built_handle (bs raw bound : Nat) (hn : 1 ≤ n) {i : Nat} (hi : i < n) :
    ∃ x, (built n bs raw bound).cache.m_handles[i]? = some x ∧ x.ptr = raw + mul32 i bs := by
  have hlt : i < (built n bs raw bound).cache.m_handles.length := by
    rw [built_length]
    exact hi
  have hx := List.getElem?_eq_getElem hlt
  exact ⟨_, hx, (layout_built n bs raw bound hn).ptr hx⟩

/-- Where the whole array fits 32 bits, no offset wraps. -/
theorem laid_out_of_fits (hn : 1 ≤ n) (hbs : 1 ≤ bs) (h : n * bs < u32) :
    (built n bs raw bound).cache.LaidOut raw := by
  have hl := layout_built n bs raw bound hn
  have hend : ∀ i < n, i * bs + bs ≤ n * bs := fun i hi => by
    rw [← Nat.succ_mul]
    exact Nat.mul_le_mul_right bs hi
  have hget : ∀ (i : Nat) (x : cache_handle),
      (built n bs raw bound).cache.m_handles[i]? = some x → i < n ∧ x.ptr = raw + i * bs := by
    intro i x hx
    have hi := (built_get n bs raw bound hx).1
    have := hend i hi
    refine ⟨hi, ?_⟩
    rw [hl.ptr hx, mul32_of_lt (by omega)]
  refine ⟨?_, ?_, ?_⟩
  · intro i j x y hx hy hij
    obtain ⟨_, hxp⟩ := hget i x hx
    obtain ⟨_, hyp⟩ := hget j y hy
    have hapart : i * bs + bs ≤ j * bs ∨ j * bs + bs ≤ i * bs := by
      rcases Nat.lt_or_gt_of_ne hij with hlt | hlt
      · left
        rw [← Nat.succ_mul]
        exact Nat.mul_le_mul_right bs hlt
      · right
        rw [← Nat.succ_mul]
        exact Nat.mul_le_mul_right bs hlt
    intro a ha hb
    simp only [cache_manager.block, Set.mem_Ico, hl.block_size] at ha hb
    omega
  · intro i x hx a ha
    obtain ⟨hi, hxp⟩ := hget i x hx
    have hin := hend i hi
    have hsize : mul32 bs n = n * bs := by rw [mul32_comm, mul32_of_lt h]
    have hcount : (built n bs raw bound).cache.m_num_blocks = n := rfl
    simp only [cache_manager.block, cache_manager.array, Set.mem_Ico, hl.block_size, hcount,
      hsize] at ha ⊢
    omega
  · intro i x hx
    have hfit : Fits n bs := by
      have := hend (n - 1) (by omega)
      unfold Fits
      omega
    exact hl.index_ptr hfit hbs hx

/-- Where it does not, the first block that wraps falls on block 0, or the
array is shorter than one block. -/
theorem fits_of_laid_out (hn : 1 ≤ n) (hbs : 1 ≤ bs) (hbs' : bs < u32)
    (h : (built n bs raw bound).cache.LaidOut raw) : n * bs < u32 := by
  by_contra hwrap
  have hl := layout_built n bs raw bound hn
  obtain ⟨k, hk, hkn, hmod⟩ := first_wrap hbs hbs' (Nat.le_of_not_lt hwrap)
  obtain ⟨x, hx, hxp⟩ := built_handle bs raw bound hn (show 0 < n by omega)
  have hzero : mul32 0 bs = 0 := by simp [mul32]
  rw [hzero, Nat.add_zero] at hxp
  rcases Nat.lt_or_eq_of_le hkn with hlt | rfl
  · obtain ⟨y, hy, hyp⟩ := built_handle bs raw bound hn hlt
    have hapart := h.apart 0 k x y hx hy (by omega) y.ptr
    have hwrapped : mul32 k bs < bs := hmod
    have hin : y.ptr ∈ (built n bs raw bound).cache.block x := by
      simp only [cache_manager.block, Set.mem_Ico, hl.block_size]
      omega
    refine hapart hin ?_
    simp only [cache_manager.block, Set.mem_Ico, hl.block_size]
    omega
  · have hlast : raw + (bs - 1) ∈ (built k bs raw bound).cache.block x := by
      simp only [cache_manager.block, Set.mem_Ico, hl.block_size]
      omega
    have hshort : mul32 bs k < bs := by
      rw [mul32_comm]
      exact hmod
    have hcount : (built k bs raw bound).cache.m_num_blocks = k := rfl
    have hin := h.inside 0 x hx hlast
    simp only [cache_manager.array, Set.mem_Ico, hl.block_size, hcount] at hin
    omega

end

/-- The layout holds just when the length of the array fits 32 bits. -/
theorem laid_out_iff (n bs raw bound : Nat) (hn : 1 ≤ n) (hbs : 1 ≤ bs) (hbs' : bs < u32) :
    ((cache_manager.make n bound).build_cache raw bs).LaidOut raw ↔ n * bs < u32 :=
  ⟨fits_of_laid_out hn hbs hbs', laid_out_of_fits hn hbs⟩

theorem laid_out_four :
    (((cache_manager.make 4 0).build_cache 100 1024).LaidOut 100 ↔ 4 * 1024 < u32) ∧
      4 * 1024 < u32 :=
  ⟨laid_out_iff 4 1024 100 0 (by decide) (by decide) (by decide), by decide⟩

/-- Three blocks of half the range: the third lies on the first. -/
theorem overlapping_blocks :
    ∃ n bs raw bound, 1 ≤ n ∧ n < u32 ∧ 1 ≤ bs ∧ bs < u32 ∧
      ¬ ((cache_manager.make n bound).build_cache raw bs).LaidOut raw := by
  refine ⟨3, 2147483648, 0, 0, by decide, by decide, by decide, by decide, fun h => ?_⟩
  have hlt := fits_of_laid_out (by decide) (by decide) (by decide) h
  exact absurd hlt (by decide)

end strangeio.memory

namespace strangeio.component

open strangeio.memory (cache_manager u32 laid_out_of_fits fits_of_laid_out)

variable {ι : Type}

/-! ## The layout that a rack asks for -/

/-- The cache of a rack that a sync builds is laid out just when its blocks
of two periods fit 32 bits together. -/
theorem resync_laid_out {env : environment ι} {r : rack ι} {n bound : Nat} (hn : 1 ≤ n)
    (hc : r.m_cache = some (cache_manager.make n bound)) (hp : r.m_global_profile.measured)
    (hpos : 0 < r.m_global_profile.area) :
    ∃ c, (rack.resync env r).m_cache = some c ∧
      (c.LaidOut env.raw ↔ n * (2 * r.m_global_profile.area) < u32) := by
  obtain ⟨_, _, hmax⟩ := hp
  have harea : r.m_global_profile.period * 2 * r.m_global_profile.channels =
      2 * r.m_global_profile.area := by
    unfold sync_profile.area
    rw [Int.mul_right_comm, Int.mul_comm]
  obtain ⟨bs, hbs⟩ := Int.eq_ofNat_of_zero_le (show 0 ≤ 2 * r.m_global_profile.area by omega)
  have hle : 1 ≤ bs := by omega
  have hlt : bs < u32 := by
    simp only [u32]
    omega
  have hmod : (bs : Int).emod u32 = bs := Int.emod_eq_of_lt (by omega) (by omega)
  have hbuilt : (rack.resync env r).m_cache =
      some ((cache_manager.make n bound).build_cache env.raw bs) := by
    have hnew : ¬ 0 < (cache_manager.make n bound).m_block_size := Nat.lt_irrefl 0
    unfold rack.resync
    rw [hc]
    simp only [hnew, if_false, harea, hbs, hmod, Int.toNat_natCast]
  refine ⟨_, hbuilt, ?_⟩
  rw [hbs]
  constructor
  · intro h
    exact_mod_cast fits_of_laid_out hn hle hlt h
  · intro h
    exact laid_out_of_fits hn hle (by exact_mod_cast h)

end strangeio.component
