-- What the loops of the cache allocator do to the table, handle by handle:
-- the allocation takes the first run that fits, and the free writes the
-- freed run and the free handles up the line.
import Mathlib.Data.List.GetD
import StrangeIO.CacheManager

namespace strangeio.memory

/-! ## The table that `build_cache` pushes -/

theorem build_handles_length (raw bs i n : Nat) : (build_handles raw bs i n).length = n := by
  induction n generalizing i with
  | zero => rfl
  | succ n ih => simp [build_handles, ih]

theorem build_handles_get (raw bs i n j : Nat) (h : j < n) :
    (build_handles raw bs i n)[j]? =
      some { ptr := raw + mul32 (i + j) bs, in_use := false, num_blocks := n - j } := by
  induction n generalizing i j with
  | zero => omega
  | succ n ih =>
    cases j with
    | zero => simp [build_handles]
    | succ j =>
      simp only [build_handles, List.getElem?_cons_succ]
      rw [ih (i + 1) j (by omega)]
      simp only [Option.some.injEq, cache_handle.mk.injEq, true_and]
      exact ⟨by rw [show i + 1 + j = i + (j + 1) by omega], by omega⟩

/-! ## Allocation -/

/-- A free handle that heads `num` free blocks, as far as the table says. -/
def fits (num : Nat) (handle : cache_handle) : Bool := !handle.in_use && num ≤ handle.num_blocks

/-- The first handle that fits, or the length of the table. -/
def firstFit (num : Nat) (hs : List cache_handle) : Nat := hs.findIdx (fits num)

/-- A handle of the run of `size` blocks from `start` on, taken. -/
def takeHandle (start size j : Nat) (handle : cache_handle) : cache_handle :=
  if start ≤ j ∧ j < start + size then
    { handle with in_use := true, num_blocks := size - (j - start) }
  else handle

/-- The table with the run taken, as far as it lies in the table. -/
def takeRun (hs : List cache_handle) (start size : Nat) : List cache_handle :=
  hs.mapIdx (takeHandle start size)

@[simp] theorem takeRun_length (hs : List cache_handle) (start size : Nat) :
    (takeRun hs start size).length = hs.length := by simp [takeRun]

theorem takeRun_get (hs : List cache_handle) (start size j : Nat) :
    (takeRun hs start size)[j]? = hs[j]?.map (takeHandle start size j) := by
  simp [takeRun]

theorem takeRun_zero (hs : List cache_handle) (start : Nat) : takeRun hs start 0 = hs := by
  apply List.ext_getElem?
  intro j
  rw [takeRun_get]
  cases hs[j]? with
  | none => rfl
  | some h =>
    have hj : ¬ (start ≤ j ∧ j < start + 0) := by omega
    simp only [takeHandle, hj, if_false, Option.map_some]

theorem takeRun_cons_zero (h : cache_handle) (hs : List cache_handle) (size : Nat) :
    takeRun (h :: hs) 0 (size + 1) =
      { h with in_use := true, num_blocks := size + 1 } :: takeRun hs 0 size := by
  apply List.ext_getElem?
  intro j
  cases j with
  | zero => simp only [takeRun_get, List.getElem?_cons_zero, Option.map_some, takeHandle]; simp
  | succ j =>
    simp only [List.getElem?_cons_succ, takeRun_get]
    congr 1
    funext x
    simp only [takeHandle, Nat.zero_le, true_and, Nat.zero_add, Nat.sub_zero]
    by_cases hj : j < size
    · simp [hj]
    · simp [hj]

theorem takeRun_cons_succ (h : cache_handle) (hs : List cache_handle) (start size : Nat) :
    takeRun (h :: hs) (start + 1) size = h :: takeRun hs start size := by
  apply List.ext_getElem?
  intro j
  cases j with
  | zero => simp only [takeRun_get, List.getElem?_cons_zero, Option.map_some, takeHandle]; simp
  | succ j =>
    simp only [List.getElem?_cons_succ, takeRun_get]
    congr 1
    funext x
    have h1 : (start + 1 ≤ j + 1 ∧ j + 1 < start + 1 + size) ↔
        (start ≤ j ∧ j < start + size) := by omega
    have h2 : j + 1 - (start + 1) = j - start := by omega
    simp only [takeHandle, h1, h2]

/-- Once the run is found, the loop takes the next `toggle` handles as they come. -/
theorem allocate_loop_toggle (num toggle : Nat) (ptr : PcmPtr) (hs : List cache_handle)
    (h : toggle < num) : allocate_loop num toggle ptr hs = (ptr, takeRun hs 0 toggle) := by
  induction hs generalizing toggle with
  | nil => simp [allocate_loop, takeRun]
  | cons x hs ih =>
    cases toggle with
    | zero => simp [allocate_loop, takeRun_zero]
    | succ t =>
      rw [allocate_loop, takeRun_cons_zero]
      simp only [Nat.add_one_ne_zero, if_false, h, if_true, Nat.add_sub_cancel]
      rw [ih t (by omega)]

theorem firstFit_cons_neg (num : Nat) (x : cache_handle) (hs : List cache_handle)
    (h : fits num x = false) : firstFit num (x :: hs) = firstFit num hs + 1 := by
  simp [firstFit, List.findIdx_cons, h]

theorem firstFit_cons_pos (num : Nat) (x : cache_handle) (hs : List cache_handle)
    (h : fits num x = true) : firstFit num (x :: hs) = 0 := by
  simp [firstFit, List.findIdx_cons, h]

/-- The loop of `allocate` takes the first run that fits, and nothing else. -/
theorem allocate_loop_spec (num : Nat) (ptr : PcmPtr) (hs : List cache_handle) (h : 0 < num) :
    allocate_loop num num ptr hs =
      match hs[firstFit num hs]? with
      | none => (ptr, hs)
      | some handle => (some handle.ptr, takeRun hs (firstFit num hs) num) := by
  obtain ⟨k, rfl⟩ : ∃ k, num = k + 1 := ⟨num - 1, by omega⟩
  induction hs with
  | nil => simp [allocate_loop]
  | cons x hs ih =>
    rw [allocate_loop]
    simp only [Nat.add_one_ne_zero, if_false, Nat.lt_irrefl, Nat.add_sub_cancel]
    by_cases hf : fits (k + 1) x = true
    · have hx : (!x.in_use && decide (k + 1 ≤ x.num_blocks)) = true := hf
      simp only [hx, if_true, firstFit_cons_pos _ _ _ hf, List.getElem?_cons_zero,
        takeRun_cons_zero]
      rw [allocate_loop_toggle (k + 1) k _ _ (by omega)]
    · have hx : (!x.in_use && decide (k + 1 ≤ x.num_blocks)) = false := by
        simpa [fits] using hf
      rw [firstFit_cons_neg _ _ _ hx]
      simp only [hx, Bool.false_eq_true, if_false, List.getElem?_cons_succ, ih]
      cases hs[firstFit (k + 1) hs]? with
      | none => rfl
      | some y => simp [takeRun_cons_succ]

theorem allocate_loop_zero (ptr : PcmPtr) (hs : List cache_handle) :
    allocate_loop 0 0 ptr hs = (ptr, hs) := by
  cases hs <;> simp [allocate_loop]

theorem fits_firstFit {num : Nat} {hs : List cache_handle} {x : cache_handle}
    (h : hs[firstFit num hs]? = some x) : x.in_use = false ∧ num ≤ x.num_blocks := by
  have hlt : firstFit num hs < hs.length := by
    by_contra hc
    rw [List.getElem?_eq_none (by omega)] at h
    cases h
  have hx : hs[firstFit num hs] = x := by
    rw [List.getElem?_eq_getElem hlt] at h
    exact Option.some.inj h
  have hf : fits num hs[firstFit num hs] = true := List.findIdx_getElem
  rw [hx] at hf
  simpa [fits] using hf

theorem not_fits_before {num j : Nat} {hs : List cache_handle} {x : cache_handle}
    (h : hs[j]? = some x) (hj : j < firstFit num hs) (hx : x.in_use = false) :
    x.num_blocks < num := by
  obtain ⟨hlt, rfl⟩ := List.getElem?_eq_some_iff.mp h
  have hf : fits num hs[j] = false := List.not_of_lt_findIdx hj
  simpa [fits, hx] using hf

/-! ## Freeing -/

/-- A handle of the freed run. -/
def freeHandle (link i : Nat) (handle : cache_handle) : cache_handle :=
  { handle with in_use := false, num_blocks := sub32 link i }

theorem free_blocks_get (index link blocks : Nat) (hs : List cache_handle) (j : Nat) :
    (free_blocks index link blocks hs)[j]? =
      if index ≤ j ∧ j < index + blocks then hs[j]?.map (freeHandle link (j - index))
      else hs[j]? := by
  induction blocks with
  | zero =>
    have hj : ¬ (index ≤ j ∧ j < index + 0) := by omega
    simp only [free_blocks, hj, if_false]
  | succ i ih =>
    rw [free_blocks, List.getElem?_modify, ih]
    by_cases hj : index + i = j
    · have h1 : ¬ (index ≤ j ∧ j < index + i) := by omega
      have h2 : index ≤ j ∧ j < index + (i + 1) := by omega
      have h3 : j - index = i := by omega
      cases hs[j]? <;> simp [h2, h3, hj, freeHandle]
    · have h2 : (index ≤ j ∧ j < index + (i + 1)) ↔ (index ≤ j ∧ j < index + i) := by omega
      simp [hj, h2]

@[simp] theorem free_blocks_length (index link blocks : Nat) (hs : List cache_handle) :
    (free_blocks index link blocks hs).length = hs.length := by
  induction blocks with
  | zero => rfl
  | succ i ih => simp [free_blocks, ih]

@[simp] theorem relink_up_length (i link : Nat) (hs : List cache_handle) :
    (relink_up i link hs).length = hs.length := by
  induction i generalizing link hs with
  | zero => rfl
  | succ i ih =>
    rw [relink_up]
    cases hs[i]? with
    | none => rfl
    | some x =>
      simp only
      split
      · rfl
      · rw [ih]; simp

theorem add32_add (link i : Nat) : add32 (add32 link 1) i = add32 link (i + 1) := by
  unfold add32 u32; omega

/-- The upward relink rewrites the free handles down to the first one in
use, counted from the link of the freed run, and no other handle. -/
theorem relink_up_get (i link : Nat) (hs : List cache_handle) (hi : i ≤ hs.length)
    (hl : link < u32) :
    ∃ u ≤ i, (∀ j x, u ≤ j → j < i → hs[j]? = some x →
        x.in_use = false ∧ (relink_up i link hs)[j]? =
          some { x with num_blocks := add32 link (i - 1 - j) }) ∧
      (∀ j, j < u ∨ i ≤ j → (relink_up i link hs)[j]? = hs[j]?) ∧
      (u = 0 ∨ ∃ x, hs[u - 1]? = some x ∧ x.in_use = true) := by
  induction i generalizing link hs with
  | zero => exact ⟨0, Nat.le_refl _, by intro j x _ hj; omega, by simp [relink_up], Or.inl rfl⟩
  | succ i ih =>
    obtain ⟨x, hx⟩ : ∃ x, hs[i]? = some x := ⟨hs[i], List.getElem?_eq_getElem (by omega)⟩
    by_cases hu : x.in_use = true
    · have hr : relink_up (i + 1) link hs = hs := by simp [relink_up, hx, hu]
      refine ⟨i + 1, Nat.le_refl _, by intro j x _ hj; omega, by simp [hr], Or.inr ⟨x, hx, hu⟩⟩
    · have hu' : x.in_use = false := by simpa using hu
      have hr : relink_up (i + 1) link hs =
          relink_up i (add32 link 1) (hs.set i { x with num_blocks := link }) := by
        simp [relink_up, hx, hu']
      obtain ⟨u, hui, hin, hout, hb⟩ := ih (add32 link 1)
        (hs.set i { x with num_blocks := link }) (by simp; omega)
        (Nat.mod_lt _ (by decide))
      have hset : ∀ j, j ≠ i → (hs.set i { x with num_blocks := link })[j]? = hs[j]? :=
        fun j hj => List.getElem?_set_ne (Ne.symm hj)
      refine ⟨u, by omega, ?_, ?_, ?_⟩
      · intro j y huj hj hy
        by_cases hji : j = i
        · subst hji
          rw [hx] at hy
          cases hy
          refine ⟨hu', ?_⟩
          rw [hr, hout j (Or.inr (Nat.le_refl _)), List.getElem?_set_self (by omega)]
          have : add32 link (j + 1 - 1 - j) = link := by
            unfold add32
            rw [show j + 1 - 1 - j = 0 by omega, Nat.add_zero]
            exact Nat.mod_eq_of_lt hl
          rw [this]
        · obtain ⟨h1, h2⟩ := hin j y huj (by omega) (by rw [hset j hji]; exact hy)
          refine ⟨h1, ?_⟩
          rw [hr, h2, add32_add, show i - 1 - j + 1 = i + 1 - 1 - j by omega]
      · intro j hj
        rw [hr, hout j (by omega), hset j (by omega)]
      · rcases hb with hb | ⟨y, hy, hyu⟩
        · exact Or.inl hb
        · by_cases hu0 : u = 0
          · exact Or.inl hu0
          · rw [hset _ (by omega)] at hy
            exact Or.inr ⟨y, hy, hyu⟩

/-- The table after both loops of a free: the freed run from `s` on, the
free handles up the line from it, and nothing else. -/
theorem free_table_get (s k link : Nat) (hs : List cache_handle) (hk : 0 < k)
    (hs' : s < hs.length) (hl : link < u32) :
    ∃ u ≤ s,
      (∀ j, s ≤ j → j < s + k → (relink_up (s + 1) link (free_blocks s link k hs))[j]? =
        hs[j]?.map (freeHandle link (j - s))) ∧
      (∀ j x, u ≤ j → j < s → hs[j]? = some x → x.in_use = false ∧
        (relink_up (s + 1) link (free_blocks s link k hs))[j]? =
          some { x with num_blocks := add32 link (s - j) }) ∧
      (∀ j, j < u ∨ s + k ≤ j →
        (relink_up (s + 1) link (free_blocks s link k hs))[j]? = hs[j]?) ∧
      (u = 0 ∨ ∃ x, hs[u - 1]? = some x ∧ x.in_use = true) := by
  have hrun : ∀ j, s ≤ j → j < s + k →
      (free_blocks s link k hs)[j]? = hs[j]?.map (freeHandle link (j - s)) := by
    intro j h1 h2
    rw [free_blocks_get, if_pos ⟨h1, h2⟩]
  have hrest : ∀ j, j < s ∨ s + k ≤ j → (free_blocks s link k hs)[j]? = hs[j]? := by
    intro j h
    rw [free_blocks_get, if_neg (by omega)]
  obtain ⟨u, hu, hin, hout, hb⟩ :=
    relink_up_get (s + 1) link (free_blocks s link k hs) (by simp; omega) hl
  have hget : hs[s]? = some hs[s] := List.getElem?_eq_getElem hs'
  have hstart : (free_blocks s link k hs)[s]? = some (freeHandle link 0 hs[s]) := by
    rw [hrun s (Nat.le_refl _) (by omega), hget, Nat.sub_self]
    rfl
  have hus : u ≤ s := by
    by_contra hc
    have he : u - 1 = s := by omega
    rcases hb with hb | ⟨x, hx, hxu⟩
    · omega
    · rw [he, hstart] at hx
      cases hx
      simp [freeHandle] at hxu
  have hzero : add32 link 0 = sub32 link 0 := by
    unfold add32 sub32; simp
  refine ⟨u, hus, ?_, ?_, ?_, ?_⟩
  · intro j h1 h2
    by_cases hj : j = s
    · subst hj
      obtain ⟨_, h3⟩ := hin j _ hus (by omega) hstart
      rw [h3, hget, Nat.sub_self, show j + 1 - 1 - j = 0 by omega]
      simp [freeHandle, hzero]
    · rw [hout j (Or.inr (by omega)), hrun j h1 h2]
  · intro j x h1 h2 hx
    obtain ⟨h3, h4⟩ := hin j x h1 (by omega) (by rw [hrest j (Or.inl h2)]; exact hx)
    rw [show s + 1 - 1 - j = s - j by omega] at h4
    exact ⟨h3, h4⟩
  · intro j hj
    rw [hout j (by omega), hrest j (by omega)]
  · rcases hb with hb | ⟨x, hx, hxu⟩
    · exact Or.inl hb
    · by_cases hu0 : u = 0
      · exact Or.inl hu0
      · rw [hrest _ (by omega)] at hx
        exact Or.inr ⟨x, hx, hxu⟩

end strangeio.memory
