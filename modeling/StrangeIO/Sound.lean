-- The interleaving of two channels (routine/sound.cpp). The samples lie at addresses, as
-- the source and the destination may be any.
import Mathlib.Data.List.Perm.Basic
import StrangeIO.CacheManager
import StrangeIO.Moves

namespace strangeio.routine.sound

open moves (memory run)
open strangeio.memory (PcmPtr add32 mul32 u32)

variable {α : Type}

/-- The exception of a null pointer. -/
structure cache_nullptr where
  m_component : String
deriving DecidableEq, Repr

/-- `channels[i]`, in a block of samples. -/
def channel (p num_frames i : Nat) : Nat := p + mul32 num_frames i

/-- `channel[sample] = in[blockIndex++]`. -/
def deinterleave_sample (in_ sample : Nat) (s : memory Nat α × Nat) (channel : Nat) :
    memory Nat α × Nat :=
  (s.1.write (channel + sample) (s.1.cell (in_ + s.2)), add32 s.2 1)

/-- `deinterleave2`, which checks no pointer. -/
def deinterleave2 (in_ out num_frames : Nat) (m : memory Nat α) : memory Nat α :=
  let channels := [channel out num_frames 0, channel out num_frames 1]
  ((List.range num_frames).foldl
    (fun s sample => channels.foldl (deinterleave_sample in_ sample) s) (m, 0)).1

/-- `out[blockIndex++] = channel[sample]`. -/
def interleave_sample (out sample : Nat) (s : memory Nat α × Nat) (channel : Nat) :
    memory Nat α × Nat :=
  (s.1.write (out + s.2) (s.1.cell (channel + sample)), add32 s.2 1)

def interleave2 (in_ out : PcmPtr) (nun_frames : Nat) (m : memory Nat α) :
    Except cache_nullptr (memory Nat α) :=
  match in_, out with
  | some in_, some out =>
    .ok ((List.range nun_frames).foldl
      (fun s sample =>
        let s := interleave_sample out sample s (channel in_ nun_frames 0)
        interleave_sample out sample s (channel in_ nun_frames 1)) (m, 0)).1
  | _, _ => .error ⟨"sound::routine::interleave"⟩

theorem interleave2_throws (in_ out : PcmPtr) (n : Nat) (m : memory Nat α) :
    interleave2 in_ out n m = .error ⟨"sound::routine::interleave"⟩ ↔ in_ = none ∨ out = none := by
  cases in_ with
  | none => simp [interleave2]
  | some in_ =>
    cases out with
    | none => simp [interleave2]
    | some out => simp [interleave2]

/-! ## The order of the samples -/

/-- The place of an interleaved sample behind the samples of the channels before its own. -/
def place (num_frames i : Nat) : Nat :=
  if i % 2 = 0 then i / 2 else num_frames + i / 2

theorem place_even (n k : Nat) : place n (2 * k) = k := by
  unfold place
  rw [if_pos (by omega)]
  omega

theorem place_odd (n k : Nat) : place n (2 * k + 1) = n + k := by
  unfold place
  rw [if_neg (by omega)]
  omega

theorem place_lt {n i : Nat} (h : i < 2 * n) : place n i < 2 * n := by
  unfold place
  split
  · omega
  · omega

theorem place_inj {n i j : Nat} (hi : i < 2 * n) (hj : j < 2 * n) (h : place n i = place n j) :
    i = j := by
  unfold place at h
  split at h
  · split at h
    · omega
    · omega
  · split at h
    · omega
    · omega

theorem place_surj {n k : Nat} (h : k < 2 * n) : ∃ i < 2 * n, place n i = k := by
  rcases Nat.lt_or_ge k n with hk | hk
  · exact ⟨2 * k, by omega, place_even n k⟩
  · refine ⟨2 * (k - n) + 1, by omega, ?_⟩
    rw [place_odd]
    omega

/-- The places are the indices, in another order. -/
theorem places_perm (n : Nat) :
    ((List.range (2 * n)).map (place n)).Perm (List.range (2 * n)) := by
  have hnodup : ((List.range (2 * n)).map (place n)).Nodup :=
    List.Nodup.map_on (fun i hi j hj => place_inj (List.mem_range.mp hi) (List.mem_range.mp hj))
      List.nodup_range
  apply (List.perm_ext_iff_of_nodup hnodup List.nodup_range).mpr
  intro k
  rw [List.mem_map, List.mem_range]
  constructor
  · rintro ⟨i, hi, rfl⟩
    exact place_lt (List.mem_range.mp hi)
  · intro hk
    obtain ⟨i, hi, hplace⟩ := place_surj hk
    exact ⟨i, List.mem_range.mpr hi, hplace⟩

/-! ## The loops as moves -/

/-- The moves of the samples up to `k`, as both loops make them. -/
def deinterleaving (in_ out num_frames k : Nat) : List (Nat × Nat) :=
  (List.range k).map fun i => (out + place num_frames i, in_ + i)

def interleaving (in_ out num_frames k : Nat) : List (Nat × Nat) :=
  (List.range k).map fun i => (out + i, in_ + place num_frames i)

theorem channel_zero (p n : Nat) : channel p n 0 = p := by
  unfold channel mul32
  simp

theorem channel_one {n : Nat} (h : 2 * n < u32) (p : Nat) : channel p n 1 = p + n := by
  unfold channel mul32
  rw [Nat.mul_one, Nat.mod_eq_of_lt (by omega)]

theorem add32_one {i : Nat} (h : i + 1 < u32) : add32 i 1 = i + 1 := Nat.mod_eq_of_lt h

/-- A loop over the frames that makes the next two moves for each makes all of them. The
block index counts them. -/
theorem frames_move {step : memory Nat α × Nat → Nat → memory Nat α × Nat}
    {moves_ : Nat → Nat × Nat} {n : Nat}
    (hstep : ∀ k < n, ∀ m, step (m, 2 * k) k =
      (run [moves_ (2 * k), moves_ (2 * k + 1)] m, 2 * (k + 1))) (m : memory Nat α) :
    (List.range n).foldl step (m, 0) = (run ((List.range (2 * n)).map moves_) m, 2 * n) := by
  induction n with
  | zero => rfl
  | succ n ih =>
    have ih := ih fun k hk => hstep k (Nat.lt_succ_of_lt hk)
    have hrange : List.range (2 * (n + 1)) = List.range (2 * n) ++ [2 * n, 2 * n + 1] := by
      rw [Nat.mul_succ, List.range_succ, List.range_succ, List.append_assoc]
      rfl
    rw [hrange, List.map_append, moves.run_append, List.range_succ, List.foldl_append, ih]
    exact hstep n (Nat.lt_succ_self n) _

theorem deinterleave2_moves {n : Nat} (h : 2 * n < u32) (in_ out : Nat) (m : memory Nat α) :
    deinterleave2 in_ out n m = run (deinterleaving in_ out n (2 * n)) m := by
  refine congrArg Prod.fst (frames_move (fun k hk m => ?_) m)
  rw [place_even, place_odd, channel_zero, channel_one h]
  simp only [List.foldl_cons, List.foldl_nil, deinterleave_sample, moves.run_cons, moves.run_nil]
  rw [add32_one (by omega), add32_one (by omega), Nat.add_assoc out n k]
  rfl

theorem interleave2_moves {n : Nat} (h : 2 * n < u32) (in_ out : Nat) (m : memory Nat α) :
    interleave2 (some in_) (some out) n m = .ok (run (interleaving in_ out n (2 * n)) m) := by
  refine congrArg (fun s => Except.ok s.1) (frames_move (fun k hk m => ?_) m)
  rw [place_even, place_odd, channel_zero, channel_one h]
  simp only [interleave_sample, moves.run_cons, moves.run_nil]
  rw [add32_one (by omega), add32_one (by omega), Nat.add_assoc in_ n k]
  rfl

/-! ## What a call writes and brings -/

/-- No sample of one block is a sample of the other. -/
def Distinct (p q k : Nat) : Prop := ∀ i j, i < k → j < k → p + i ≠ q + j

def samples (m : memory Nat α) (p k : Nat) : List α := (List.range k).map fun i => m.cell (p + i)

/-- From `m` to `m'` each sample of the block was written once, and no other. -/
structure WritesOnce (m m' : memory Nat α) (p k : Nat) : Prop where
  written : ∃ ws, m'.written = m.written ++ ws ∧ ws.Perm ((List.range k).map (p + ·))
  frame : ∀ a, (∀ i < k, a ≠ p + i) → m'.cell a = m.cell a

/-- Moves to the samples of a block in any order write each once. -/
theorem writes_once {ps : List (Nat × Nat)} {p k : Nat}
    (h : (ps.map Prod.fst).Perm ((List.range k).map (p + ·))) (m : memory Nat α) :
    WritesOnce m (run ps m) p k := by
  refine ⟨⟨_, moves.run_written ps m, h⟩, fun a ha => moves.run_other (fun hmem => ?_) m⟩
  obtain ⟨i, hi, rfl⟩ := List.mem_map.mp (h.mem_iff.mp hmem)
  exact ha i (List.mem_range.mp hi) rfl

theorem deinterleaving_perm (in_ out n : Nat) :
    ((deinterleaving in_ out n (2 * n)).map Prod.fst).Perm
      ((List.range (2 * n)).map (out + ·)) := by
  have h := (places_perm n).map (out + ·)
  rw [List.map_map] at h
  unfold deinterleaving
  rw [List.map_map]
  exact h

theorem interleaving_perm (in_ out n : Nat) :
    ((interleaving in_ out n (2 * n)).map Prod.fst).Perm ((List.range (2 * n)).map (out + ·)) := by
  unfold interleaving
  rw [List.map_map]
  exact List.Perm.refl _

/-- Moves from one block to another bring what was there. -/
theorem moved {ps : List (Nat × Nat)} {p q k : Nat}
    (h : (ps.map Prod.fst).Perm ((List.range k).map (q + ·))) (hpq : Distinct p q k)
    (hsrc : ∀ x ∈ ps, ∃ i < k, x.2 = p + i) {x : Nat × Nat} (hx : x ∈ ps) (m : memory Nat α) :
    (run ps m).cell x.1 = m.cell x.2 := by
  have hnodup : ((List.range k).map (q + ·)).Nodup :=
    List.nodup_range.map fun i j hij => Nat.add_left_cancel hij
  refine moves.run_moved (h.nodup_iff.mpr hnodup) (fun y hy hmem => ?_) hx m
  obtain ⟨i, hi, hyi⟩ := hsrc y hy
  obtain ⟨j, hj, hyj⟩ := List.mem_map.mp (h.mem_iff.mp hmem)
  exact hpq i j hi (List.mem_range.mp hj) (hyi.symm.trans hyj.symm)

/-- `LRLRLR` becomes `LLLRRR`. -/
theorem deinterleaved_sample {n p q i : Nat} (hpq : Distinct p q (2 * n)) (hi : i < 2 * n)
    (m : memory Nat α) :
    (run (deinterleaving p q n (2 * n)) m).cell (q + place n i) = m.cell (p + i) := by
  have hsrc : ∀ x ∈ deinterleaving p q n (2 * n), ∃ i < 2 * n, x.2 = p + i := by
    intro x hx
    obtain ⟨j, hj, rfl⟩ := List.mem_map.mp hx
    exact ⟨j, List.mem_range.mp hj, rfl⟩
  exact moved (deinterleaving_perm p q n) hpq hsrc
    (List.mem_map.mpr ⟨i, List.mem_range.mpr hi, rfl⟩) m

/-- `LLLRRR` becomes `LRLRLR`. -/
theorem interleaved_sample {n p q i : Nat} (hpq : Distinct p q (2 * n)) (hi : i < 2 * n)
    (m : memory Nat α) :
    (run (interleaving p q n (2 * n)) m).cell (q + i) = m.cell (p + place n i) := by
  have hsrc : ∀ x ∈ interleaving p q n (2 * n), ∃ i < 2 * n, x.2 = p + i := by
    intro x hx
    obtain ⟨j, hj, rfl⟩ := List.mem_map.mp hx
    exact ⟨place n j, place_lt (List.mem_range.mp hj), rfl⟩
  exact moved (interleaving_perm p q n) hpq hsrc
    (List.mem_map.mpr ⟨i, List.mem_range.mpr hi, rfl⟩) m

/-! ## There and back -/

theorem interleave_deinterleave {n x y z : Nat} (hxy : Distinct x y (2 * n))
    (hyz : Distinct y z (2 * n)) (m : memory Nat α) :
    samples (run (interleaving y z n (2 * n)) (run (deinterleaving x y n (2 * n)) m)) z (2 * n) =
      samples m x (2 * n) := by
  refine List.map_congr_left fun i hi => ?_
  have hi := List.mem_range.mp hi
  rw [interleaved_sample hyz hi, deinterleaved_sample hxy hi]

theorem deinterleave_interleave {n x y z : Nat} (hxy : Distinct x y (2 * n))
    (hyz : Distinct y z (2 * n)) (m : memory Nat α) :
    samples (run (deinterleaving y z n (2 * n)) (run (interleaving x y n (2 * n)) m)) z (2 * n) =
      samples m x (2 * n) := by
  refine List.map_congr_left fun k hk => ?_
  obtain ⟨i, hi, rfl⟩ := place_surj (List.mem_range.mp hk)
  rw [deinterleaved_sample hyz hi, interleaved_sample hxy hi]

/-- Two calls, from the block `x` by way of `y` to `z`: each writes its destination once, and
in the end it has the samples of `x`. -/
def Returns (m m' m'' : memory Nat α) (x y z k : Nat) : Prop :=
  WritesOnce m m' y k ∧ WritesOnce m' m'' z k ∧ samples m'' z k = samples m x k

/-- **Interleaving takes back deinterleaving, and deinterleaving takes back interleaving, and
each call writes every sample of its destination once.** -/
theorem interleaving_and_deinterleaving_are_inverse (n : Nat) (h : 2 * n < u32) (x y z : Nat)
    (hxy : Distinct x y (2 * n)) (hyz : Distinct y z (2 * n)) (m : memory Nat α) :
    (∃ m', interleave2 (some y) (some z) n (deinterleave2 x y n m) = .ok m' ∧
        Returns m (deinterleave2 x y n m) m' x y z (2 * n)) ∧
      ∃ m', interleave2 (some x) (some y) n m = .ok m' ∧
        Returns m m' (deinterleave2 y z n m') x y z (2 * n) := by
  simp only [deinterleave2_moves h, interleave2_moves h]
  constructor
  · exact ⟨_, rfl, writes_once (deinterleaving_perm x y n) m,
      writes_once (interleaving_perm y z n) _, interleave_deinterleave hxy hyz m⟩
  · exact ⟨_, rfl, writes_once (interleaving_perm x y n) m,
      writes_once (deinterleaving_perm y z n) _, deinterleave_interleave hxy hyz m⟩

/-- Six samples at the addresses from 0 on. -/
def counting : memory Nat Nat := ⟨fun a => a, []⟩

/-- Three frames, and back to where they came from. -/
theorem three_frames_return :
    ∃ m', interleave2 (some 6) (some 0) 3 (deinterleave2 0 6 3 counting) = .ok m' ∧
      Returns counting (deinterleave2 0 6 3 counting) m' 0 6 0 6 := by
  have hforth : Distinct 0 6 6 := by
    intro i j hi hj
    omega
  have hback : Distinct 6 0 6 := by
    intro i j hi hj
    omega
  exact (interleaving_and_deinterleaving_are_inverse 3 (by decide) 0 6 0 hforth hback counting).1

end strangeio.routine.sound
