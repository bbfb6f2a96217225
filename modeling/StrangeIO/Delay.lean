-- The delay line (buffer/delay.cpp): a buffer that is never allocated, to
-- which each supply copies. `none` is what the language leaves undefined, as a
-- write through a null pointer.
import StrangeIO.CachePtr

namespace strangeio.buffer

open strangeio.memory (cache_ptr Objects Effect PcmPtr)

variable {κ α : Type}

/-- `m_buffer` is null, or an array of samples. -/
structure delay (α : Type) where
  m_size : Nat
  m_load : Nat
  m_blocks : Nat
  m_buffer : Option (List α)
deriving DecidableEq

namespace delay

inductive state where
  | ok
  | wait
deriving DecidableEq, Repr

/-! ## The members -/

/-- The `int` becomes `unsigned`. -/
def new (num_blocks : Int) : delay α where
  m_size := 0
  m_load := 0
  m_blocks := (num_blocks.emod memory.u32).toNat
  m_buffer := none

def load (d : delay α) : Nat := d.m_load

/-- The sum is `unsigned`. -/
def has_capacity (num_samples : Int) (d : delay α) : state :=
  if (d.m_size : Int) < (d.m_load + num_samples).emod memory.u32 then .wait else .ok

def flush_raw (d : delay α) : Option (List α) × delay α := (d.m_buffer, { d with m_load := 0 })

/-- The samples that a copy reads. A copy of none reads nothing. -/
def read (pcm : Nat → α) (ptr : PcmPtr) (num : Nat) : Option (List α) :=
  if num = 0 then some [] else ptr.map fun a => (List.range num).map fun i => pcm (a + i)

/-- The copy to `m_buffer + m_load`. -/
def copy_in (xs : List α) (d : delay α) : Option (delay α) :=
  if xs = [] then some d
  else
    d.m_buffer.bind fun buffer =>
      if d.m_load + xs.length ≤ buffer.length then
        some { d with
          m_buffer := some (buffer.take d.m_load ++ xs ++ buffer.drop (d.m_load + xs.length)) }
      else none

/-- `block_size` and `num_blocks` of the samples. `block_size` has the blocks of each cache. -/
def num_samples (block_size : κ → Nat) (samples : cache_ptr κ) : Nat :=
  samples.m_cache.elim 0 block_size * samples.m_num_blocks % memory.u32

/-- The samples come by value: they are the one object here, which is destroyed
in the end. `pcm` is the memory of the caches. -/
def supply (block_size : κ → Nat) (pcm : Nat → α) (samples : cache_ptr κ) (d : delay α) :
    Option (state × List (Effect κ) × delay α) := do
  let num := num_samples block_size samples
  let (ptr, m) := cache_ptr.release 0 { obj := fun _ => samples, effects := [] }
  let xs ← read pcm ptr num
  let d ← d.copy_in xs
  let m := cache_ptr.destroy 0 m
  some (.ok, m.effects, { d with m_load := (d.m_load + num) % memory.u32 })

/-! ## The calls -/

inductive call (κ : Type) where
  | load
  | has_capacity (num_samples : Int)
  | supply (samples : cache_ptr κ)
  | flush_raw

/-- The samples that the buffer has room for. -/
def allocated (d : delay α) : Nat := (d.m_buffer.getD []).length

/-- The samples that were loaded. -/
def content (d : delay α) : List α := (d.m_buffer.getD []).take d.m_load

/-- A delay line, with the samples that it accepted since it was last flushed. -/
structure session (α : Type) where
  line : delay α
  accepted : List α

def session.start (num_blocks : Int) : session α where
  line := new num_blocks
  accepted := []

section runs

variable (block_size : κ → Nat) (pcm : Nat → α)

def session.step (s : session α) : call κ → Option (session α)
  | .load | .has_capacity _ => some s
  | .flush_raw => some { line := s.line.flush_raw.2, accepted := [] }
  | .supply samples => do
    let xs ← read pcm samples.m_block (num_samples block_size samples)
    let (state, _, line) ← s.line.supply block_size pcm samples
    some { line, accepted := if state = .ok then s.accepted ++ xs else s.accepted }

/-- The load stays within the buffer, and the buffer holds what was accepted. -/
structure kept (s : session α) : Prop where
  load : s.line.load ≤ s.line.allocated
  content : s.line.content = s.accepted

/-- The block of the samples, if they are of a cache, went back to it. -/
def returned (samples : cache_ptr κ) (effects : List (Effect κ)) : Prop :=
  ∀ block cache, samples.m_block = some block → samples.m_cache = some cache →
    .free_raw cache block ∈ effects

/-- What a call is to do. A supply takes all the samples where they fit, and
says so, and it returns their block; a flush gives what was accepted. -/
def answers (s : session α) : call κ → Prop
  | .load | .has_capacity _ => True
  | .flush_raw => ∃ rest, (s.line.flush_raw.1.getD []) = s.accepted ++ rest
  | .supply samples => ∃ xs state effects line,
    read pcm samples.m_block (num_samples block_size samples) = some xs ∧
    s.line.supply block_size pcm samples = some (state, effects, line) ∧
    returned samples effects ∧
    if s.accepted.length + xs.length ≤ s.line.allocated then
      state = .ok ∧ line.content = s.accepted ++ xs
    else state = .wait ∧ line.load = s.line.load ∧ line.content = s.line.content

/-- In every run of the calls each of them does so, and what is loaded is kept. -/
def keeps_promises : List (call κ) → session α → Prop
  | [], s => kept s
  | o :: os, s =>
    kept s ∧ answers block_size pcm s o ∧
      ∃ t, s.step block_size pcm o = some t ∧ keeps_promises os t

/-- There is nothing in the samples that are supplied: no cache, or neither a
block nor a number of samples. -/
def supplies_nothing : call κ → Prop
  | .supply samples =>
    samples.m_cache = none ∨ samples.m_block = none ∧ num_samples block_size samples = 0
  | _ => True

end runs

/-! ## What a supply does -/

section supplies

variable {block_size : κ → Nat} {pcm : Nat → α}

/-- A supply gives no block back: it has let go of it when the samples are destroyed. -/
theorem supply_effects {d d' : delay α} {samples : cache_ptr κ} {st : state}
    {effects : List (Effect κ)}
    (h : d.supply block_size pcm samples = some (st, effects, d')) : effects = [] := by
  obtain ⟨xs, -, h⟩ := Option.bind_eq_some_iff.mp h
  obtain ⟨d1, -, h⟩ := Option.bind_eq_some_iff.mp h
  cases h
  rw [cache_ptr.destroy_idle]
  · rfl
  · simp [Objects.set]

/-- A new delay line takes no sample. -/
theorem supply_new {num_blocks : Int} {samples : cache_ptr κ} {st : state}
    {effects : List (Effect κ)} {d' : delay α}
    (h : (new num_blocks : delay α).supply block_size pcm samples = some (st, effects, d')) :
    num_samples block_size samples = 0 := by
  by_contra hnum
  obtain ⟨xs, hxs, h⟩ := Option.bind_eq_some_iff.mp h
  obtain ⟨d1, hd1, -⟩ := Option.bind_eq_some_iff.mp h
  have hsome : xs ≠ [] := by
    unfold read at hxs
    rw [if_neg hnum] at hxs
    obtain ⟨a, -, rfl⟩ := Option.map_eq_some_iff.mp hxs
    simpa using hnum
  unfold copy_in at hd1
  rw [if_neg hsome] at hd1
  cases hd1

/-- A supply of no samples changes nothing. -/
theorem supply_nothing (pcm : Nat → α) (num_blocks : Int) {samples : cache_ptr κ}
    (hnum : num_samples block_size samples = 0) :
    (new num_blocks : delay α).supply block_size pcm samples = some (.ok, [], new num_blocks) := by
  have hread : ∀ ptr, read pcm ptr 0 = some [] := fun _ => rfl
  have heffects : (cache_ptr.destroy 0
      (cache_ptr.release 0 { obj := fun _ => samples, effects := [] }).2).effects = [] := by
    rw [cache_ptr.destroy_idle]
    · rfl
    · simp [cache_ptr.release, Objects.set]
  unfold supply
  simp only [hnum, hread, heffects, Option.bind_eq_bind, Option.bind_some]
  rfl

theorem answers_start (block_size : κ → Nat) (pcm : Nat → α) (num_blocks : Int) (o : call κ) :
    answers block_size pcm (session.start num_blocks) o ↔ supplies_nothing block_size o := by
  cases o with
  | load => exact Iff.rfl
  | has_capacity n => exact Iff.rfl
  | flush_raw => exact iff_of_true ⟨[], rfl⟩ trivial
  | supply samples =>
    constructor
    · rintro ⟨xs, st, effects, line, -, hsupply, hreturned, -⟩
      have hnum := supply_new hsupply
      rw [supply_effects hsupply] at hreturned
      unfold supplies_nothing
      by_contra hnot
      simp only [not_or, not_and_or, hnum, not_true, or_false] at hnot
      obtain ⟨hcache, hblock⟩ := hnot
      obtain ⟨cache, hcache⟩ := Option.ne_none_iff_exists'.mp hcache
      obtain ⟨block, hblock⟩ := Option.ne_none_iff_exists'.mp hblock
      exact absurd (hreturned block cache hblock hcache) List.not_mem_nil
    · intro hnothing
      have hnum : num_samples block_size samples = 0 := by
        rcases hnothing with hcache | ⟨-, hnum⟩
        · simp [num_samples, hcache]
        · exact hnum
      refine ⟨[], .ok, [], new num_blocks, ?_, supply_nothing pcm num_blocks hnum, ?_, ?_⟩
      · unfold read
        rw [if_pos hnum]
      · intro block cache hblock hcache
        rcases hnothing with hnone | ⟨hnone, -⟩
        · rw [hnone] at hcache
          cases hcache
        · rw [hnone] at hblock
          cases hblock
      · exact ⟨rfl, rfl⟩

/-- A call that supplies nothing leaves a new delay line as it is. -/
theorem step_start (num_blocks : Int) {o : call κ} (h : answers block_size pcm
    (session.start num_blocks : session α) o) :
    (session.start num_blocks).step block_size pcm o = some (session.start num_blocks) := by
  cases o with
  | load => rfl
  | has_capacity n => rfl
  | flush_raw => rfl
  | supply samples =>
    obtain ⟨xs, st, effects, line, hread, hsupply, -⟩ := h
    have hnum := supply_new hsupply
    have hnone : xs = [] := by
      unfold read at hread
      rw [if_pos hnum] at hread
      exact (Option.some.inj hread).symm
    have hsame := supply_nothing pcm num_blocks hnum
    unfold session.step session.start
    simp only [hread, hsame, hnone, Option.bind_eq_bind, Option.bind_some]
    rfl

end supplies

/-- **The delay line does what it promises throughout a run just when no call of
it supplies anything**: there is no buffer to take a sample, and no block goes
back to its cache. -/
theorem a_delay_keeps_its_promises_while_nothing_is_supplied (block_size : κ → Nat)
    (pcm : Nat → α) (num_blocks : Int) (os : List (call κ)) :
    keeps_promises block_size pcm os (session.start num_blocks) ↔
      ∀ o ∈ os, supplies_nothing block_size o := by
  have hkept : kept (session.start num_blocks : session α) := ⟨Nat.le_refl 0, rfl⟩
  induction os with
  | nil => exact iff_of_true hkept fun o ho => absurd ho List.not_mem_nil
  | cons o os ih =>
    have hhead := answers_start block_size pcm num_blocks o
    rw [List.forall_mem_cons]
    constructor
    · rintro ⟨-, hanswers, t, ht, hrest⟩
      cases (step_start num_blocks hanswers).symm.trans ht
      exact ⟨hhead.mp hanswers, ih.mp hrest⟩
    · rintro ⟨hnothing, hrest⟩
      have hanswers := hhead.mpr hnothing
      exact ⟨hkept, hanswers, _, step_start num_blocks hanswers, ih.mpr hrest⟩

/-- A delay line for four blocks is supplied with one sample. -/
theorem one_sample_is_too_many :
    ¬ keeps_promises (fun _ : Unit => 1) (fun _ => (0 : Nat))
      [.supply { m_cache := some (), m_block := some 0, m_num_blocks := 1 }]
      (session.start 4) := by
  rintro ⟨-, ⟨xs, st, effects, line, -, hsupply, -⟩, -⟩
  cases hsupply

end delay

end strangeio.buffer
