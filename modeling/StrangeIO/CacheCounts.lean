-- The owners of a program over its caches, from the construction of both on: whether
-- each of them counts blocks just when it has a block. The methods write the two apart.
import StrangeIO.CacheHeap
import StrangeIO.CachePtr
import StrangeIO.Delay
import StrangeIO.Transition

namespace strangeio.memory

variable {κ : Type}

/-- A `cache_ptr` is empty just when it has no blocks, and then there are no samples of
it to copy. -/
structure cache_ptr.Counted (q : cache_ptr κ) : Prop where
  empty_iff : q.m_block = none ↔ q.m_num_blocks = 0
  no_samples : q.m_block = none → ∀ block_size, buffer.delay.num_samples block_size q = 0

/-- The caches, and the `cache_ptr` variables by their addresses. -/
structure Program (κ : Type) where
  caches : κ → cache_manager
  vars : Nat → Option (cache_ptr κ)

namespace Program

/-- No cache is built yet, and no variable constructed. -/
def start (num_blocks bound : κ → Nat) : Program κ where
  caches k := cache_manager.make (num_blocks k) (bound k)
  vars _ := none

def objects (p : Program κ) : Objects κ where
  obj x := (p.vars x).getD {}
  effects := []

def put (p : Program κ) (x : Nat) (v : Option (cache_ptr κ)) : Program κ :=
  { p with vars := Function.update p.vars x v }

inductive Op (κ : Type) where
  | build_cache (cache : κ) (raw block_size : Nat)
  | alloc_raw (cache : κ) (num : Nat)
  | free_raw (cache : κ) (ptr : PcmPtr)
  | construct (x : Nat)
  | cache_alloc (x : Nat) (u : cptr_utility κ) (num : Nat)
  | move_construct (x y : Nat)
  | assign (x y : Nat)
  | swap (x y : Nat) (release_first : Bool)
  | reset (x : Nat) (ptr : PcmPtr) (num_blocks : Nat)
  | release (x : Nat)
  | free (x : Nat)
  | destroy (x : Nat)

/-- The operations on the variables that there are. A `reset` takes null, or a block
with a count. -/
def Permits (p : Program κ) : Op κ → Prop
  | .build_cache _ _ _ | .alloc_raw _ _ | .free_raw _ _ => True
  | .construct x => p.vars x = none
  | .cache_alloc x _ _ => p.vars x = none
  | .move_construct x y => p.vars x = none ∧ (p.vars y).isSome
  | .assign x y => (p.vars x).isSome ∧ (p.vars y).isSome
  | .swap x y _ => (p.vars x).isSome ∧ (p.vars y).isSome
  | .reset x ptr num_blocks => (p.vars x).isSome ∧ (ptr = none ∨ 0 < num_blocks)
  | .release x => (p.vars x).isSome
  | .free x => (p.vars x).isSome
  | .destroy x => (p.vars x).isSome

/-- Every variable counts its blocks. -/
def Counts (p : Program κ) : Prop := ∀ x q, p.vars x = some q → q.Counted

/-- The operations that leave a pointer and its count in step. A cache of size 0 gives
null, and `cache_alloc` the count that it was asked for; `free` takes the block alone; and
a swap that releases first has no count left for `cptr`. -/
def KeepsCounts (p : Program κ) : Op κ → Prop
  | .cache_alloc _ u num =>
    ∀ cache, u.m_cache = some cache → (p.caches cache).m_cache_size = 0 → num = 0
  | .swap x y release_first => release_first → x ≠ y → (p.objects.obj x).m_num_blocks = 0
  | .reset _ ptr num_blocks => ptr = none → num_blocks = 0
  | .free x => (p.objects.obj x).m_block = none ∨ (p.objects.obj x).m_cache = none
  | _ => True

section perform

variable [DecidableEq κ]

def cache (p : Program κ) (k : κ) (c : cache_manager) : Program κ :=
  { p with caches := Function.update p.caches k c }

def effect (past : Nat → cache_handle) (p : Program κ) : Effect κ → Program κ
  | .free_raw k ptr => p.cache k ((p.caches k).free_raw past (some ptr))
  | .log _ => p

/-- The program after a method, with the effects of it. -/
def after (past : Nat → cache_handle) (p : Program κ) (m : Objects κ) : Program κ :=
  m.effects.foldl (effect past) { p with vars := fun x => (p.vars x).map fun _ => m.obj x }

/-- A utility without a cache reads none. An allocation that throws leaves no variable. -/
def cache_alloc (p : Program κ) (x : Nat) (u : cptr_utility κ) (num : Nat) : Program κ :=
  let r := u.cache_alloc num (u.m_cache.elim (cache_manager.make 0 0) p.caches)
  let p := u.m_cache.elim p fun k => p.cache k r.2
  match r.1 with
  | .ok q => p.put x (some q)
  | .error _ => p

def perform (past : Nat → cache_handle) (p : Program κ) : Op κ → Program κ
  | .build_cache k raw block_size => p.cache k ((p.caches k).build_cache raw block_size)
  | .alloc_raw k num => p.cache k ((p.caches k).alloc_raw num 0).2.2
  | .free_raw k ptr => p.cache k ((p.caches k).free_raw past ptr)
  | .construct x => p.put x (some {})
  | .cache_alloc x u num => p.cache_alloc x u num
  | .move_construct x y =>
    let p := p.put x (some {})
    p.after past (cache_ptr.move_construct x y p.objects)
  | .assign x y => p.after past (cache_ptr.assign x y p.objects)
  | .swap x y release_first => p.after past (cache_ptr.swap x y release_first p.objects)
  | .reset x ptr num_blocks => p.after past (cache_ptr.reset x ptr num_blocks p.objects)
  | .release x => p.after past (cache_ptr.release x p.objects).2
  | .free x => p.after past (cache_ptr.free x p.objects)
  | .destroy x => (p.after past (cache_ptr.destroy x p.objects)).put x none

end perform

end Program

open Program (Op)

/-- An operation, and what memory past a handle table holds at the time. -/
def programs [DecidableEq κ] (num_blocks bound : κ → Nat) :
    transition.System (Program κ) ((Nat → cache_handle) × Op κ) where
  start p := p = Program.start num_blocks bound
  step p act p' := p.Permits act.2 ∧ p' = p.perform act.1 act.2

/-! ## The counts of the variables -/

theorem cache_ptr.counted_iff (q : cache_ptr κ) :
    q.Counted ↔ (q.m_block = none ↔ q.m_num_blocks = 0) := by
  constructor
  · intro h
    exact h.empty_iff
  · intro h
    refine ⟨h, fun hb block_size => ?_⟩
    simp [buffer.delay.num_samples, h.mp hb]

theorem cache_ptr.counted_empty : cache_ptr.Counted ({} : cache_ptr κ) :=
  (cache_ptr.counted_iff _).mpr (iff_of_true rfl rfl)

namespace Program

theorem counts_objects (p : Program κ) :
    p.Counts ↔ ∀ a, (p.vars a).isSome → (p.objects.obj a).Counted := by
  constructor
  · intro h a ha
    obtain ⟨q, hq⟩ := Option.isSome_iff_exists.mp ha
    have hobj : p.objects.obj a = q := by simp [objects, hq]
    rw [hobj]
    exact h a q hq
  · intro h a q hq
    have hobj : p.objects.obj a = q := by simp [objects, hq]
    rw [← hobj]
    exact h a (by rw [hq]; rfl)

theorem counts_put (p : Program κ) (h : p.Counts) (x : Nat) (v : Option (cache_ptr κ)) :
    (p.put x v).Counts ↔ ∀ q, v = some q → q.Counted := by
  constructor
  · intro hput q hq
    exact hput x q (by simpa [put] using hq)
  · intro hv a q hq
    by_cases hax : a = x
    · subst hax
      exact hv q (by simpa [put] using hq)
    · exact h a q (by simpa [put, hax] using hq)

section steps

variable [DecidableEq κ]

theorem effects_vars (past : Nat → cache_handle) (es : List (Effect κ)) (p : Program κ) :
    (es.foldl (effect past) p).vars = p.vars := by
  induction es generalizing p with
  | nil => rfl
  | cons e es ih =>
    rw [List.foldl_cons, ih]
    cases e <;> rfl

theorem counts_after (past : Nat → cache_handle) (p : Program κ) (m : Objects κ) :
    (p.after past m).Counts ↔
      ∀ a, (p.vars a).isSome → ((m.obj a).m_block = none ↔ (m.obj a).m_num_blocks = 0) := by
  have hvars : (p.after past m).vars = fun x => (p.vars x).map fun _ => m.obj x :=
    effects_vars past m.effects _
  unfold Counts
  rw [hvars]
  constructor
  · intro h a ha
    obtain ⟨q, hq⟩ := Option.isSome_iff_exists.mp ha
    exact (h a (m.obj a) (by simp [hq])).empty_iff
  · intro h a q hq
    obtain ⟨q', hq', rfl⟩ := Option.map_eq_some_iff.mp hq
    exact (cache_ptr.counted_iff _).mpr (h a (by rw [hq']; rfl))

/-! ## What an operation does to the counts -/

theorem counts_cache (p : Program κ) (k : κ) (c : cache_manager) :
    (p.cache k c).Counts ↔ p.Counts := Iff.rfl

variable {p : Program κ}

/-- A method that empties an owner, or gives it the block and the count of an owner,
keeps the counts. -/
theorem counts_moved (h : p.Counts) (past : Nat → cache_handle) {m : Objects κ}
    (hm : ∀ a, (p.vars a).isSome → (m.obj a).m_block = none ∧ (m.obj a).m_num_blocks = 0 ∨
      ∃ z, (p.vars z).isSome ∧ (m.obj a).m_block = (p.objects.obj z).m_block ∧
        (m.obj a).m_num_blocks = (p.objects.obj z).m_num_blocks) : (p.after past m).Counts := by
  refine (counts_after past p m).mpr fun a ha => ?_
  rcases hm a ha with ⟨hb, hn⟩ | ⟨z, hz, hb, hn⟩
  · exact iff_of_true hb hn
  · rw [hb, hn]
    exact ((counts_objects p).mp h z hz).empty_iff

/-- The same where `y` gives its block to `x`. -/
theorem counts_pass (h : p.Counts) (past : Nat → cache_handle) {x y : Nat} {m : Objects κ}
    (hy : (p.vars y).isSome)
    (hblock : ∀ a, (m.obj a).m_block = if a = y then none else
      if a = x then (p.objects.obj y).m_block else (p.objects.obj a).m_block)
    (hcount : ∀ a, (m.obj a).m_num_blocks = if a = y then 0 else
      if a = x then (p.objects.obj y).m_num_blocks else (p.objects.obj a).m_num_blocks) :
    (p.after past m).Counts := by
  refine counts_moved h past fun a ha => ?_
  rw [hblock a, hcount a]
  by_cases hay : a = y
  · left
    simp [hay]
  · right
    by_cases hax : a = x
    · exact ⟨y, hy, by rw [if_neg hay, if_pos hax], by rw [if_neg hay, if_pos hax]⟩
    · exact ⟨a, ha, by rw [if_neg hay, if_neg hax], by rw [if_neg hay, if_neg hax]⟩

theorem counts_cache_alloc (h : p.Counts) (x : Nat) (u : cptr_utility κ) (num : Nat) :
    (p.cache_alloc x u num).Counts ↔
      ∀ cache, u.m_cache = some cache → (p.caches cache).m_cache_size = 0 → num = 0 := by
  unfold cache_alloc cptr_utility.cache_alloc
  rcases u.m_cache with _ | k
  · refine iff_of_true ((counts_put p h x _).mpr ?_) fun cache hcache => by cases hcache
    rintro q ⟨⟩
    exact cache_ptr.counted_empty
  · simp only [Option.elim_some, Option.some.injEq, forall_eq']
    rcases alloc_raw_cases (p.caches k) num 0 with ⟨hsize, he⟩ | ⟨hsize, -, he⟩ |
      ⟨hsize, hpos, c, -, he⟩
    · rw [he]
      refine (counts_put _ ((counts_cache p k _).mpr h) x _).trans ?_
      simp [cache_ptr.counted_iff, hsize]
    · rw [he]
      exact iff_of_true ((counts_cache p k _).mpr h) fun hzero => absurd hzero hsize
    · rw [he]
      refine iff_of_true ((counts_put _ ((counts_cache p k _).mpr h) x _).mpr ?_)
        fun hzero => absurd hzero hsize
      rintro q ⟨⟩
      exact (cache_ptr.counted_iff _).mpr (iff_of_false (Option.some_ne_none _) (by simp; omega))

theorem counts_swap (h : p.Counts) (past : Nat → cache_handle) {x y : Nat}
    (hx : (p.vars x).isSome) (hy : (p.vars y).isSome) (release_first : Bool) :
    (p.after past (cache_ptr.swap x y release_first p.objects)).Counts ↔
      (release_first → x ≠ y → (p.objects.obj x).m_num_blocks = 0) := by
  have hobj := (counts_objects p).mp h
  have hblock := fun a => ((cache_ptr.swap_spec x y release_first p.objects).2 a).1
  have hcount := cache_ptr.swap_count x y release_first p.objects
  refine (counts_after past p _).trans ⟨fun hall hr hxy => ?_, fun hr a ha => ?_⟩
  · have hiff := hall y hy
    rw [hblock y, hcount y] at hiff
    simp only [if_neg (Ne.symm hxy), if_true, hr, iff_true] at hiff
    exact (hobj x hx).empty_iff.mp hiff
  · rw [hblock a, hcount a]
    by_cases hax : a = x
    · simp only [if_pos hax]
      exact (hobj y hy).empty_iff
    · by_cases hay : a = y
      · simp only [if_neg hax, if_pos hay]
        split
        · rename_i hrf
          exact iff_of_true ((hobj x hx).empty_iff.mpr (hr hrf fun e => hax (hay.trans e.symm))) rfl
        · exact (hobj x hx).empty_iff
      · simp only [if_neg hax, if_neg hay]
        exact (hobj a ha).empty_iff

theorem counts_reset (h : p.Counts) (past : Nat → cache_handle) {x : Nat} {ptr : PcmPtr}
    {num_blocks : Nat} (hx : (p.vars x).isSome) (hptr : ptr = none ∨ 0 < num_blocks) :
    (p.after past (cache_ptr.reset x ptr num_blocks p.objects)).Counts ↔
      (ptr = none → num_blocks = 0) := by
  have hblock := fun a => ((cache_ptr.reset_spec x ptr num_blocks p.objects).2 a).1
  have hcount := cache_ptr.reset_count x ptr num_blocks p.objects
  refine (counts_after past p _).trans ⟨fun hall hnone => ?_, fun hnum a ha => ?_⟩
  · have hiff := hall x hx
    rw [hblock x, hcount x, if_pos rfl, if_pos rfl] at hiff
    exact hiff.mp hnone
  · rw [hblock a, hcount a]
    by_cases hax : a = x
    · rw [if_pos hax, if_pos hax]
      refine ⟨hnum, fun hzero => hptr.resolve_right (by omega)⟩
    · rw [if_neg hax, if_neg hax]
      exact ((counts_objects p).mp h a ha).empty_iff

/-- An owner that frees a block keeps the count of it. -/
theorem counts_free (h : p.Counts) (past : Nat → cache_handle) {x : Nat}
    (hx : (p.vars x).isSome) :
    (p.after past (cache_ptr.free x p.objects)).Counts ↔
      (p.objects.obj x).m_block = none ∨ (p.objects.obj x).m_cache = none := by
  have hobj := (counts_objects p).mp h
  refine (counts_after past p _).trans ⟨fun hall => ?_, fun hidle => ?_⟩
  · by_contra hnot
    obtain ⟨hb, hc⟩ := not_or.mp hnot
    have hiff := hall x hx
    rw [(cache_ptr.free_spec x p.objects x).1, cache_ptr.free_count x p.objects x,
      if_pos ⟨rfl, Option.isSome_iff_ne_none.mpr hc⟩] at hiff
    exact hb ((hobj x hx).empty_iff.mpr (hiff.mp rfl))
  · rw [cache_ptr.free_idle hidle]
    exact fun a ha => (hobj a ha).empty_iff

/-- An operation keeps the counts just when it is one of `KeepsCounts`. -/
theorem counts_perform (h : p.Counts) (past : Nat → cache_handle) {op : Op κ}
    (hp : p.Permits op) : (p.perform past op).Counts ↔ p.KeepsCounts op := by
  cases op with
  | build_cache k raw block_size => exact iff_of_true ((counts_cache p k _).mpr h) trivial
  | alloc_raw k num => exact iff_of_true ((counts_cache p k _).mpr h) trivial
  | free_raw k ptr => exact iff_of_true ((counts_cache p k _).mpr h) trivial
  | construct x =>
    refine iff_of_true ((counts_put p h x _).mpr ?_) trivial
    rintro q ⟨⟩
    exact cache_ptr.counted_empty
  | cache_alloc x u num => exact counts_cache_alloc h x u num
  | move_construct x y =>
    have hxy : x ≠ y := by
      rintro rfl
      have hsome := hp.2
      rw [hp.1] at hsome
      cases hsome
    have hput : (p.put x (some {})).Counts := by
      refine (counts_put p h x _).mpr ?_
      rintro q ⟨⟩
      exact cache_ptr.counted_empty
    have hy : ((p.put x (some {})).vars y).isSome := by simpa [put, hxy.symm] using hp.2
    exact iff_of_true (counts_pass hput past hy
      (fun a => ((cache_ptr.move_construct_spec hxy _).2 a).1)
      (cache_ptr.move_construct_count hxy _)) trivial
  | assign x y =>
    exact iff_of_true (counts_pass h past hp.2 (fun a => ((cache_ptr.assign_spec x y _).2 a).1)
      (cache_ptr.assign_count x y _)) trivial
  | swap x y release_first => exact counts_swap h past hp.1 hp.2 release_first
  | reset x ptr num_blocks => exact counts_reset h past hp.1 hp.2
  | release x =>
    refine iff_of_true (counts_moved h past fun a ha => ?_) trivial
    rw [((cache_ptr.release_spec x p.objects).2.2 a).1, cache_ptr.release_count x p.objects a]
    by_cases hax : a = x
    · simp [hax]
    · exact Or.inr ⟨a, ha, by simp [hax], by simp [hax]⟩
  | free x => exact counts_free h past hp
  | destroy x =>
    have hafter : (p.after past (cache_ptr.destroy x p.objects)).Counts := by
      refine counts_moved h past fun a ha => Or.inr ⟨a, ha, ?_⟩
      rw [cache_ptr.destroy_obj]
      exact ⟨rfl, rfl⟩
    refine iff_of_true ((counts_put _ hafter x none).mpr ?_) trivial
    intro q hq
    cases hq

end steps

end Program

/-- **A program finds every owner empty just when it has no blocks, throughout a run, if
and only if each operation of the run keeps the counts.** -/
theorem an_owner_is_empty_when_it_has_no_blocks [DecidableEq κ] (num_blocks bound : κ → Nat)
    (acts : List ((Nat → cache_handle) × Op κ)) (p : Program κ) :
    transition.Run ((programs num_blocks bound).within Program.Counts)
        (Program.start num_blocks bound) acts p ↔
      transition.Run ((programs num_blocks bound).guarded fun p act => p.KeepsCounts act.2)
        (Program.start num_blocks bound) acts p := by
  refine transition.run_within_iff (I := fun _ => True) ?_ trivial ?_
  · rintro s act t - hs ⟨hp, rfl⟩
    exact ⟨trivial, Program.counts_perform hs act.1 hp⟩
  · intro x q hq
    cases hq

/-- An allocation from a cache that is not built gives null and two blocks. -/
theorem an_unbuilt_cache_gives_blocks_of_nothing :
    ¬ ∀ p, transition.Reachable (programs (fun _ : Unit => 8) fun _ => 0) p → p.Counts := by
  intro hall
  have h0 : transition.Reachable (programs (fun _ : Unit => 8) fun _ => 0) _ :=
    ⟨_, [], rfl, .nil _⟩
  have h1 := h0.step (fun _ => ⟨0, true, 0⟩, .cache_alloc 0
    { m_cache := some (), m_component_name := "test" } 2) ⟨rfl, rfl⟩
  have hempty := (hall _ h1 0 _ rfl).empty_iff
  exact absurd (hempty.mp rfl) (by decide)

end strangeio.memory
