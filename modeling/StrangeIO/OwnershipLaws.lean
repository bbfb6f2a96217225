-- The laws of cache_ptr: no block has two owners and no run is freed twice,
-- and, where the program keeps to the owners that can return a block, no
-- block is lost.
import StrangeIO.CacheOwnership

namespace strangeio.memory

variable {n bs raw : Nat} {w : World}

/-- The holder has a pointer to the live run that block `i` belongs to. -/
def World.HoldsBlock (w : World) (o : Holder) (i : Nat) : Prop :=
  ∃ p, ∃ r ∈ w.heap.live, w.holds o = some p ∧ w.heap.ptrOf r = some p ∧ r.Covers i

/-! ## One owner -/

structure SingleOwner (w : World) : Prop where
  one_holder : ∀ i o o', w.HoldsBlock o i → w.HoldsBlock o' i → o = o'
  live : ∀ x p, w.holds (.var x) = some p → ∃ r ∈ w.heap.live, w.heap.ptrOf r = some p
  frees_live : w.strays = []
  freed_once : ∀ r, w.freed.count r + w.heap.live.count r = w.allocated.count r

/-- A block belongs to one live run. -/
theorem Sound.run_of_block {h : Heap} (hs : Sound n bs raw h) {r q : Extent} {i : Nat}
    (hr : r ∈ h.live) (hq : q ∈ h.live) (hri : r.Covers i) (hqi : q.Covers i) : r = q := by
  by_contra hne
  exact Extent.not_covers_of_apart (hs.linked.apart.forall hr hq hne) hri hqi

theorem Owned.one_holder (h : Owned n bs raw w) {i : Nat} {o o' : Holder}
    (ho : w.HoldsBlock o i) (ho' : w.HoldsBlock o' i) : o = o' := by
  obtain ⟨p, r, hr, hop, hrp, hri⟩ := ho
  obtain ⟨q, r', hr', hoq, hrq, hri'⟩ := ho'
  rw [h.books.sound.run_of_block hr hr' hri hri', hrq] at hrp
  cases hrp
  exact h.valid.exclusive o o' p hop hoq

theorem Owned.singleOwner (h : Owned n bs raw w) : SingleOwner w := by
  refine ⟨?_, ?_, h.books.strays, h.books.counts⟩
  · intro i o o' ho ho'
    exact h.one_holder ho ho'
  · intro x p hx
    exact h.valid.live (.var x) p hx

theorem owned_reachable {bound : Nat} (hn : 1 ≤ n) (hn' : n < u32) (hbs : 1 ≤ bs)
    (hsize : Fits n bs ∨ mul32 bs n = 0)
    (hr : transition.Reachable (worlds n bs raw bound) w) : Owned n bs raw w := by
  refine hr.keeps ?_ ?_
  · rintro s rfl
    exact owned_start n bs raw bound hn hn'
  · rintro s act t hs ⟨hp, rfl⟩
    exact owned_perform hs hsize hbs act.1 hp

/-! ## No block is lost -/

/-- A step that loses no block: an assignment goes to an owner that holds
nothing, and a block goes only to an owner that has the cache. -/
def World.KeepsBlocks (w : World) : Op → Prop
  | .assign x _ => w.holds (.var x) = none
  | .swap x y _ =>
    ((w.holds (.var y)).isSome → w.returns x) ∧ ((w.holds (.var x)).isSome → w.returns y)
  | .reset x ptr _ => ptr.isSome → w.returns x
  | _ => True

/-- Every block in use has one holder, which returns it to the cache if it is
a variable, and without holders no block is in use. -/
structure Conserved (w : World) : Prop where
  held : ∀ (i : Nat) (x : cache_handle), w.heap.cache.m_handles[i]? = some x → x.in_use = true →
    ∃ o, w.HoldsBlock o i ∧ ∀ o', w.HoldsBlock o' i → o' = o
  returned : ∀ x, (w.holds (.var x)).isSome → w.returns x
  all_free : (∀ x, w.vars x = none) → w.hands = ∅ →
    ∀ (i : Nat) (x : cache_handle), w.heap.cache.m_handles[i]? = some x → x.in_use = false

def World.Returning (w : World) : Prop := ∀ x, (w.holds (.var x)).isSome → w.returns x

theorem conserved_iff (h : Owned n bs raw w) :
    Conserved w ↔ ownership.Complete w.ledger ∧ w.Returning := by
  have hlinked := h.books.sound.linked
  constructor
  · rintro ⟨hheld, hret, _⟩
    refine ⟨?_, hret⟩
    rintro p ⟨r, hr, hp⟩
    obtain ⟨x, hx, hxu⟩ := hlinked.start_in_use hr
    obtain ⟨o, ⟨q, r', hr', hoq, hrq, hri⟩, _⟩ := hheld r.start x hx hxu
    have hsame := h.books.sound.run_of_block hr' hr hri
      (Extent.covers_start (hlinked.inside r hr).1)
    rw [hsame, hp] at hrq
    cases hrq
    exact ⟨o, hoq⟩
  · rintro ⟨hc, hret⟩
    have hheld : ∀ (i : Nat) (x : cache_handle), w.heap.cache.m_handles[i]? = some x →
        x.in_use = true → ∃ o, w.HoldsBlock o i := by
      intro i x hx hxu
      obtain ⟨r, hr, hri⟩ := (hlinked.in_use i x hx).mp hxu
      have hp := h.books.sound.ptrOf hr
      obtain ⟨o, ho⟩ := hc _ ⟨r, hr, hp⟩
      exact ⟨o, _, r, hr, ho, hp, hri⟩
    refine ⟨?_, hret, ?_⟩
    · intro i x hx hxu
      obtain ⟨o, ho⟩ := hheld i x hx hxu
      exact ⟨o, ho, fun o' ho' => h.one_holder ho' ho⟩
    · intro hvars hhands i x hx
      by_contra hxu
      obtain ⟨o, p, _, _, hop, _⟩ := hheld i x hx (by simpa using hxu)
      cases o with
      | var a => simp [World.holds, hvars a] at hop
      | hand q => simp [World.holds, hhands] at hop

theorem returning_after (past : Nat → cache_handle) (w : World) (m : Objects Unit) :
    (w.after past m).Returning ↔
      ∀ a, (w.vars a).isSome → (m.obj a).m_block.isSome → (m.obj a).m_cache.isSome := by
  unfold World.Returning World.returns
  refine forall_congr' fun a => ?_
  rw [(holds_after past w m).1, after_vars]
  rcases hv : w.vars a with _ | p
  · simp
  · simp [hv]

theorem returning_objects (w : World) :
    w.Returning ↔ ∀ a, (w.vars a).isSome → (w.objects.obj a).m_block.isSome →
      (w.objects.obj a).m_cache.isSome := by
  unfold World.Returning World.returns
  refine forall_congr' fun a => ?_
  rw [objects_block, World.objects]
  rcases hv : w.vars a with _ | p
  · simp
  · simp [hv]

theorem hand_cases (w : World) (p : Nat) :
    w.holds (.hand p) = none ∨ w.holds (.hand p) = some p := by
  unfold World.holds
  simp only
  split
  · exact Or.inr rfl
  · exact Or.inl rfl

theorem returning_hand (w : World) (ptr : PcmPtr) : (w.hand ptr).Returning ↔ w.Returning := by
  cases ptr <;> rfl

theorem returning_unhand (w : World) (ptr : PcmPtr) : (w.unhand ptr).Returning ↔ w.Returning := by
  cases ptr <;> rfl

theorem returning_set {w : World} (h : w.Returning) (x : Nat) {v : Option (cache_ptr Unit)}
    (hv : ∀ p, v = some p → p.m_block.isSome → p.m_cache.isSome) :
    ({ w with vars := Function.update w.vars x v } : World).Returning := by
  intro a ha p hp
  simp only [World.holds] at ha
  by_cases hax : a = x
  · subst hax
    simp only [Function.update_self] at ha hp
    rw [hp] at ha
    exact hv p hp ha
  · simp only [Function.update_of_ne hax] at ha hp
    exact h a ha p hp

/-- An owner that gives its block up loses none. -/
theorem keeps_giveUp (hret : w.Returning) (x : Nat) : ownership.Keeps w.ledger (w.giveUp x) := by
  unfold World.giveUp
  split
  · trivial
  · rename_i hx
    have hnone : w.holds (.var x) = none := by
      by_contra hsome
      exact hx (hret x (Option.isSome_iff_ne_none.mpr hsome))
    exact hnone

/-- A method that moves the block of `y` to `x`, with the cache of `y`. -/
theorem returning_pass (hret : w.Returning) (past : Nat → cache_handle) {m : Objects Unit}
    {x y : Nat} (hy : (w.vars y).isSome)
    (hm : ∀ a, (m.obj a).m_block = (if a = y then none
        else if a = x then (w.objects.obj y).m_block else (w.objects.obj a).m_block) ∧
      (m.obj a).m_cache =
        if a = x then (w.objects.obj y).m_cache else (w.objects.obj a).m_cache) :
    (w.after past m).Returning := by
  have hobj := (returning_objects w).mp hret
  refine (returning_after past w m).mpr fun a ha => ?_
  rw [(hm a).1, (hm a).2]
  split
  · intro hb
    cases hb
  · split
    · exact hobj y hy
    · exact hobj a ha

theorem returning_swap (hret : w.Returning) (past : Nat → cache_handle) {x y : Nat}
    (release_first : Bool) (hx : (w.vars x).isSome) (hy : (w.vars y).isSome) :
    (w.after past (cache_ptr.swap x y release_first w.objects)).Returning ↔
      w.KeepsBlocks (.swap x y release_first) := by
  have hobj := (returning_objects w).mp hret
  have hm := (cache_ptr.swap_spec x y release_first w.objects).2
  simp only [World.KeepsBlocks, returning_after, returns_iff hx, returns_iff hy, ← objects_block]
  constructor
  · intro h
    have h1 := h x hx
    have h2 := h y hy
    rw [(hm x).1, (hm x).2, if_pos rfl] at h1
    rw [(hm y).1, (hm y).2] at h2
    refine ⟨h1, ?_⟩
    by_cases hyx : y = x
    · rw [if_pos hyx] at h2
      rwa [← hyx]
    · rwa [if_neg hyx, if_pos rfl] at h2
  · rintro ⟨h1, h2⟩ a ha
    rw [(hm a).1, (hm a).2]
    split
    · rename_i hax
      rwa [hax]
    · split
      · rename_i hay
        rwa [hay]
      · exact hobj a ha

theorem returning_reset (hret : w.Returning) (past : Nat → cache_handle) {x : Nat} (ptr : PcmPtr)
    (num_blocks : Nat) (hx : (w.vars x).isSome) :
    (w.after past (cache_ptr.reset x ptr num_blocks w.objects)).Returning ↔
      w.KeepsBlocks (.reset x ptr num_blocks) := by
  have hobj := (returning_objects w).mp hret
  have hm := (cache_ptr.reset_spec x ptr num_blocks w.objects).2
  simp only [World.KeepsBlocks, returning_after, returns_iff hx]
  constructor
  · intro h
    have h1 := h x hx
    rwa [(hm x).1, (hm x).2, if_pos rfl] at h1
  · intro h a ha
    rw [(hm a).1, (hm a).2]
    split
    · rename_i hax
      rwa [hax]
    · exact hobj a ha

theorem returning_cache_alloc (hret : w.Returning) (past : Nat → cache_handle) (x : Nat)
    (u : cptr_utility Unit) (num : Nat) :
    (w.perform past (.cache_alloc x u num)).Returning := by
  simp only [World.perform, cptr_utility.cache_alloc]
  rcases u.m_cache with _ | k
  · exact returning_set (w := w.grant num none w.heap.cache) hret x fun p hp hb => by
      cases hp
      cases hb
  · rcases w.heap.cache.alloc_raw num 0 with ⟨e | ptr, id, c⟩
    · exact hret
    · exact returning_set (w := w.grant num ptr c) hret x fun p hp _ => by
        cases hp
        rfl

theorem returning_alloc_raw (hret : w.Returning) (past : Nat → cache_handle) (num : Nat) :
    (w.perform past (.alloc_raw num)).Returning := by
  simp only [World.perform]
  rcases w.heap.cache.alloc_raw num 0 with ⟨e | ptr, id, c⟩
  · exact hret
  · exact (returning_hand _ ptr).mpr hret

/-- A method that empties some pointers, and leaves the others and all caches alone. -/
theorem returning_emptied (hret : w.Returning) (past : Nat → cache_handle) {m : Objects Unit}
    {emptied : Nat → Prop} [DecidablePred emptied]
    (hm : ∀ a, (m.obj a).m_block = (if emptied a then none else (w.objects.obj a).m_block) ∧
      (m.obj a).m_cache = (w.objects.obj a).m_cache) : (w.after past m).Returning := by
  have hobj := (returning_objects w).mp hret
  refine (returning_after past w m).mpr fun a ha => ?_
  rw [(hm a).1, (hm a).2]
  split
  · intro hb
    cases hb
  · exact hobj a ha

theorem returning_destroy (hret : w.Returning) (past : Nat → cache_handle) (x : Nat) :
    (w.perform past (.destroy x)).Returning := by
  refine returning_set (w := w.after past _) ?_ x fun p hp => by cases hp
  refine (returning_after past w _).mpr fun a ha => ?_
  rw [cache_ptr.destroy_obj]
  exact (returning_objects w).mp hret a ha

/-- A block whose owner releases it was in no hand. -/
theorem keeps_release (h : ownership.Valid w.ledger) (x : Nat) :
    ownership.AllKeep w.ledger (w.moves (.release x)) := by
  simp only [World.moves]
  rcases hx : w.holds (.var x) with _ | p
  · trivial
  · refine ⟨?_, trivial⟩
    refine (hand_cases w p).resolve_right fun hh => ?_
    cases h.exclusive (.var x) (.hand p) p hx hh

/-- A step keeps every block in some hands that return it, just when it is a
step of `KeepsBlocks`. -/
theorem conserved_step (h : Owned n bs raw w) (hc : Conserved w)
    (hsize : Fits n bs ∨ mul32 bs n = 0) (hbs : 1 ≤ bs) (past : Nat → cache_handle) {op : Op}
    (hp : w.Permits op) : Conserved (w.perform past op) ↔ w.KeepsBlocks op := by
  have hperf := performs h.books h.valid hsize hbs past hp
  obtain ⟨hcomp, hret⟩ := (conserved_iff h).mp hc
  rw [conserved_iff (owned_perform h hsize hbs past hp), hperf.ledger,
    ownership.complete_moves h.valid hcomp hperf.fresh]
  cases op with
  | construct x =>
    refine iff_of_true ⟨trivial, returning_set hret x fun p hp' hb => ?_⟩ trivial
    cases hp'
    cases hb
  | cache_alloc x u num =>
    refine iff_of_true ⟨?_, returning_cache_alloc hret past x u num⟩ trivial
    simp only [World.moves]
    split
    · rename_i p _
      rcases p.m_block with _ | b
      · trivial
      · exact ⟨holds_none hp, trivial⟩
    · trivial
  | move_construct x y =>
    have hxy : x ≠ y := isSome_ne hp.2 hp.1
    refine iff_of_true ⟨⟨holds_none hp.1, trivial⟩, ?_⟩ trivial
    have hret' : (w.declare x).Returning := returning_set hret x fun p hp' hb => by
      cases hp'
      cases hb
    have hy' : ((w.declare x).vars y).isSome := by simpa [World.declare, hxy.symm] using hp.2
    exact returning_pass hret' past hy' (cache_ptr.move_construct_spec hxy _).2
  | assign x y =>
    exact ⟨fun h => h.1.1,
      fun h => ⟨⟨h, trivial⟩, returning_pass hret past hp.2 (cache_ptr.assign_spec x y _).2⟩⟩
  | swap x y release_first =>
    rw [← returning_swap hret past release_first hp.1 hp.2]
    exact and_iff_right ⟨trivial, trivial⟩
  | reset x ptr num_blocks =>
    rw [← returning_reset hret past ptr num_blocks hp.1]
    simp only [World.perform, returning_unhand]
    refine and_iff_right ⟨keeps_giveUp hret x, ?_⟩
    cases ptr with
    | none => trivial
    | some p =>
      refine ⟨?_, trivial⟩
      simp only [ownership.Keeps, giveUp_holds, Function.update_self]
  | release x =>
    refine iff_of_true ⟨keeps_release h.valid x, ?_⟩ trivial
    simp only [World.perform, returning_hand]
    exact returning_emptied hret past (cache_ptr.release_spec x w.objects).2.2
  | free x =>
    refine iff_of_true ⟨?_, returning_emptied hret past (cache_ptr.free_spec x w.objects)⟩ trivial
    simp only [World.moves]
    split
    · exact ⟨trivial, trivial⟩
    · trivial
  | destroy x =>
    exact iff_of_true ⟨⟨keeps_giveUp hret x, trivial⟩, returning_destroy hret past x⟩ trivial
  | alloc_raw num =>
    refine iff_of_true ⟨?_, returning_alloc_raw hret past num⟩ trivial
    simp only [World.moves]
    have hfresh := hperf.fresh
    simp only [World.moves] at hfresh
    split
    · rename_i ptr hptr
      rw [hptr] at hfresh
      rcases ptr with _ | p
      · trivial
      · refine ⟨?_, trivial⟩
        have hnew : p ∉ w.ledger.live := hfresh.1
        exact (hand_cases w p).resolve_right fun hh => hnew (h.valid.live (.hand p) p hh)
    · trivial

/-! ## A cache whose offsets wrap -/

/-- The steps that keep the blocks, in the runs of the program. -/
def keeping (n bs raw bound : Nat) : transition.System World Act :=
  (worlds n bs raw bound).guarded fun w act => w.KeepsBlocks act.2

theorem perform_cache_alloc (past : Nat → cache_handle) (x : Nat) {u : cptr_utility Unit}
    (hu : u.m_cache = some ()) {num p : Nat} {id : Int} {c : cache_manager}
    (he : w.heap.cache.alloc_raw num 0 = (.ok (some p), id, c)) :
    w.perform past (.cache_alloc x u num) =
      { w.grant num (some p) c with
        vars := Function.update w.vars x (some {
          m_cache := some ()
          m_block := some p
          m_num_blocks := num
          m_tracking_id := id }) } := by
  simp only [World.perform, cptr_utility.cache_alloc, hu, he]
  rfl

/-- The variable `x` owns the block at `x`. -/
def World.OwnsAt (bs raw : Nat) (w : World) (x : Nat) : Prop :=
  ∃ p, w.vars x = some p ∧ p.m_cache = some () ∧ p.m_block = some (raw + mul32 x bs)

/-- `t` variables, each with one block, fill the first `t` handles. -/
theorem reachable_owners (raw bound : Nat) (hn : 1 ≤ n) (hsize : mul32 bs n ≠ 0) {t : Nat}
    (ht : t ≤ n) :
    ∃ w, transition.Reachable (keeping n bs raw bound) w ∧ Layout n bs raw w.heap.cache ∧
      w.heap.cache.m_handles = filled n bs raw t ∧ w.heap.live = singles t ∧
      (∀ x, t ≤ x → w.vars x = none) ∧ ∀ x < t, w.OwnsAt bs raw x := by
  induction t with
  | zero =>
    exact ⟨_, ⟨_, [], rfl, .nil _⟩, layout_built n bs raw bound hn, built_filled n bs raw bound,
      rfl, fun _ _ => rfl, fun x hx => absurd hx (Nat.not_lt_zero x)⟩
  | succ t ih =>
    obtain ⟨w, hr, hl, hh, hlive, hgone, howns⟩ := ih (by omega)
    obtain ⟨h1, h2, h3⟩ := alloc_filled hl hsize (by omega) hh
    have hperf := perform_cache_alloc (fun _ => ⟨0, true, 0⟩) t
      (u := { m_cache := some (), m_component_name := "" }) rfl h3
    have hheap : (w.grant 1 (some (raw + mul32 t bs)) (w.heap.alloc 1).cache).heap =
        w.heap.alloc 1 := by
      unfold Heap.alloc
      rw [h3]
      rfl
    refine ⟨_, hr.step (fun _ => ⟨0, true, 0⟩,
      .cache_alloc t { m_cache := some (), m_component_name := "" } 1)
      ⟨trivial, hgone t (Nat.le_refl t), rfl⟩, ?_⟩
    rw [hperf]
    refine ⟨hheap ▸ layout_alloc hl 1, hheap ▸ h1, ?_, ?_, ?_⟩
    · rw [hheap, h2, hlive, singles]
    · intro x hx
      simp only [Function.update_of_ne (show x ≠ t by omega)]
      exact hgone x (by omega)
    · intro x hx
      by_cases hxt : x = t
      · subst hxt
        exact ⟨_, Function.update_self _ _ _, rfl, rfl⟩
      · obtain ⟨p, hp, hpc, hpb⟩ := howns x (by omega)
        exact ⟨p, (Function.update_of_ne hxt _ _).trans hp, hpc, hpb⟩

/-- Destroying the owner of the last block then frees the block at `i`. -/
theorem reachable_misfreed (raw bound : Nat) (hn : 1 ≤ n) (hbs : 1 ≤ bs) (hfit : ¬ Fits n bs)
    (hsize : mul32 bs n ≠ 0) :
    ∃ w i, transition.Reachable (keeping n bs raw bound) w ∧ Layout n bs raw w.heap.cache ∧
      i < n - 1 ∧ w.heap.live = singles (n - 1) ∧
      (∀ j < n, w.heap.cache.m_handles[j]? = some ⟨raw + mul32 j bs, decide (j ≠ i), 1⟩) ∧
      w.vars n = none ∧ w.OwnsAt bs raw i := by
  obtain ⟨w, hr, hl, hh, hlive, hgone, howns⟩ :=
    reachable_owners raw bound hn hsize (Nat.le_refl n)
  obtain ⟨p, hp, hpc, hpb⟩ := howns (n - 1) (by omega)
  let past : Nat → cache_handle := fun _ => ⟨0, true, 0⟩
  obtain ⟨i, hi, hlive', hget⟩ := free_last_misses hl hn hbs hfit hh hlive past
  have hobj : w.objects.obj (n - 1) = p := by simp [World.objects, hp]
  have he := cache_ptr.destroy_effects (m := w.objects) (by rw [hobj, hpb]) (by rw [hobj, hpc])
  have hfind : w.heap.live.find? (fun r => w.heap.ptrOf r = some (raw + mul32 (n - 1) bs)) =
      some ⟨n - 1, 1⟩ := by
    obtain ⟨m, rfl⟩ : ∃ m, n = m + 1 := ⟨n - 1, by omega⟩
    rw [hlive, singles]
    refine List.find?_cons_of_pos ?_
    simp [Heap.ptrOf, hh, filled_get]
  have hafter : (w.after past (cache_ptr.destroy (n - 1) w.objects)).heap =
      w.heap.free past ⟨n - 1, 1⟩ := by
    unfold World.after
    rw [he]
    simp only [World.objects, List.nil_append, List.foldl_cons, List.foldl_nil, World.effect,
      World.free_raw, hfind]
  have hvars := after_vars past w (cache_ptr.destroy (n - 1) w.objects)
  have hstep := hr.step (past, .destroy (n - 1)) ⟨trivial, by simp [World.Permits, hp], rfl⟩
  refine ⟨_, i, hstep, ?_, hi, ?_, ?_, ?_, ?_⟩
  · exact hafter ▸ layout_free hl past _
  · exact (congrArg Heap.live hafter).trans hlive'
  · intro j hj
    exact (congrArg (fun h => h.cache.m_handles[j]?) hafter).trans (hget j hj)
  · simp only [World.perform, World.drop, Function.update_of_ne (show n ≠ n - 1 by omega), hvars,
      hgone n (Nat.le_refl n), Option.map_none]
  · obtain ⟨q, hq, hqc, hqb⟩ := howns i (by omega)
    refine ⟨q, ?_, hqc, hqb⟩
    simp only [World.perform, World.drop, Function.update_of_ne (show i ≠ n - 1 by omega), hvars,
      hq, Option.map_some, cache_ptr.destroy_obj]
    simp [World.objects, hq]

theorem firstFit_misfreed {hs : List cache_handle} (hlen : hs.length = n) {i : Nat} (hi : i < n)
    (hget : ∀ j < n, hs[j]? = some ⟨raw + mul32 j bs, decide (j ≠ i), 1⟩) : firstFit 1 hs = i := by
  rw [firstFit, List.findIdx_eq (by omega)]
  have hat : ∀ j (hj : j < hs.length), hs[j] = ⟨raw + mul32 j bs, decide (j ≠ i), 1⟩ := by
    intro j hj
    exact Option.some.inj ((List.getElem?_eq_getElem hj).symm.trans (hget j (by omega)))
  constructor
  · rw [hat i (by omega)]
    simp [fits]
  · intro j hj
    rw [hat j (by omega)]
    simp [fits, Nat.ne_of_lt hj]

/-- The next block given is then one that has an owner. -/
theorem reachable_shared (raw bound : Nat) (hn : 1 ≤ n) (hbs : 1 ≤ bs) (hfit : ¬ Fits n bs)
    (hsize : mul32 bs n ≠ 0) :
    ∃ w i, transition.Reachable (worlds n bs raw bound) w ∧ i < n - 1 ∧
      w.HoldsBlock (.var i) i ∧ w.HoldsBlock (.var n) i := by
  obtain ⟨w, i, hr, hl, hi, hlive, hget, hgone, q, hq, _, hqb⟩ :=
    reachable_misfreed raw bound hn hbs hfit hsize
  have hfirst : firstFit 1 w.heap.cache.m_handles = i :=
    firstFit_misfreed hl.length (by omega) hget
  have hgiven : w.heap.cache.alloc_raw 1 0 = (.ok (some (raw + mul32 i bs)),
      w.heap.cache.m_track_id + 1, w.heap.cache.taken i 1) := by
    rcases alloc_raw_cases w.heap.cache 1 0 with ⟨h0, _⟩ | ⟨_, hbad, _⟩ | ⟨_, _, x, hx, he⟩
    · exact absurd (hl.cache_size ▸ h0) hsize
    · rw [hfirst, hget i (by omega)] at hbad
      simp at hbad
    · rw [hfirst] at hx he
      rw [hget i (by omega), Option.some.injEq] at hx
      subst hx
      exact he
  have hperf := perform_cache_alloc (fun _ => ⟨0, true, 0⟩) n
    (u := { m_cache := some (), m_component_name := "" }) rfl hgiven
  have hstep := hr.of_guarded.step (fun _ => ⟨0, true, 0⟩,
    .cache_alloc n { m_cache := some (), m_component_name := "" } 1) ⟨hgone, rfl⟩
  refine ⟨_, i, hstep, hi, ?_⟩
  rw [hperf]
  have hptr : (w.heap.cache.taken i 1).m_handles[i]?.map (·.ptr) = some (raw + mul32 i bs) := by
    simp only [cache_manager.taken, takeRun_get, hget i (by omega), Option.map_some, takeHandle]
    split <;> rfl
  have hmem : (⟨i, 1⟩ : Extent) ∈ (w.grant 1 (some (raw + mul32 i bs))
      (w.heap.cache.taken i 1)).heap.live := by
    simp [World.grant, hfirst]
  constructor
  · refine ⟨_, ⟨i, 1⟩, hmem, ?_, hptr, Extent.covers_start Nat.one_pos⟩
    simp only [World.holds, Function.update_of_ne (show i ≠ n by omega)]
    rw [hq]
    exact hqb
  · refine ⟨_, ⟨i, 1⟩, hmem, ?_, hptr, Extent.covers_start Nat.one_pos⟩
    simp only [World.holds, Function.update_self]
    rfl

/-! ## The laws -/

/-- No block has two owners, every owner has a live block, and no run is
freed twice, just where the offset of the last block fits 32 bits, or where
the size of the cache wraps to 0 and no block is ever given. -/
theorem no_block_has_two_owners (n bs raw bound : Nat) (hn : 1 ≤ n) (hn' : n < u32)
    (hbs : 1 ≤ bs) :
    (∀ w, transition.Reachable (worlds n bs raw bound) w → SingleOwner w) ↔
      (Fits n bs ∨ mul32 bs n = 0) := by
  constructor
  · intro hall
    by_contra hc
    obtain ⟨hfit, hsize⟩ := not_or.mp hc
    obtain ⟨w, i, hr, hi, h1, h2⟩ := reachable_shared raw bound hn hbs hfit hsize
    have he := (hall w hr).one_holder i _ _ h1 h2
    rw [Holder.var.injEq] at he
    omega
  · intro hsize w hr
    exact (owned_reachable hn hn' hbs hsize hr).singleOwner

/-- On a cache as the tests build it, blocks are allocated and move to another owner. -/
def moved_block : World :=
  ((World.start 32 512 0 0).perform (fun _ => ⟨0, true, 0⟩)
    (.cache_alloc 0 { m_cache := some (), m_component_name := "test" } 4)).perform
    (fun _ => ⟨0, true, 0⟩) (.move_construct 1 0)

theorem one_owner_after_a_move :
    (moved_block.vars 1).map (·.m_block) = some (some 0) ∧ SingleOwner moved_block := by
  have h0 : transition.Reachable (worlds 32 512 0 0) (World.start 32 512 0 0) :=
    ⟨_, [], rfl, .nil _⟩
  have h1 := h0.step (fun _ => ⟨0, true, 0⟩,
    .cache_alloc 0 { m_cache := some (), m_component_name := "test" } 4) ⟨rfl, rfl⟩
  have h2 := h1.step (fun _ => ⟨0, true, 0⟩, .move_construct 1 0) ⟨⟨by decide, by decide⟩, rfl⟩
  exact ⟨by decide, (no_block_has_two_owners 32 512 0 0 (by decide) (by decide) (by decide)).mpr
    (Or.inl (by unfold Fits; decide)) _ h2⟩

/-- Three blocks of 2^31 samples: the owner of the third one has the address
of the first one. -/
theorem a_wrapped_cache_gives_one_block_twice :
    ¬ ∀ n bs raw bound : Nat, 1 ≤ n → n < u32 → 1 ≤ bs →
      ∀ w, transition.Reachable (worlds n bs raw bound) w → SingleOwner w := by
  intro hall
  let past : Nat → cache_handle := fun _ => ⟨0, true, 0⟩
  let u : cptr_utility Unit := { m_cache := some (), m_component_name := "test" }
  have h0 : transition.Reachable (worlds 3 2147483648 0 0) (World.start 3 2147483648 0 0) :=
    ⟨_, [], rfl, .nil _⟩
  have h1 := h0.step (past, .cache_alloc 0 u 1) ⟨rfl, rfl⟩
  have h2 := h1.step (past, .cache_alloc 1 u 1) ⟨rfl, rfl⟩
  have h3 := h2.step (past, .cache_alloc 2 u 1) ⟨rfl, rfl⟩
  have hone := (hall 3 2147483648 0 0 (by decide) (by decide) (by decide) _ h3).one_holder
    0 (.var 0) (.var 2)
  have h4 := hone ⟨0, ⟨0, 1⟩, by decide, by decide, by decide, by decide⟩
    ⟨0, ⟨0, 1⟩, by decide, by decide, by decide, by decide⟩
  exact absurd h4 (by decide)

theorem conserved_start (hn : 1 ≤ n) (hn' : n < u32) (bound : Nat) :
    Conserved (World.start n bs raw bound) := by
  refine (conserved_iff (owned_start n bs raw bound hn hn')).mpr ⟨?_, ?_⟩
  · rintro p ⟨r, hr, _⟩
    exact absurd hr (List.not_mem_nil)
  · intro x hx
    rw [start_holds] at hx
    cases hx

/-- No block is lost: where the offsets of the blocks fit 32 bits, the runs in
which every block in use has one owner that returns it are those whose steps
all keep the blocks, and past that some such run loses a block. -/
theorem no_block_is_lost (n bs raw bound : Nat) (hn : 1 ≤ n) (hn' : n < u32) (hbs : 1 ≤ bs) :
    ((∀ w, transition.Reachable ((worlds n bs raw bound).guarded fun w act =>
        w.KeepsBlocks act.2) w → Conserved w) ↔ (Fits n bs ∨ mul32 bs n = 0)) ∧
      ((Fits n bs ∨ mul32 bs n = 0) → ∀ acts w,
        transition.Run ((worlds n bs raw bound).within Conserved) (World.start n bs raw bound)
          acts w ↔
        transition.Run ((worlds n bs raw bound).guarded fun w act => w.KeepsBlocks act.2)
          (World.start n bs raw bound) acts w) := by
  have hstep : (Fits n bs ∨ mul32 bs n = 0) → ∀ (s : World) (act : Act) (t : World),
      Owned n bs raw s → Conserved s → (worlds n bs raw bound).step s act t →
      Owned n bs raw t ∧ (Conserved t ↔ s.KeepsBlocks act.2) := by
    rintro hsize s act t ho hc ⟨hp, rfl⟩
    exact ⟨owned_perform ho hsize hbs act.1 hp, conserved_step ho hc hsize hbs act.1 hp⟩
  refine ⟨⟨?_, ?_⟩, ?_⟩
  · intro hall
    by_contra hc
    obtain ⟨hfit, hsize⟩ := not_or.mp hc
    obtain ⟨w, i, hr, _, hi, hlive, hget, _⟩ := reachable_misfreed raw bound hn hbs hfit hsize
    have hlast := hget (n - 1) (by omega)
    obtain ⟨o, ⟨p, r, hmem, _, _, hcov⟩, _⟩ := (hall w hr).held (n - 1) _ hlast
      (by simp only [decide_eq_true_eq]; omega)
    rw [hlive, mem_singles] at hmem
    unfold Extent.Covers at hcov
    omega
  · intro hsize w hr
    have hboth : Owned n bs raw w ∧ Conserved w := by
      refine hr.keeps (P := fun w => Owned n bs raw w ∧ Conserved w) ?_ ?_
      · rintro s rfl
        exact ⟨owned_start n bs raw bound hn hn', conserved_start hn hn' bound⟩
      · rintro s act t ⟨ho, hc⟩ ⟨hg, ha⟩
        obtain ⟨h1, h2⟩ := hstep hsize s act t ho hc ha
        exact ⟨h1, h2.mpr hg⟩
    exact hboth.2
  · intro hsize acts w
    exact transition.run_within_iff (hstep hsize) (owned_start n bs raw bound hn hn')
      (conserved_start hn hn' bound)

/-- The law after a move of a block into an empty owner. -/
theorem a_move_into_an_empty_owner_loses_no_block :
    Conserved ((((World.start 32 512 0 0).perform (fun _ => ⟨0, true, 0⟩)
      (.cache_alloc 0 { m_cache := some (), m_component_name := "test" } 4)).perform
      (fun _ => ⟨0, true, 0⟩) (.construct 1)).perform (fun _ => ⟨0, true, 0⟩) (.assign 1 0)) := by
  have h0 : transition.Reachable (keeping 32 512 0 0) (World.start 32 512 0 0) :=
    ⟨_, [], rfl, .nil _⟩
  have h1 := h0.step (fun _ => ⟨0, true, 0⟩,
    .cache_alloc 0 { m_cache := some (), m_component_name := "test" } 4) ⟨trivial, rfl, rfl⟩
  have h2 := h1.step (fun _ => ⟨0, true, 0⟩, .construct 1) ⟨trivial, rfl, rfl⟩
  have h3 := h2.step (fun _ => ⟨0, true, 0⟩, .assign 1 0) ⟨rfl, ⟨rfl, rfl⟩, rfl⟩
  exact (no_block_is_lost 32 512 0 0 (by decide) (by decide) (by decide)).1.mpr
    (Or.inl (by unfold Fits; decide)) _ h3

/-- A move onto an owner that still has a block: the block stays in use after
every owner is destroyed. -/
theorem a_move_onto_a_block_loses_it :
    ¬ ∀ n bs raw bound : Nat, 1 ≤ n → n < u32 → 1 ≤ bs →
      ∀ w, transition.Reachable (worlds n bs raw bound) w → Conserved w := by
  intro hall
  let past : Nat → cache_handle := fun _ => ⟨0, true, 0⟩
  let u : cptr_utility Unit := { m_cache := some (), m_component_name := "test" }
  have h0 : transition.Reachable (worlds 2 4 0 0) (World.start 2 4 0 0) := ⟨_, [], rfl, .nil _⟩
  have h1 := h0.step (past, .cache_alloc 0 u 1) ⟨rfl, rfl⟩
  have h2 := h1.step (past, .cache_alloc 1 u 1) ⟨rfl, rfl⟩
  have h3 := h2.step (past, .assign 0 1) ⟨⟨rfl, rfl⟩, rfl⟩
  have h4 := h3.step (past, .destroy 0) ⟨rfl, rfl⟩
  have h5 := h4.step (past, .destroy 1) ⟨rfl, rfl⟩
  have hfree := (hall 2 4 0 0 (by decide) (by decide) (by decide) _ h5).all_free
    (fun x => by
      match x with
      | 0 => rfl
      | 1 => rfl
      | _ + 2 => rfl) (by decide) 0
  exact absurd (hfree ⟨0, true, 1⟩ (by decide)) (by decide)

end strangeio.memory
