-- The requests for a sync among the steps of the rack loop: the pass reads the
-- flags, runs the syncs and then zeroes the flags and the request bit, so a
-- request that lands in between is erased. The comment there asks whether the
-- flag needs a lock.
import StrangeIO.RackLoop

namespace strangeio.component.rack_loop

/-- The request comes in time: a sync that answers it is yet to start when the
loop has begun to clear it, and no flag is up that the pass leaves out. -/
def in_time (s : rack_loop) (a : action) : Prop :=
  match a with
  | .rack =>
    s.pc = .at_sync → ∀ t ∈ sync_types s.m_resync_flags, t ∈ sync_runs s.m_resync_flags
  | .trigger_sync flags =>
    match s.pc with
    | .upstream_sync todo => .upstream ∈ sync_types flags → .kind .upstream ∈ todo
    | .cut_upstream => .upstream ∉ sync_types flags
    | .second_sync todo => ∀ t ∈ sync_types flags, .kind t ∈ todo
    | .clear_flags => ∀ t, t ∉ sync_types flags
    | _ => True
  | .raise i =>
    ∀ call, s.raising[i]? = some call →
      match s.pc with
      | .second_sync todo => ∀ n ∈ call_needs call, ∃ p ∈ todo, p.serves n = true
      | .clear_flags | .clear_resync => ∀ n, n ∉ call_needs call
      | .plain_cycle => ∀ n ∈ call_needs call, n = .cycle
      | _ => True
  | _ => True

/-! ## What is still owed -/

/-- What has yet to be answered at each point of the pass is answered by what is left of it. -/
def ahead (s : rack_loop) : Prop :=
  match s.pc with
  | .upstream_sync todo =>
    s.m_resync_flags.has sync_flags.upstream = true ∧
      (.upstream ∈ s.owed → .kind .upstream ∈ todo)
  | .cut_upstream =>
    s.m_resync_flags.has sync_flags.upstream = true ∧ .upstream ∉ s.owed
  | .second_sync todo =>
    (∀ t ∈ s.owed, .kind t ∈ todo) ∧ ∀ n ∈ s.due, ∃ p ∈ todo, p.serves n = true
  | .clear_flags => s.owed = [] ∧ s.due = []
  | .plain_cycle => ∀ n ∈ s.due, n = .cycle
  | .clear_resync => s.due = []
  | _ => True

/-- The flag of a type that is owed is up, the requests that still wait for a
type are among those owed, and none was cleared. -/
structure Booked (s : rack_loop) : Prop where
  raised : ∀ t ∈ s.owed, s.m_resync_flags.has t.flag = true
  calls : ∀ call ∈ s.raising, ∀ t ∈ call.2, t ∈ s.owed
  pending : ∀ t, .type t ∈ s.due → t ∈ s.owed
  kept : s.lost = false
  ahead : s.ahead

/-- The books are those of a state that differs in other fields only. -/
theorem Booked.same {s t : rack_loop} (h : s.Booked) (hflags : t.m_resync_flags = s.m_resync_flags)
    (howed : t.owed = s.owed) (hdue : t.due = s.due) (hraising : t.raising = s.raising)
    (hlost : t.lost = s.lost) (hahead : t.ahead) : t.Booked where
  raised := by
    rw [howed, hflags]
    exact h.raised
  calls := by
    rw [hraising, howed]
    exact h.calls
  pending := by
    rw [hdue, howed]
    exact h.pending
  kept := hlost.trans h.kept
  ahead := hahead

theorem booked_new : new.Booked where
  raised _ ht := by cases ht
  calls _ hcall := by cases hcall
  pending _ ht := by cases ht
  kept := rfl
  ahead := trivial

/-! ## The steps of the thread -/

theorem mem_owed_start {s : rack_loop} {p : phase} {t : sync_type} :
    t ∈ (s.start_phase p).owed ↔ t ∈ s.owed ∧ p.serves (.type t) = false := by
  simp [start_phase]

theorem mem_due_start {s : rack_loop} {p : phase} {n : need} :
    n ∈ (s.start_phase p).due ↔ n ∈ s.due ∧ p.serves n = false := by
  simp [start_phase]

/-- The start of a part answers the same types in all the books. -/
theorem Booked.start {s : rack_loop} (h : s.Booked) (p : phase) (pc : rack_pc)
    (hahead : { s.start_phase p with pc := pc }.ahead) :
    { s.start_phase p with pc := pc }.Booked where
  raised t ht := h.raised t (mem_owed_start.mp ht).1
  calls := by
    intro call hcall t ht
    obtain ⟨old, hold, rfl⟩ := List.mem_map.mp hcall
    simp only [List.mem_filter, Bool.not_eq_true'] at ht
    exact mem_owed_start.mpr ⟨h.calls old hold t ht.1, ht.2⟩
  pending := by
    intro t ht
    obtain ⟨hdue, hserves⟩ := mem_due_start.mp ht
    exact mem_owed_start.mpr ⟨h.pending t hdue, hserves⟩
  kept := h.kept
  ahead := hahead

/-- A type is answered by the start of its own sync alone. -/
theorem serves_type {p : phase} {t : sync_type} : p.serves (.type t) = true ↔ p = .kind t := by
  cases p <;> simp [phase.serves]

/-- Each sync that runs has a cycle in it. -/
theorem phases_serve_cycle (flags : sync_flag) : ∃ p ∈ phases flags, p.serves .cycle = true := by
  by_cases h : flags.has sync_flags.sync_duration = true
  · refine ⟨.kind .sync_duration, ?_, rfl⟩
    unfold phases
    apply List.mem_append_left
    apply List.mem_map_of_mem
    rw [mem_sync_runs]
    simp [sync_type.flag, h]
  · refine ⟨.cycle, ?_, rfl⟩
    unfold phases
    simp [h]

theorem kind_mem_phases {flags : sync_flag} {t : sync_type} (h : t ∈ sync_runs flags) :
    .kind t ∈ phases flags := by
  unfold phases
  apply List.mem_append_left
  exact List.mem_map_of_mem h

/-- A second sync that leaves no flag out answers all that is owed. -/
theorem Booked.second {s : rack_loop} (h : s.Booked)
    (hall : ∀ t ∈ sync_types s.m_resync_flags, t ∈ sync_runs s.m_resync_flags) :
    { s with pc := .second_sync (phases s.m_resync_flags) }.ahead := by
  have howed : ∀ t ∈ s.owed, .kind t ∈ phases s.m_resync_flags := by
    intro t ht
    exact kind_mem_phases (hall t (mem_sync_types.mpr (h.raised t ht)))
  refine ⟨howed, ?_⟩
  intro n hn
  cases n with
  | type t => exact ⟨.kind t, howed t (h.pending t hn), serves_type.mpr rfl⟩
  | cycle => exact phases_serve_cycle s.m_resync_flags

theorem Booked.second_start {s : rack_loop} (h : s.Booked) {p : phase} {todo : List phase}
    (hpc : s.pc = .second_sync (p :: todo)) :
    { s.start_phase p with pc := .second_sync todo }.ahead := by
  obtain ⟨howed, hdue⟩ : (∀ t ∈ s.owed, .kind t ∈ p :: todo) ∧
      ∀ n ∈ s.due, ∃ q ∈ p :: todo, q.serves n = true := by
    have := h.ahead
    unfold rack_loop.ahead at this
    rwa [hpc] at this
  constructor
  · intro t ht
    obtain ⟨hold, hserves⟩ := mem_owed_start.mp ht
    rcases List.mem_cons.mp (howed t hold) with rfl | htodo
    · rw [serves_type.mpr rfl] at hserves
      cases hserves
    · exact htodo
  · intro n hn
    obtain ⟨hold, hserves⟩ := mem_due_start.mp hn
    obtain ⟨q, hq, hqn⟩ := hdue n hold
    rcases List.mem_cons.mp hq with rfl | htodo
    · rw [hserves] at hqn
      cases hqn
    · exact ⟨q, htodo, hqn⟩

theorem Booked.upstream_start {s : rack_loop} (h : s.Booked) {p : phase} {todo : List phase}
    (hpc : s.pc = .upstream_sync (p :: todo)) :
    { s.start_phase p with pc := .upstream_sync todo }.ahead := by
  obtain ⟨hflag, howed⟩ : s.m_resync_flags.has sync_flags.upstream = true ∧
      (.upstream ∈ s.owed → .kind .upstream ∈ p :: todo) := by
    have := h.ahead
    unfold rack_loop.ahead at this
    rwa [hpc] at this
  refine ⟨hflag, ?_⟩
  intro ht
  obtain ⟨hold, hserves⟩ := mem_owed_start.mp ht
  rcases List.mem_cons.mp (howed hold) with rfl | htodo
  · rw [serves_type.mpr rfl] at hserves
    cases hserves
  · exact htodo

/-- The flag of the upstream sync alone goes down, and its sync is not owed. -/
theorem Booked.cut {s : rack_loop} (h : s.Booked) (hpc : s.pc = .cut_upstream) :
    { s.store_flags (s.m_resync_flags ^^^ sync_flags.upstream) with pc := .at_sync }.Booked := by
  have hup : .upstream ∉ s.owed := by
    have := h.ahead
    unfold rack_loop.ahead at this
    rw [hpc] at this
    exact this.2
  have hstay : ∀ t ∈ s.owed, (s.m_resync_flags ^^^ sync_flags.upstream).has t.flag = true := by
    intro t ht
    rw [has_clear_upstream, if_neg]
    · exact h.raised t ht
    · rintro rfl
      exact hup ht
  refine ⟨hstay, h.calls, h.pending, ?_, trivial⟩
  simp only [store_flags, h.kept, Bool.false_or, List.any_eq_false]
  intro t ht
  rw [hstay t ht]
  simp

theorem Booked.clear {s : rack_loop} (h : s.Booked) (hpc : s.pc = .clear_flags) :
    { s.store_flags 0 with pc := .clear_resync }.Booked := by
  obtain ⟨howed, hdue⟩ : s.owed = [] ∧ s.due = [] := by
    have := h.ahead
    unfold rack_loop.ahead at this
    rwa [hpc] at this
  refine ⟨?_, h.calls, h.pending, ?_, hdue⟩
  · intro t ht
    change t ∈ s.owed at ht
    rw [howed] at ht
    cases ht
  · simp [store_flags, h.kept, howed]

theorem Booked.answered {s : rack_loop} (h : s.Booked) (hpc : s.pc = .clear_resync) :
    { s.store_resync with pc := .count }.Booked := by
  have hdue : s.due = [] := by
    have := h.ahead
    unfold rack_loop.ahead at this
    rwa [hpc] at this
  refine ⟨h.raised, h.calls, fun t ht => ?_, ?_, trivial⟩
  · cases ht
  · simp [store_resync, h.kept, hdue]

/-- Where no flag is up no type is owed, so what is due is a cycle. -/
theorem Booked.flags_read {s : rack_loop} (h : s.Booked) :
    { s with pc := if s.m_resync_flags ≠ 0 then .at_upstream else .plain_cycle }.Booked := by
  refine h.same rfl rfl rfl rfl rfl ?_
  by_cases hflags : s.m_resync_flags = 0
  · rw [if_neg (not_not.mpr hflags)]
    intro n hn
    cases n with
    | cycle => rfl
    | type t =>
      have := h.raised t (h.pending t hn)
      rw [hflags] at this
      cases t <;> cases this
  · rw [if_pos hflags]
    trivial

theorem Booked.upstream_end {s : rack_loop} (h : s.Booked) (hpc : s.pc = .upstream_sync []) :
    { s with pc := .cut_upstream }.Booked := by
  have := h.ahead
  unfold rack_loop.ahead at this
  rw [hpc] at this
  exact h.same rfl rfl rfl rfl rfl ⟨this.1, fun howed => by cases this.2 howed⟩

/-- Nothing is owed and nothing is due when the last cycle of a pass has started. -/
theorem Booked.second_end {s : rack_loop} (h : s.Booked) (hpc : s.pc = .second_sync []) :
    { s with pc := .clear_flags }.Booked := by
  have := h.ahead
  unfold rack_loop.ahead at this
  rw [hpc] at this
  obtain ⟨howed, hdue⟩ := this
  refine h.same rfl rfl rfl rfl rfl ⟨?_, ?_⟩
  · exact List.eq_nil_iff_forall_not_mem.mpr fun t ht => by cases howed t ht
  · exact List.eq_nil_iff_forall_not_mem.mpr fun n hn => by
      obtain ⟨p, hp, -⟩ := hdue n hn
      cases hp

theorem Booked.plain_start {s : rack_loop} (h : s.Booked) (hpc : s.pc = .plain_cycle) :
    { s.start_phase .cycle with pc := .clear_resync }.ahead := by
  have := h.ahead
  unfold rack_loop.ahead at this
  rw [hpc] at this
  apply List.eq_nil_iff_forall_not_mem.mpr
  intro n hn
  obtain ⟨hold, hserves⟩ := mem_due_start.mp hn
  rw [this n hold] at hserves
  cases hserves

/-- The points where a pass reads or writes its books. -/
def in_pass (s : rack_loop) : Bool :=
  match s.pc with
  | .at_flags | .at_upstream | .upstream_sync _ | .cut_upstream | .at_sync | .second_sync _
  | .clear_flags | .plain_cycle | .clear_resync => true
  | _ => false

/-- A step outside a pass touches no book, and is owed nothing in particular. -/
theorem run_apart {s t : rack_loop} (h : s.run = some t) (hs : s.in_pass = false) :
    t.m_resync_flags = s.m_resync_flags ∧ t.owed = s.owed ∧ t.due = s.due ∧
      t.raising = s.raising ∧ t.lost = s.lost ∧ t.ahead := by
  cases hpc : s.pc with
  | unstarted | blocked | finished | undefined =>
    simp only [run, hpc] at h
    cases h
  | at_flags | at_upstream | upstream_sync todo | cut_upstream | at_sync | second_sync todo
  | clear_flags | plain_cycle | clear_resync =>
    simp only [in_pass, hpc] at hs
    cases hs
  | at_loop | at_wait | at_recheck | at_drain | at_resync =>
    simp only [run, hpc] at h
    split at h
    · cases h
      exact ⟨rfl, rfl, rfl, rfl, rfl, trivial⟩
    · cases h
      exact ⟨rfl, rfl, rfl, rfl, rfl, trivial⟩
  | _ =>
    simp only [run, hpc] at h
    cases h
    exact ⟨rfl, rfl, rfl, rfl, rfl, trivial⟩

theorem Booked.run {s t : rack_loop} (h : s.Booked) (ht : s.run = some t)
    (hs : s.in_time .rack) : t.Booked := by
  cases hpc : s.pc with
  | at_flags =>
    simp only [rack_loop.run, hpc] at ht
    cases ht
    exact h.flags_read
  | at_upstream =>
    simp only [rack_loop.run, hpc] at ht
    split at ht
    · rename_i hflag
      cases ht
      exact h.same rfl rfl rfl rfl rfl ⟨hflag, fun _ => kind_mem_phases (by decide)⟩
    · cases ht
      exact h.same rfl rfl rfl rfl rfl trivial
  | upstream_sync todo =>
    cases todo with
    | nil =>
      simp only [rack_loop.run, hpc] at ht
      cases ht
      exact h.upstream_end hpc
    | cons p todo =>
      simp only [rack_loop.run, hpc] at ht
      cases ht
      exact h.start p _ (h.upstream_start hpc)
  | cut_upstream =>
    simp only [rack_loop.run, hpc] at ht
    cases ht
    exact h.cut hpc
  | at_sync =>
    simp only [rack_loop.run, hpc] at ht
    cases ht
    exact h.same rfl rfl rfl rfl rfl (h.second (hs hpc))
  | second_sync todo =>
    cases todo with
    | nil =>
      simp only [rack_loop.run, hpc] at ht
      cases ht
      exact h.second_end hpc
    | cons p todo =>
      simp only [rack_loop.run, hpc] at ht
      cases ht
      exact h.start p _ (h.second_start hpc)
  | clear_flags =>
    simp only [rack_loop.run, hpc] at ht
    cases ht
    exact h.clear hpc
  | plain_cycle =>
    simp only [rack_loop.run, hpc] at ht
    cases ht
    exact h.start .cycle _ (h.plain_start hpc)
  | clear_resync =>
    simp only [rack_loop.run, hpc] at ht
    cases ht
    exact h.answered hpc
  | _ =>
    obtain ⟨hflags, howed, hdue, hraising, hlost, hahead⟩ := run_apart ht (by simp [in_pass, hpc])
    exact h.same hflags howed hdue hraising hlost hahead

/-! ## The steps of the other calls -/

/-- A call that touches no book, and moves the thread out of no pass. -/
theorem Booked.other {s t : rack_loop} (h : s.Booked) (hflags : t.m_resync_flags = s.m_resync_flags)
    (howed : t.owed = s.owed) (hdue : t.due = s.due) (hraising : t.raising = s.raising)
    (hlost : t.lost = s.lost) (hpc : t.pc = s.pc) : t.Booked := by
  apply h.same hflags howed hdue hraising hlost
  have := h.ahead
  unfold rack_loop.ahead at this ⊢
  rwa [hpc, hflags, howed, hdue]

theorem mem_sync_types_or {flags more : sync_flag} {t : sync_type} :
    (if more ≠ 0 then flags ||| more else flags).has t.flag = true ↔
      flags.has t.flag = true ∨ t ∈ sync_types more := by
  rw [mem_sync_types]
  split
  · rw [has_or, Bool.or_eq_true]
  · rename_i hzero
    rw [not_not.mp hzero]
    constructor
    · exact .inl
    · rintro (h | h)
      · exact h
      · cases t <;> cases h

/-- The types that a call raises in time are owed from now on. -/
theorem Booked.trigger_sync {s t : rack_loop} (h : s.Booked) {flags : sync_flag}
    (ht : s.act (.trigger_sync flags) = some t) (hs : s.in_time (.trigger_sync flags)) :
    t.Booked := by
  cases ht
  refine ⟨?_, ?_, ?_, h.kept, ?_⟩
  · intro t ht
    apply mem_sync_types_or.mpr
    rcases List.mem_append.mp ht with ht | ht
    · exact .inl (h.raised t ht)
    · exact .inr ht
  · intro call hcall t ht
    rcases List.mem_append.mp hcall with hcall | hcall
    · exact List.mem_append_left _ (h.calls call hcall t ht)
    · obtain rfl := List.mem_singleton.mp hcall
      exact List.mem_append_right _ ht
  · intro t ht
    exact List.mem_append_left _ (h.pending t ht)
  · have hahead := h.ahead
    unfold rack_loop.ahead at hahead ⊢
    unfold in_time at hs
    cases hpc : s.pc with
    | upstream_sync todo =>
      simp only [hpc] at hahead hs ⊢
      refine ⟨mem_sync_types_or (t := .upstream).mpr (.inl hahead.1), ?_⟩
      intro ht
      rcases List.mem_append.mp ht with ht | ht
      · exact hahead.2 ht
      · exact hs ht
    | cut_upstream =>
      simp only [hpc] at hahead hs ⊢
      refine ⟨mem_sync_types_or (t := .upstream).mpr (.inl hahead.1), ?_⟩
      intro ht
      rcases List.mem_append.mp ht with ht | ht
      · exact hahead.2 ht
      · exact hs ht
    | second_sync todo =>
      simp only [hpc] at hahead hs ⊢
      refine ⟨?_, hahead.2⟩
      intro t ht
      rcases List.mem_append.mp ht with ht | ht
      · exact hahead.1 t ht
      · exact hs t ht
    | clear_flags =>
      simp only [hpc] at hahead hs ⊢
      rw [hahead.1, List.eq_nil_iff_forall_not_mem.mpr hs]
      exact ⟨rfl, hahead.2⟩
    | plain_cycle =>
      simp only [hpc] at hahead ⊢
      exact hahead
    | clear_resync =>
      simp only [hpc] at hahead ⊢
      exact hahead
    | _ => trivial

/-- What a call still waits for is owed already when it sets the request bit. -/
theorem Booked.raise {s t : rack_loop} (h : s.Booked) {i : Nat} (ht : s.act (.raise i) = some t)
    (hs : s.in_time (.raise i)) : t.Booked := by
  simp only [act] at ht
  split at ht
  · cases ht
  · rename_i call hcall
    cases ht
    have hs := hs call hcall
    refine ⟨h.raised, ?_, ?_, h.kept, ?_⟩
    · intro other hother
      exact h.calls other (List.mem_of_mem_eraseIdx hother)
    · intro t ht
      rcases List.mem_append.mp ht with ht | ht
      · exact h.pending t ht
      · unfold call_needs at ht
        split at ht
        · simp at ht
        · obtain ⟨_, hleft, hsame⟩ := List.mem_map.mp ht
          cases hsame
          exact h.calls call (List.mem_of_getElem? hcall) t hleft
    · have hahead := h.ahead
      unfold rack_loop.ahead at hahead ⊢
      cases hpc : s.pc with
      | second_sync todo =>
        simp only [hpc] at hahead hs ⊢
        refine ⟨hahead.1, ?_⟩
        intro n hn
        rcases List.mem_append.mp hn with hn | hn
        · exact hahead.2 n hn
        · exact hs n hn
      | clear_flags =>
        simp only [hpc] at hahead hs ⊢
        rw [hahead.2, List.eq_nil_iff_forall_not_mem.mpr hs]
        exact ⟨hahead.1, rfl⟩
      | plain_cycle =>
        simp only [hpc] at hahead hs ⊢
        intro n hn
        rcases List.mem_append.mp hn with hn | hn
        · exact hahead n hn
        · exact hs n hn
      | clear_resync =>
        simp only [hpc] at hahead hs ⊢
        rw [hahead, List.eq_nil_iff_forall_not_mem.mpr hs]
        rfl
      | upstream_sync todo =>
        simp only [hpc] at hahead ⊢
        exact hahead
      | cut_upstream =>
        simp only [hpc] at hahead ⊢
        exact hahead
      | _ => trivial

theorem Booked.act {s t : rack_loop} {a : action} (h : s.Booked) (ht : s.act a = some t)
    (hs : s.in_time a) : t.Booked := by
  cases a with
  | rack => exact h.run ht hs
  | trigger_sync flags => exact h.trigger_sync ht hs
  | raise i => exact h.raise ht hs
  | throws =>
    obtain ⟨-, rfl⟩ := act_throws ht
    exact h.same rfl rfl rfl rfl rfl trivial
  | start =>
    simp only [rack_loop.act] at ht
    split at ht
    · cases ht
      exact h.same rfl rfl rfl rfl rfl trivial
    · cases ht
  | wake =>
    simp only [rack_loop.act] at ht
    split at ht
    · cases ht
      exact h.same rfl rfl rfl rfl rfl trivial
    · cases ht
  | trigger_cycle =>
    cases ht
    exact h.other rfl rfl rfl rfl rfl rfl
  | notify =>
    simp only [rack_loop.act, notify_one] at ht
    split at ht
    · cases ht
      split
      · exact h.same rfl rfl rfl rfl rfl trivial
      · exact h.other rfl rfl rfl rfl rfl rfl
    · cases ht
  | stop =>
    simp only [rack_loop.act] at ht
    split at ht
    · cases ht
    · cases ht
      exact h.other rfl rfl rfl rfl rfl rfl

end strangeio.component.rack_loop
