-- The requests that come too late: from there the rack thread clears them by
-- its own next steps, with no sync in between.
import StrangeIO.SyncRequests

namespace strangeio.component.rack_loop

/-! ## The flags that are up outside a sync -/

/-- The flags that are up are owed, but for those that a sync under way answers.
No pass follows once a handler has unlocked the mutex. -/
def all_owed (s : rack_loop) : Prop :=
  match s.pc with
  | .at_loop | .at_wait =>
    s.owns_lock = true → ∀ t, s.m_resync_flags.has t.flag = true → t ∈ s.owed
  | .upstream_sync todo =>
    (∀ p ∈ todo, p = .kind .upstream ∨ p = .cycle) ∧
      ∀ t, t ≠ .upstream → s.m_resync_flags.has t.flag = true → t ∈ s.owed
  | .cut_upstream => ∀ t, t ≠ .upstream → s.m_resync_flags.has t.flag = true → t ∈ s.owed
  | .second_sync _ | .clear_flags | .ended | .finished | .undefined => True
  | _ => ∀ t, s.m_resync_flags.has t.flag = true → t ∈ s.owed

theorem all_owed_run {s t : rack_loop} (h : s.all_owed) (hbooked : s.Booked)
    (ht : s.run = some t) : t.all_owed := by
  cases hpc : s.pc with
  | at_upstream =>
    simp only [run, hpc] at ht
    unfold all_owed at h
    rw [hpc] at h
    split at ht
    · cases ht
      exact ⟨by decide, fun t _ => h t⟩
    · cases ht
      exact h
  | upstream_sync todo =>
    unfold all_owed at h
    rw [hpc] at h
    cases todo with
    | nil =>
      simp only [run, hpc] at ht
      cases ht
      exact h.2
    | cons p todo =>
      simp only [run, hpc] at ht
      cases ht
      refine ⟨fun q hq => h.1 q (List.mem_cons_of_mem p hq), ?_⟩
      intro t hne hup
      refine mem_owed_start.mpr ⟨h.2 t hne hup, ?_⟩
      rw [Bool.eq_false_iff]
      intro hserves
      rcases h.1 p List.mem_cons_self with rfl | rfl
      · cases serves_type.mp hserves
        exact hne rfl
      · cases serves_type.mp hserves
  | cut_upstream =>
    simp only [run, hpc] at ht
    cases ht
    unfold all_owed at h
    rw [hpc] at h
    have hahead := hbooked.ahead
    unfold ahead at hahead
    rw [hpc] at hahead
    intro t hup
    change (s.m_resync_flags ^^^ sync_flags.upstream).has t.flag = true at hup
    rw [has_clear_upstream] at hup
    split at hup
    · rename_i hupstream
      rw [hupstream] at hup
      change (!s.m_resync_flags.has sync_flags.upstream) = true at hup
      rw [hahead.1] at hup
      cases hup
    · rename_i hne
      exact h t hne hup
  | clear_flags =>
    simp only [run, hpc] at ht
    cases ht
    intro t hup
    change sync_flag.has 0 t.flag = true at hup
    simp [sync_flag.has] at hup
  | plain_cycle =>
    simp only [run, hpc] at ht
    cases ht
    unfold all_owed at h
    rw [hpc] at h
    exact fun t hup => mem_owed_start.mpr ⟨h t hup, rfl⟩
  | _ =>
    unfold run at ht
    unfold all_owed at h ⊢
    grind [start_phase, store_resync]

theorem all_owed_same {s t : rack_loop} (h : s.all_owed)
    (hflags : t.m_resync_flags = s.m_resync_flags) (howed : t.owed = s.owed)
    (howns : t.owns_lock = s.owns_lock) (hpc : t.pc = s.pc) : t.all_owed := by
  unfold all_owed at h ⊢
  rwa [hpc, hflags, howed, howns]

theorem all_owed_trigger_sync {s t : rack_loop} {flags : sync_flag} (h : s.all_owed)
    (ht : s.act (.trigger_sync flags) = some t) : t.all_owed := by
  cases ht
  have hgrow : ∀ t, (s.m_resync_flags.has t.flag = true → t ∈ s.owed) →
      (if flags ≠ 0 then s.m_resync_flags ||| flags else s.m_resync_flags).has t.flag = true →
      t ∈ s.owed ++ sync_types flags := by
    intro t hold hup
    rcases mem_sync_types_or.mp hup with hup | hup
    · exact List.mem_append_left _ (hold hup)
    · exact List.mem_append_right _ hup
  unfold all_owed at h ⊢
  cases hpc : s.pc with
  | at_loop | at_wait =>
    simp only [hpc] at h ⊢
    exact fun howns t => hgrow t (h howns t)
  | upstream_sync todo =>
    simp only [hpc] at h ⊢
    exact ⟨h.1, fun t hne => hgrow t (h.2 t hne)⟩
  | cut_upstream =>
    simp only [hpc] at h ⊢
    exact fun t hne => hgrow t (h t hne)
  | second_sync _ | clear_flags | ended | finished | undefined => trivial
  | _ =>
    simp only [hpc] at h ⊢
    exact fun t => hgrow t (h t)

theorem all_owed_act {s t : rack_loop} {a : action} (h : s.all_owed) (hbooked : s.Booked)
    (ht : s.act a = some t) : t.all_owed := by
  have hwoken : s.pc = .blocked → ∀ t, s.m_resync_flags.has t.flag = true → t ∈ s.owed := by
    intro hpc
    unfold all_owed at h
    rwa [hpc] at h
  cases a with
  | rack => exact all_owed_run h hbooked ht
  | trigger_sync flags => exact all_owed_trigger_sync h ht
  | throws =>
    obtain ⟨-, rfl⟩ := act_throws ht
    intro howns
    cases howns
  | start =>
    simp only [act] at ht
    split at ht
    · rename_i hpc
      cases ht
      unfold all_owed at h
      rwa [hpc] at h
    · cases ht
  | wake =>
    simp only [act] at ht
    split at ht
    · rename_i hpc
      cases ht
      exact hwoken hpc
    · cases ht
  | trigger_cycle =>
    cases ht
    exact all_owed_same h rfl rfl rfl rfl
  | notify =>
    simp only [act, notify_one] at ht
    split at ht
    · cases ht
      split
      · rename_i hpc
        exact hwoken hpc
      · exact all_owed_same h rfl rfl rfl rfl
    · cases ht
  | raise i =>
    simp only [act] at ht
    split at ht
    · cases ht
    · cases ht
      exact all_owed_same h rfl rfl rfl rfl
  | stop =>
    simp only [act] at ht
    split at ht
    · cases ht
    · cases ht
      exact all_owed_same h rfl rfl rfl rfl

theorem all_owed_reachable {s : rack_loop} (h : transition.Reachable (loops.guarded in_time) s) :
    s.Booked ∧ s.all_owed := by
  refine h.keeps (P := fun s => s.Booked ∧ s.all_owed) ?_ ?_
  · rintro s rfl
    refine ⟨booked_new, ?_⟩
    intro t hup
    change sync_flag.has 0 t.flag = true at hup
    simp [sync_flag.has] at hup
  · rintro s a t hs ⟨hguard, ha⟩
    exact ⟨hs.1.act ha hguard, all_owed_act hs.2 hs.1 ha⟩

/-! ## What the thread clears next -/

/-- The next steps of the thread, and of no other, lead here. -/
def goes_on (s t : rack_loop) : Prop := ∃ n, transition.Run loops s (List.replicate n .rack) t

theorem goes_on_refl (s : rack_loop) : goes_on s s := ⟨0, .nil s⟩

theorem goes_on_step {s t u : rack_loop} (h : goes_on s t) (ht : t.run = some u) : goes_on s u := by
  obtain ⟨n, hn⟩ := h
  refine ⟨n + 1, ?_⟩
  rw [List.replicate_succ']
  exact hn.snoc ht

theorem goes_on_trans {s t u : rack_loop} (h : goes_on s t) (g : goes_on t u) : goes_on s u := by
  obtain ⟨n, hn⟩ := h
  obtain ⟨m, hm⟩ := g
  refine ⟨n + m, ?_⟩
  rw [← List.replicate_append_replicate]
  exact hn.append hm

/-- A type whose flag is cleared while it is owed is lost. -/
theorem lost_flag {s : rack_loop} {flags : sync_flag} {t : sync_type} (ht : t ∈ s.owed)
    (hup : s.m_resync_flags.has t.flag = true) (hdown : flags.has t.flag = false) :
    (s.store_flags flags).lost = true := by
  unfold store_flags
  simp only [Bool.or_eq_true, List.any_eq_true]
  exact .inr ⟨t, ht, by rw [hup, hdown]; rfl⟩

theorem lost_resync {s : rack_loop} {n : need} (hn : n ∈ s.due) (hup : s.m_resync = true) :
    s.store_resync.lost = true := by
  unfold store_resync
  simp only [hup, Bool.true_and, Bool.or_eq_true, Bool.not_eq_true', List.isEmpty_eq_false_iff]
  exact .inr (List.ne_nil_of_mem hn)

/-- The second sync goes on to its end, and what its parts do not answer stays. -/
theorem second_sync_goes_on {s : rack_loop} {todo : List phase} (hpc : s.pc = .second_sync todo) :
    ∃ u, goes_on s u ∧ u.pc = .clear_flags ∧ u.m_resync_flags = s.m_resync_flags ∧
      u.m_resync = s.m_resync ∧ (∀ t ∈ s.owed, .kind t ∉ todo → t ∈ u.owed) ∧
      ∀ n ∈ s.due, (∀ p ∈ todo, p.serves n = false) → n ∈ u.due := by
  induction todo generalizing s with
  | nil =>
    refine ⟨{ s with pc := .clear_flags }, goes_on_step (goes_on_refl s) ?_, rfl, rfl, rfl,
      fun t ht _ => ht, fun n hn _ => hn⟩
    simp only [run, hpc]
  | cons p todo ih =>
    obtain ⟨u, hu, hend, hflags, hresync, howed, hdue⟩ :=
      ih (s := { s.start_phase p with pc := .second_sync todo }) rfl
    have hstep : s.run = some { s.start_phase p with pc := .second_sync todo } := by
      simp only [run, hpc]
    refine ⟨u, goes_on_trans (goes_on_step (goes_on_refl s) hstep) hu, hend, hflags,
      hresync, ?_, ?_⟩
    · intro t ht hnone
      apply howed
      · apply mem_owed_start.mpr
        refine ⟨ht, ?_⟩
        rw [Bool.eq_false_iff]
        intro hserves
        obtain rfl := serves_type.mp hserves
        exact hnone List.mem_cons_self
      · exact fun h => hnone (List.mem_cons_of_mem _ h)
    · intro n hn hnone
      apply hdue
      · exact mem_due_start.mpr ⟨hn, hnone p List.mem_cons_self⟩
      · exact fun q hq => hnone q (List.mem_cons_of_mem _ hq)

theorem clear_flags_loses {s : rack_loop} {t : sync_type} (hpc : s.pc = .clear_flags)
    (ht : t ∈ s.owed) (hup : s.m_resync_flags.has t.flag = true) :
    ∃ u, goes_on s u ∧ u.lost = true := by
  have hstep : s.run = some { s.store_flags 0 with pc := .clear_resync } := by
    simp only [run, hpc]
  exact ⟨_, goes_on_step (goes_on_refl s) hstep, lost_flag ht hup (by simp [sync_flag.has])⟩

theorem clear_resync_loses {s : rack_loop} {n : need} (hpc : s.pc = .clear_resync)
    (hn : n ∈ s.due) (hup : s.m_resync = true) : ∃ u, goes_on s u ∧ u.lost = true := by
  have hstep : s.run = some { s.store_resync with pc := .count } := by
    simp only [run, hpc]
  exact ⟨_, goes_on_step (goes_on_refl s) hstep, lost_resync hn hup⟩

theorem loses_after {s t : rack_loop} (h : goes_on s t) (hlost : ∃ u, goes_on t u ∧ u.lost = true) :
    ∃ u, goes_on s u ∧ u.lost = true := by
  obtain ⟨u, hu, hlost⟩ := hlost
  exact ⟨u, goes_on_trans h hu, hlost⟩

/-- The request bit goes down right after the flags. -/
theorem clear_flags_loses_due {s : rack_loop} {n : need} (hpc : s.pc = .clear_flags)
    (hn : n ∈ s.due) (hup : s.m_resync = true) : ∃ u, goes_on s u ∧ u.lost = true := by
  have hstep : s.run = some { s.store_flags 0 with pc := .clear_resync } := by
    simp only [run, hpc]
  exact loses_after (goes_on_step (goes_on_refl s) hstep) (clear_resync_loses rfl hn hup)

theorem cut_upstream_loses {s : rack_loop} (hpc : s.pc = .cut_upstream) (ht : .upstream ∈ s.owed)
    (hup : s.m_resync_flags.has sync_flags.upstream = true) :
    ∃ u, goes_on s u ∧ u.lost = true := by
  have hstep : s.run =
      some { s.store_flags (s.m_resync_flags ^^^ sync_flags.upstream) with pc := .at_sync } := by
    simp only [run, hpc]
  refine ⟨_, goes_on_step (goes_on_refl s) hstep, lost_flag ht hup ?_⟩
  rw [has_clear_upstream, if_pos rfl]
  change (!s.m_resync_flags.has sync_flags.upstream) = false
  rw [hup]
  rfl

/-- An upstream sync that has begun goes on to its end, and a request that lands meanwhile is
cut. -/
theorem upstream_sync_loses {s : rack_loop} {todo : List phase} (hpc : s.pc = .upstream_sync todo)
    (hlate : .kind .upstream ∉ todo) (ht : .upstream ∈ s.owed)
    (hup : s.m_resync_flags.has sync_flags.upstream = true) :
    ∃ u, goes_on s u ∧ u.lost = true := by
  induction todo generalizing s with
  | nil =>
    have hstep : s.run = some { s with pc := .cut_upstream } := by
      simp only [run, hpc]
    exact loses_after (goes_on_step (goes_on_refl s) hstep) (cut_upstream_loses rfl ht hup)
  | cons p todo ih =>
    have hstep : s.run = some { s.start_phase p with pc := .upstream_sync todo } := by
      simp only [run, hpc]
    apply loses_after (goes_on_step (goes_on_refl s) hstep)
    apply ih rfl (fun h => hlate (List.mem_cons_of_mem p h))
    · refine mem_owed_start.mpr ⟨ht, ?_⟩
      rw [Bool.eq_false_iff]
      intro hserves
      obtain rfl := serves_type.mp hserves
      exact hlate List.mem_cons_self
    · exact hup

theorem second_sync_loses {s : rack_loop} {todo : List phase} {t : sync_type}
    (hpc : s.pc = .second_sync todo) (hlate : .kind t ∉ todo) (ht : t ∈ s.owed)
    (hup : s.m_resync_flags.has t.flag = true) : ∃ u, goes_on s u ∧ u.lost = true := by
  obtain ⟨u, hu, hend, hflags, -, howed, -⟩ := second_sync_goes_on hpc
  exact loses_after hu (clear_flags_loses hend (howed t ht hlate) (by rwa [hflags]))

theorem second_sync_loses_due {s : rack_loop} {todo : List phase} {n : need}
    (hpc : s.pc = .second_sync todo) (hlate : ∀ p ∈ todo, p.serves n = false) (hn : n ∈ s.due)
    (hup : s.m_resync = true) : ∃ u, goes_on s u ∧ u.lost = true := by
  obtain ⟨u, hu, hend, -, hresync, -, hdue⟩ := second_sync_goes_on hpc
  exact loses_after hu (clear_flags_loses_due hend (hdue n hn hlate) (by rwa [hresync]))

theorem late_trigger_is_lost {s t : rack_loop} {flags : sync_flag}
    (ht : s.act (.trigger_sync flags) = some t) (hs : ¬ s.in_time (.trigger_sync flags)) :
    ∃ u, goes_on t u ∧ u.lost = true := by
  cases ht
  have howed : ∀ t ∈ sync_types flags, t ∈ s.owed ++ sync_types flags :=
    fun t ht => List.mem_append_right _ ht
  have hup : ∀ t ∈ sync_types flags,
      (if flags ≠ 0 then s.m_resync_flags ||| flags else s.m_resync_flags).has t.flag = true :=
    fun t ht => mem_sync_types_or.mpr (.inr ht)
  unfold in_time at hs
  cases hpc : s.pc with
  | upstream_sync todo =>
    simp only [hpc] at hs
    push Not at hs
    exact upstream_sync_loses rfl hs.2 (howed _ hs.1) (hup _ hs.1)
  | cut_upstream =>
    simp only [hpc, not_not] at hs
    exact cut_upstream_loses rfl (howed _ hs) (hup _ hs)
  | second_sync todo =>
    simp only [hpc] at hs
    push Not at hs
    obtain ⟨t, ht, hlate⟩ := hs
    exact second_sync_loses rfl hlate (howed t ht) (hup t ht)
  | clear_flags =>
    simp only [hpc] at hs
    push Not at hs
    obtain ⟨t, ht⟩ := hs
    exact clear_flags_loses rfl (howed t ht) (hup t ht)
  | _ =>
    simp only [hpc] at hs
    exact absurd trivial hs

theorem late_raise_is_lost {s t : rack_loop} {i : Nat} (ht : s.act (.raise i) = some t)
    (hs : ¬ s.in_time (.raise i)) : ∃ u, goes_on t u ∧ u.lost = true := by
  unfold in_time at hs
  push Not at hs
  obtain ⟨call, hcall, hs⟩ := hs
  simp only [act, hcall] at ht
  cases ht
  have hdue : ∀ n ∈ call_needs call, n ∈ s.due ++ call_needs call :=
    fun n hn => List.mem_append_right _ hn
  cases hpc : s.pc with
  | second_sync todo =>
    simp only [hpc] at hs
    push Not at hs
    obtain ⟨n, hn, hlate⟩ := hs
    exact second_sync_loses_due rfl (fun p hp => Bool.eq_false_iff.mpr (hlate p hp)) (hdue n hn) rfl
  | clear_flags =>
    simp only [hpc] at hs
    push Not at hs
    obtain ⟨n, hn⟩ := hs
    exact clear_flags_loses_due rfl (hdue n hn) rfl
  | clear_resync =>
    simp only [hpc] at hs
    push Not at hs
    obtain ⟨n, hn⟩ := hs
    exact clear_resync_loses rfl (hdue n hn) rfl
  | plain_cycle =>
    simp only [hpc] at hs
    push Not at hs
    obtain ⟨n, hn, hne⟩ := hs
    -- the cycle that starts here is no sync of a type
    refine loses_after (goes_on_step (goes_on_refl _) rfl)
      (clear_resync_loses rfl (mem_due_start.mpr ⟨hdue n hn, ?_⟩) rfl)
    cases n with
    | type t => rfl
    | cycle => exact absurd rfl hne
  | _ =>
    simp only [hpc] at hs
    exact absurd trivial hs

/-- A pass that leaves a flag out clears it all the same. -/
theorem left_out_is_lost {s t : rack_loop} (hall : s.all_owed) (ht : s.act .rack = some t)
    (hs : ¬ s.in_time .rack) : ∃ u, goes_on t u ∧ u.lost = true := by
  unfold in_time at hs
  push Not at hs
  obtain ⟨hpc, k, hup, hout⟩ := hs
  simp only [act, run, hpc] at ht
  cases ht
  have hup := mem_sync_types.mp hup
  unfold all_owed at hall
  rw [hpc] at hall
  refine second_sync_loses rfl ?_ (hall k hup) hup
  unfold phases
  intro hmem
  rcases List.mem_append.mp hmem with hmem | hmem
  · obtain ⟨_, hrun, hsame⟩ := List.mem_map.mp hmem
    cases hsame
    exact hout hrun
  · split at hmem <;> simp at hmem

/-- No request is cleared unanswered in the runs in which each request comes in
time and no pass leaves a flag out. From any other step the thread clears a
request unanswered by its own next steps. -/
theorem a_request_is_answered_when_it_comes_in_time {s : rack_loop}
    (hs : transition.Reachable (loops.guarded in_time) s) :
    s.lost = false ∧
      ∀ a t, s.act a = some t → ¬ s.in_time a → ∃ u, goes_on t u ∧ u.lost = true := by
  obtain ⟨hbooked, hall⟩ := all_owed_reachable hs
  constructor
  · exact hbooked.kept
  · intro a t ha hlate
    cases a with
    | rack => exact left_out_is_lost hall ha hlate
    | trigger_sync flags => exact late_trigger_is_lost ha hlate
    | raise i => exact late_raise_is_lost ha hlate
    | _ => exact absurd trivial hlate

/-- A request before the first pass is answered by it. -/
theorem a_request_before_the_first_pass_is_answered :
    ∃ s, transition.Run loops new
      ([.start, .trigger_sync sync_flags.glob_sync, .raise 0, .rack, .rack, .rack, .rack,
        .trigger_cycle, .notify] ++ List.replicate 14 .rack) s ∧
      s.pc = .at_drain ∧ s.m_resync_flags = 0 ∧ s.owed = [] ∧ s.lost = false := by
  have go {s t : rack_loop} (h : transition.Reachable (loops.guarded in_time) s)
      (hpc : s.pc ≠ .at_sync) (ht : s.act .rack = some t) :
      transition.Reachable (loops.guarded in_time) t :=
    h.step .rack ⟨fun hsync => absurd hsync hpc, ht⟩
  have h0 : transition.Reachable (loops.guarded in_time) new := ⟨_, [], rfl, .nil _⟩
  have h1 := h0.step .start ⟨trivial, rfl⟩
  have h2 := h1.step (.trigger_sync sync_flags.glob_sync) ⟨trivial, rfl⟩
  have h3 := h2.step (.raise 0) ⟨fun _ _ => trivial, rfl⟩
  have hblocked := go (go (go (go h3 nofun rfl) nofun rfl) nofun rfl) nofun rfl
  have hcalled := hblocked.step .trigger_cycle ⟨trivial, rfl⟩
  have hwoken := hcalled.step .notify ⟨trivial, rfl⟩
  have hflags := go (go (go (go (go hwoken nofun rfl) nofun rfl) nofun rfl) nofun rfl) nofun rfl
  have hsync := (go (go hflags nofun rfl) nofun rfl).step .rack ⟨fun _ => by decide, rfl⟩
  have hcleared := go (go (go (go hsync nofun rfl) nofun rfl) nofun rfl) nofun rfl
  have hpassed := go (go hcleared nofun rfl) nofun rfl
  refine ⟨_, ?_, rfl, rfl, rfl, (a_request_is_answered_when_it_comes_in_time hpassed).1⟩
  apply transition.Run.machine (.nil _)
  decide

/-- A unit asks for another global sync in the resync callback of the global
sync of a pass: the flags are zeroed after it, and no sync follows. -/
theorem a_request_from_the_last_cycle_is_erased :
    ∃ s, transition.Run loops new
      [.start, .rack, .rack, .rack, .rack, .trigger_sync sync_flags.glob_sync, .raise 0,
        .trigger_cycle, .notify, .rack, .rack, .rack, .rack, .rack, .rack, .rack, .rack, .rack,
        .trigger_sync sync_flags.glob_sync, .raise 0, .rack, .rack, .rack] s ∧ s.lost = true := by
  refine ⟨{ new with
    m_running := true
    m_active := true
    m_resync := true
    m_cycle_queue := 1
    owns_lock := true
    pc := .clear_resync
    owed := [.glob_sync]
    due := [.type .glob_sync]
    lost := true }, ?_, rfl⟩
  apply transition.Run.machine (.nil _)
  decide

end strangeio.component.rack_loop
