-- An event loop without its queue (events/loop.cpp, threads/task_utility.cpp,
-- routine/system.cpp): a task that is dropped is the last one, and the loop that `setup`
-- makes, which is given no queue, delivers nothing.
import StrangeIO.EventServed

namespace strangeio.event

open thread (pkg)

namespace loop

variable {s t : loop}

theorem caller_calls {a : action} (ht : s.act a = some t) (hcycle : ∀ u, a ≠ .cycle_events u) :
    t.calls = s.calls := by
  cases a with
  | cycle_events u => exact absurd rfl (hcycle u)
  | add_event c =>
    simp only [loop.act, loop.add_event] at ht
    split at ht
    all_goals
      first
      | cases ht; rfl
      | split at ht <;> first | (cases ht; rfl) | (split at ht <;> cases ht <;> rfl) | cases ht
      | cases ht
  | new_item c item =>
    simp only [loop.act, loop.new_item] at ht
    split at ht
    · split at ht
      · cases ht
        rfl
      · cases ht
    · cases ht
  | call c type =>
    simp only [loop.act] at ht
    split at ht
    · cases ht
      rfl
    · cases ht

end loop

namespace service

/-! ## Tasks that were dropped -/

/-- The task was added when the loop had no queue. -/
def dropped (s : service) (t : Nat) : Prop := t < s.eloop.submitted ∧ some t ∉ s.jobs

instance (s : service) (t : Nat) : Decidable (s.dropped t) := inferInstanceAs (Decidable (_ ∧ _))

section
variable {s s' : service} {a : action} {t : Nat}

/-- A task is added where a call comes to add it. -/
theorem Moved.submitted (h : Moved s a s') : s'.eloop.submitted = s.eloop.submitted ∨
    s'.eloop.submitted = s.eloop.submitted + 1 ∧ ∃ c, s.eloop.add c = .at_task true := by
  cases h with
  | called _ _ _ hsubmitted => exact .inl hsubmitted
  | runs _ ha => exact .inl (loop.cycle_tasks ha).2.2.1
  | dropped hc _ => exact .inr ⟨rfl, _, hc⟩
  | added hc _ _ => exact .inr ⟨rfl, _, hc⟩
  | _ => exact .inl rfl

/-- The books gain the package of a new task, or one that is not the loop's. -/
theorem Moved.jobs (h : Moved s a s') : s'.jobs = s.jobs ∨ s'.jobs = s.jobs ++ [none] ∨
    s'.jobs = s.jobs ++ [some s.eloop.submitted] := by
  cases h with
  | added _ _ _ => exact .inr (.inr rfl)
  | other _ => exact .inr (.inl rfl)
  | _ => exact .inl rfl

theorem Moved.keeps_queue (h : Moved s a s') (hset : a ≠ .set_queue_utility) :
    s'.m_queue = s.m_queue := by
  cases h with
  | wired => exact absurd rfl hset
  | _ => rfl

theorem Moved.stays_dropped (h : Moved s a s') (ht : s.dropped t) : s'.dropped t := by
  obtain ⟨hlt, hjobs⟩ := ht
  refine ⟨?_, ?_⟩
  · rcases h.submitted with hsame | ⟨hnew, -⟩
    · rwa [hsame]
    · omega
  · rcases h.jobs with hsame | hnew | hnew
    · rwa [hsame]
    · simp [hnew, hjobs]
    · simp [hnew, hjobs, Nat.ne_of_lt hlt]

end

/-! ## A loop whose tasks are not run -/

/-- No task of the loop is a package, so none has begun, and the list has every event that was
linked in. -/
structure Unserved (s : service) : Prop where
  jobs : ∀ t, some t ∉ s.jobs
  queued : ∀ t < s.eloop.submitted, (s.eloop.tasks t).pc = .queued
  calls : s.eloop.calls = []
  listed : ∃ nodes, s.eloop.Holds [] nodes
  accounted : s.eloop.Accounted

theorem unserved_new (m : listener_map) (size : Nat) (m_queue : Bool) :
    (new m size m_queue).Unserved where
  jobs t ht := by cases ht
  queued t ht := absurd ht (Nat.not_lt_zero t)
  calls := rfl
  listed := ⟨[], loop.holds_new m⟩
  accounted n hn := by cases hn

section
variable {s s' : service} {a : action} {t : Nat}

theorem Unserved.job_of (hs : s.Unserved) (i : Nat) : s.job_of i = none := by
  cases h : s.job_of i with
  | none => rfl
  | some t =>
    obtain ⟨p, -, hp⟩ := Option.bind_eq_some_iff.mp h
    exact absurd (job_mem hp) (hs.jobs t)

/-- A task that was added is to go on with the list. -/
theorem Unserved.job (hs : s.Unserved) (ht : t < s.eloop.submitted) :
    shared.Sole (some (.task t)) s.eloop.outstanding := by
  obtain ⟨nodes, hholds⟩ := hs.listed
  have hqueued := hs.queued t ht
  have hout : s.eloop.outstanding (.task t) = true := by
    apply loop.pending_of
    · exact hholds.not_reset (by rw [hqueued]; rfl)
    · rw [hqueued]
      rfl
  obtain ⟨job, hjob, -⟩ := hholds.turn.job
  obtain rfl := hjob.holder_eq hout
  exact hjob

/-- No call adds another task. -/
theorem Unserved.no_task (hs : s.Unserved) (ht : t < s.eloop.submitted) (c : caller) :
    s.eloop.add c ≠ .at_task true := by
  intro hc
  have hout : s.eloop.outstanding (.add c) = true := by
    simp [loop.outstanding, loop.look, hc, add_pc.due]
  cases (hs.job ht).eq hout

/-- The list of a task is never empty. -/
theorem Unserved.tail_ptr (hs : s.Unserved) (ht : t < s.eloop.submitted) :
    s.eloop.m_tail_ptr ≠ none := by
  obtain ⟨nodes, hholds⟩ := hs.listed
  intro hptr
  exact hholds.turn.nodes_ne (hs.job ht).has_self (hholds.ptr_eq_none.mp hptr)

/-- The step of a call to the loop. -/
theorem Unserved.called (hs : s.Unserved) {b : loop.action} {eloop : loop}
    (hb : s.eloop.act b = some eloop) (hcycle : ∀ u, b ≠ .cycle_events u) :
    (∃ nodes, eloop.Holds [] nodes) ∧ eloop.Accounted ∧ eloop.calls = [] := by
  obtain ⟨nodes, hholds⟩ := hs.listed
  exact ⟨hholds.caller_act hb hcycle, hs.accounted.act hholds hb,
    (loop.caller_calls hb hcycle).trans hs.calls⟩

/-- Only with its queue, and where a task is to be added, is the loop served. -/
theorem Moved.unserved (h : Moved s a s') (hs : s.Unserved)
    (hadd : s.m_queue = true → ∀ c, s.eloop.add c ≠ .at_task true) : s'.Unserved := by
  have hsame := hs
  obtain ⟨h1, h2, h3, h4, h5⟩ := hsame
  cases h with
  | wired => exact ⟨h1, h2, h3, h4, h5⟩
  | called ha hcycle htasks hsubmitted =>
    obtain ⟨hlisted, haccounted, hcalls⟩ := hs.called ha hcycle
    refine ⟨h1, fun t ht => ?_, hcalls, hlisted, haccounted⟩
    rw [htasks]
    exact h2 t (hsubmitted ▸ ht)
  | @dropped c hc _ =>
    have ha : s.eloop.act (.add_event c) = some (s.eloop.add_task.set_add c .idle) := by
      change s.eloop.add_event c = _
      simp only [loop.add_event, hc]
      rfl
    obtain ⟨hlisted, haccounted, hcalls⟩ := hs.called ha (by simp)
    refine ⟨h1, fun t ht => ?_, hcalls, hlisted, haccounted⟩
    change (Function.update s.eloop.tasks s.eloop.submitted _ t).pc = _
    rcases Nat.lt_succ_iff_lt_or_eq.mp ht with hlt | rfl
    · rw [Function.update_of_ne (Nat.ne_of_lt hlt)]
      exact h2 t hlt
    · rw [Function.update_self]
  | @added c _ hc hqueue _ => exact absurd hc (hadd hqueue c)
  | other _ => exact ⟨by simp [h1], h2, h3, h4, h5⟩
  | thread _ _ _ _ => exact ⟨h1, h2, h3, h4, h5⟩
  | begins _ _ ht =>
    rw [hs.job_of] at ht
    cases ht
  | runs hin _ =>
    have ht := hin.2
    rw [hs.job_of] at ht
    cases ht

/-- A loop that has no queue had none before, and a task is dropped where there is none. -/
theorem Moved.was_unserved (h : Moved s a s') (hs' : s'.m_queue = false ∨ ∃ t, s'.dropped t) :
    s.m_queue = false ∨ ∃ t, s.dropped t := by
  cases h with
  | dropped _ hqueue => exact .inl hqueue
  | wired =>
    obtain hqueue | ht := hs'
    · cases hqueue
    · exact .inr ht
  | called _ _ _ hsubmitted =>
    refine hs'.imp_right ?_
    rintro ⟨t, hlt, hjobs⟩
    exact ⟨t, hsubmitted ▸ hlt, hjobs⟩
  | added hc hqueue ha =>
    obtain hnone | ⟨t, hlt, hjobs⟩ := hs'
    · exact .inl hnone
    · rw [List.mem_append, List.mem_singleton, not_or] at hjobs
      refine .inr ⟨t, ?_, hjobs.1⟩
      have hne : t ≠ s.eloop.submitted := fun heq => hjobs.2 (by rw [heq])
      have hle : t < s.eloop.submitted + 1 := hlt
      omega
  | other _ =>
    refine hs'.imp_right ?_
    rintro ⟨t, hlt, hjobs⟩
    exact ⟨t, hlt, fun hmem => hjobs (List.mem_append_left _ hmem)⟩
  | thread _ _ _ _ => exact hs'
  | begins _ _ _ => exact hs'
  | runs _ ha =>
    refine hs'.imp_right ?_
    rintro ⟨t, hlt, hjobs⟩
    exact ⟨t, (loop.cycle_tasks ha).2.2.1 ▸ hlt, hjobs⟩

end

/-- Until the loop is given its queue, and after it has dropped a task, none of its tasks is
a package. -/
theorem reachable_unserved {m_queue : Bool} {s : service}
    (h : transition.Reachable (services m_queue) s)
    (hs : s.m_queue = false ∨ ∃ t, s.dropped t) : s.Unserved := by
  refine h.keeps (P := fun s => (s.m_queue = false ∨ ∃ t, s.dropped t) → s.Unserved) ?_ ?_ hs
  · rintro s ⟨m, size, rfl⟩ -
    exact unserved_new m size m_queue
  · intro s a s' ih ha hs'
    have hbefore := (moved ha).was_unserved hs'
    refine (moved ha).unserved (ih hbefore) fun hqueue c => ?_
    obtain hnone | ⟨t, hdropped⟩ := hbefore
    · rw [hqueue] at hnone
      cases hnone
    · exact (ih (.inr ⟨t, hdropped⟩)).no_task hdropped.1 c

/-- Once a task was dropped the loop is at a stand for good: whatever is done, also when the
loop is given its queue later, no task is added, and the list is never empty again. No listener
was called before, and none is called any more. -/
theorem a_dropped_task_is_the_last {m_queue : Bool} {s s' : service} {t : Nat} {as : List action}
    (h : transition.Reachable (services m_queue) s) (ht : s.dropped t)
    (hrun : transition.Run (services m_queue) s as s') :
    s'.eloop.calls = [] ∧ s'.eloop.submitted = s.eloop.submitted ∧ s'.eloop.m_tail_ptr ≠ none := by
  obtain ⟨hu, hdropped, hsubmitted⟩ : transition.Reachable (services m_queue) s' ∧ s'.dropped t ∧
      s'.eloop.submitted = s.eloop.submitted := by
    refine hrun.keeps (P := fun u => transition.Reachable (services m_queue) u ∧ u.dropped t ∧
      u.eloop.submitted = s.eloop.submitted) ?_ ⟨h, ht, rfl⟩
    rintro u a v ⟨hu, hdropped, hsubmitted⟩ ha
    refine ⟨hu.step a ha, (moved ha).stays_dropped hdropped, ?_⟩
    obtain hsame | ⟨-, c, hc⟩ := (moved ha).submitted
    · rw [hsame, hsubmitted]
    · exact absurd hc ((reachable_unserved hu (.inr ⟨t, hdropped⟩)).no_task hdropped.1 c)
  have hs' := reachable_unserved hu (.inr ⟨t, hdropped⟩)
  exact ⟨hs'.calls, hsubmitted, hs'.tail_ptr hdropped.1⟩

/-- A producer adds an event. -/
def add_one (p item : Nat) : List action :=
  [.caller (.call (.producer p) (some 7))] ++
    List.replicate 2 (.caller (.add_event (.producer p))) ++
    [.caller (.new_item (.producer p) item)] ++
      List.replicate 7 (.caller (.add_event (.producer p)))

/-- The loop is given its queue, which is started, and a second producer adds an event. -/
def wire_late : List action :=
  [.set_queue_utility] ++ thread.queue.start_one.map .thread ++ add_one 1 101

theorem a_late_queue_delivers_nothing :
    ∃ s s' : service, (s.dropped 0 ∧ s'.m_queue = true ∧ s'.tqueue.control = .started ∧
      s'.eloop.linked.length = 2) ∧ s'.eloop.calls = [] := by
  have hrun : ∃ s, transition.Reachable (services false) s ∧ (s.dropped 0 ∧
      (wire_late.foldlM act s).any (fun s' => decide (s'.m_queue = true ∧
        s'.tqueue.control = .started ∧ s'.eloop.linked.length = 2)) = true) :=
    transition.Reachable.machine (new [(7, [0])] 1 false) ⟨_, _, rfl⟩ (add_one 0 100)
      (by decide +kernel)
  obtain ⟨s, hs, hdropped, hrest⟩ := hrun
  obtain ⟨s', hs', hq⟩ := (Option.any_eq_true _ _).mp hrest
  have hlate : transition.Run (services false) s ([] ++ wire_late) s' :=
    transition.Run.machine (.nil s) hs'
  exact ⟨s, s', ⟨hdropped, of_decide_eq_true hq⟩, (a_dropped_task_is_the_last hs hdropped hlate).1⟩

/-! ## A loop that never gets its queue -/

/-- While the loop is not given its queue, as `setup` leaves it, whatever else is done no
listener is ever called and no task is ever begun. Every event that is accepted stays in the
list, or with the call that adds it, and the one task that was added is never run. -/
theorem without_its_queue_the_loop_delivers_nothing {s : service}
    (h : transition.Reachable ((services false).guarded fun _ a => a ≠ .set_queue_utility) s) :
    s.eloop.calls = [] ∧ (∀ t, (s.eloop.tasks t).pc.begun = false) ∧ s.eloop.submitted ≤ 1 ∧
      (0 < s.eloop.submitted → s.eloop.m_tail_ptr ≠ none) ∧
      ∃ nodes, s.eloop.Holds [] nodes ∧ s.eloop.linked = nodes.map Prod.snd ∧
        ∀ m ∈ s.eloop.accepted, m ∈ nodes.map Prod.snd ∨ ∃ c, s.eloop.message c = some m := by
  have hqueue : s.m_queue = false := by
    refine h.keeps (P := fun s => s.m_queue = false) ?_ ?_
    · rintro s ⟨m, size, rfl⟩
      rfl
    · rintro s a s' hqueue ⟨hset, ha⟩
      exact ((moved ha).keeps_queue hset).trans hqueue
  have hs := reachable_unserved h.of_guarded (.inl hqueue)
  obtain ⟨nodes, hholds⟩ := hs.listed
  refine ⟨hs.calls, fun t => ?_, ?_, fun hpos => hs.tail_ptr hpos, nodes, hholds, hholds.linked,
    fun m hm => ?_⟩
  · by_cases ht : t < s.eloop.submitted
    · rw [hs.queued t ht]
      rfl
    · rw [hholds.unsubmitted t (Nat.le_of_not_lt ht)]
      rfl
  · by_contra hmore
    have hzero : 0 < s.eloop.submitted := by omega
    have hone : 1 < s.eloop.submitted := by omega
    cases (hs.job hzero).eq (hs.job hone).has_self
  · have hlinked : s.eloop.linked = nodes.map Prod.snd := hholds.linked
    rw [← hlinked]
    exact (hs.accounted m hm).imp id fun ⟨c, hc, _⟩ => ⟨c, hc⟩

theorem a_started_queue_is_not_enough :
    ∃ s : service, (s.tqueue.control = .started ∧ s.eloop.linked.length = 1 ∧
      s.eloop.submitted = 1) ∧
      s.eloop.calls = [] := by
  have hrun : ((thread.queue.start_one.map action.thread ++ add_one 0 100).foldlM
      (fun s a => if a ≠ .set_queue_utility then s.act a else none) (new [(7, [0])] 1 false)).any
      (fun s => decide (s.tqueue.control = .started ∧ s.eloop.linked.length = 1 ∧
        s.eloop.submitted = 1)) = true := by
    decide +kernel
  obtain ⟨s, hs, hq⟩ := reachable_guarded (G := fun _ a => a ≠ .set_queue_utility)
    [(7, [0])] 1 false
    (thread.queue.start_one.map action.thread ++ add_one 0 100) hrun
  exact ⟨s, hq, (without_its_queue_the_loop_delivers_nothing hs).1⟩

end service

end strangeio.event
