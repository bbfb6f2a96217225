-- What the work queue makes of the event loop's tasks (events/loop.cpp, threads/queue.cpp,
-- threads/task_utility.cpp): where a worker comes to run a package only with one loaded, the
-- queue runs each task once, and the loop behaves as one that is served by threads of its own.
import StrangeIO.EventService

namespace strangeio.event

open thread (pkg)

/-! ## The tasks of the loop -/

/-- The task has been begun. -/
def cycle_pc.begun : cycle_pc → Bool
  | .unsubmitted | .queued => false
  | _ => true

namespace loop

variable {s t : loop}

/-- A step of a task changes no other one, and no call. -/
theorem cycle_tasks {u : Nat} (ht : s.cycle_events u = some t) :
    (∀ v, v ≠ u → t.tasks v = s.tasks v) ∧ (t.tasks u).pc.begun = true ∧
      t.submitted = s.submitted ∧ t.add = s.add := by
  have hset (v : task) (hv : v.pc.begun = true)
      (h : t.tasks = Function.update s.tasks u v ∧ t.submitted = s.submitted ∧ t.add = s.add) :
      (∀ v, v ≠ u → t.tasks v = s.tasks v) ∧ (t.tasks u).pc.begun = true ∧
        t.submitted = s.submitted ∧ t.add = s.add := by
    rw [h.1, Function.update_self]
    exact ⟨fun w hw => Function.update_of_ne hw _ _, hv, h.2⟩
  cases hpc : (s.tasks u).pc <;> simp only [loop.cycle_events, hpc] at ht
  case at_loop node =>
    cases node with
    | none =>
      cases ht
      exact hset _ rfl ⟨rfl, rfl, rfl⟩
    | some node =>
      simp only at ht
      split at ht
      · cases ht
        exact hset _ rfl ⟨rfl, rfl, rfl⟩
      · cases ht
        exact hset _ rfl ⟨rfl, rfl, rfl⟩
  case at_tail node sptr =>
    cases ht
    refine hset _ ?_ ⟨rfl, rfl, rfl⟩
    by_cases h : s.m_tail_ptr = some node <;> simp [h, cycle_pc.begun]
  case at_recheck node sptr =>
    cases ht
    refine hset _ ?_ ⟨rfl, rfl, rfl⟩
    by_cases h : s.m_tail_ptr = some node <;> simp [h, cycle_pc.begun]
  all_goals
    first
    | cases ht; exact hset _ rfl ⟨rfl, rfl, rfl⟩
    | split at ht <;> first | (cases ht; exact hset _ rfl ⟨rfl, rfl, rfl⟩) | cases ht
    | cases ht

/-- A call of `add_event` changes a task only where it adds one. -/
theorem add_tasks {c : caller} (ht : s.add_event c = some t) :
    s.add c = .at_task true ∧ t = s.add_task.set_add c .idle ∨
      s.add c ≠ .at_task true ∧ t.tasks = s.tasks ∧ t.submitted = s.submitted := by
  cases hpc : s.add c <;> simp only [loop.add_event, hpc] at ht
  case at_task retask =>
    cases retask with
    | true =>
      cases ht
      exact .inl ⟨rfl, rfl⟩
    | false =>
      cases ht
      exact .inr ⟨by simp, rfl, rfl⟩
  case entered message =>
    cases message
    · cases ht
      exact .inr ⟨by simp, rfl, rfl⟩
    · cases ht
      exact .inr ⟨by simp, rfl, rfl⟩
  case set_next item =>
    split at ht
    · cases ht
      exact .inr ⟨by simp, rfl, rfl⟩
    · split at ht
      · cases ht
        exact .inr ⟨by simp, rfl, rfl⟩
      · cases ht
        exact .inr ⟨by simp, rfl, rfl⟩
  all_goals
    first
    | cases ht; exact .inr ⟨by simp, rfl, rfl⟩
    | split at ht <;> first | (cases ht; exact .inr ⟨by simp, rfl, rfl⟩) | cases ht
    | cases ht

/-- The other steps of the callers change no task. -/
theorem caller_tasks {a : action} (ht : s.act a = some t) (hadd : ∀ c, a ≠ .add_event c)
    (hcycle : ∀ u, a ≠ .cycle_events u) : t.tasks = s.tasks ∧ t.submitted = s.submitted := by
  cases a with
  | add_event c => exact absurd rfl (hadd c)
  | cycle_events u => exact absurd rfl (hcycle u)
  | new_item c item =>
    simp only [loop.act, loop.new_item] at ht
    split at ht
    · split at ht
      · cases ht
        exact ⟨rfl, rfl⟩
      · cases ht
    · cases ht
  | call c type =>
    simp only [loop.act] at ht
    split at ht
    · cases ht
      exact ⟨rfl, rfl⟩
    · cases ht

end loop

namespace service

/-! ## What a step does -/

inductive Moved (s : service) : action → service → Prop
  | wired : Moved s .set_queue_utility { s with m_queue := true }
  | called {a : loop.action} {eloop : loop} (ha : s.eloop.act a = some eloop)
      (hcycle : ∀ u, a ≠ .cycle_events u) (htasks : eloop.tasks = s.eloop.tasks)
      (hsubmitted : eloop.submitted = s.eloop.submitted) : Moved s (.caller a) { s with eloop }
  | dropped {c : caller} (hc : s.eloop.add c = .at_task true) (hqueue : s.m_queue = false) :
      Moved s (.caller (.add_event c)) { s with eloop := s.eloop.add_task.set_add c .idle }
  | added {c : caller} {tqueue : thread.queue} (hc : s.eloop.add c = .at_task true)
      (hqueue : s.m_queue = true) (ha : s.tqueue.act .add_package = some tqueue) :
      Moved s (.caller (.add_event c))
        { s with
          eloop := s.eloop.add_task.set_add c .idle
          tqueue
          jobs := s.jobs ++ [some s.eloop.submitted] }
  | other {tqueue : thread.queue} (ha : s.tqueue.act .add_package = some tqueue) :
      Moved s (.thread .add_package) { s with tqueue, jobs := s.jobs ++ [none] }
  | thread {a : thread.queue.action} {tqueue : thread.queue} (ha : s.tqueue.act a = some tqueue)
      (hadd : a ≠ .add_package)
      (hrun : ∀ i, a = .process i → (s.tqueue.worker i).pc = .at_run → s.job_of i = none)
      (hreturn : ∀ i t, a = .process i → s.in_task i t → (s.eloop.tasks t).pc = .finished) :
      Moved s (.thread a) { s with tqueue }
  | begins {i t : Nat} {tqueue : thread.queue} (ha : s.tqueue.act (.process i) = some tqueue)
      (hpc : (s.tqueue.worker i).pc = .at_run) (ht : s.job_of i = some t) :
      Moved s (.thread (.process i)) { s with tqueue, eloop := run_task t s.eloop }
  | runs {i t : Nat} {eloop : loop} (hin : s.in_task i t)
    (ha : s.eloop.cycle_events t = some eloop) :
      Moved s (.cycle_events i) { s with eloop }

theorem moved_process {s t : service} {i : Nat} (h : s.process i = some t) :
    Moved s (.thread (.process i)) t := by
  obtain ⟨tqueue, ha, ht⟩ := Option.bind_eq_some_iff.mp h
  have hquiet (hrun : (s.tqueue.worker i).pc = .at_run → s.job_of i = none)
      (hreturn : ∀ u, s.in_task i u → (s.eloop.tasks u).pc = .finished) :
      Moved s (.thread (.process i)) { s with tqueue } := by
    refine .thread ha (by simp) (fun j hj => ?_) (fun j u hj => ?_)
    · cases hj
      exact hrun
    · cases hj
      exact hreturn u
  split at ht
  · rename_i u hpc hjob
    cases ht
    exact .begins ha hpc hjob
  · rename_i u hpc hjob
    split at ht
    · rename_i hfinished
      cases ht
      refine hquiet (fun hrun => ?_) (fun v hv => ?_)
      · rw [hpc] at hrun
        cases hrun
      · have hsame := hjob.symm.trans hv.2
        cases hsame
        exact hfinished
    · cases ht
  · rename_i hrun hbusy
    cases ht
    refine hquiet (fun hpc => ?_) (fun v hv => ?_)
    · cases hjob : s.job_of i with
      | none => rfl
      | some u => exact (hrun u hpc hjob).elim
    · exact (hbusy v hv.1 hv.2).elim

theorem moved {s t : service} {a : action} (h : s.act a = some t) : Moved s a t := by
  cases a with
  | set_queue_utility =>
    cases h
    exact .wired
  | cycle_events i =>
    simp only [act, service.cycle_events] at h
    split at h
    · rename_i hpc
      obtain ⟨u, hu, hrest⟩ := Option.bind_eq_some_iff.mp h
      obtain ⟨eloop, ha, ht⟩ := Option.bind_eq_some_iff.mp hrest
      cases ht
      exact .runs ⟨hpc, hu⟩ ha
    · cases h
  | thread a =>
    by_cases hprocess : ∃ i, a = .process i
    · obtain ⟨i, rfl⟩ := hprocess
      exact moved_process h
    · push Not at hprocess
      cases a with
      | process i => exact absurd rfl (hprocess i)
      | add_package =>
        have hadd : s.add_package none = some t := h
        obtain ⟨tqueue, ha, rfl⟩ := Option.map_eq_some_iff.mp hadd
        exact .other ha
      | _ =>
        obtain ⟨tqueue, ha, rfl⟩ := Option.map_eq_some_iff.mp h
        exact .thread ha (by simp) (fun i hi => absurd hi (hprocess i))
          fun i _ hi => absurd hi (hprocess i)
  | caller a =>
    cases a with
    | cycle_events u => cases h
    | add_event c =>
      obtain ⟨eloop, ha, ht⟩ := Option.bind_eq_some_iff.mp h
      rcases loop.add_tasks ha with ⟨hc, rfl⟩ | ⟨hc, htasks, hsubmitted⟩
      · split at ht
        · rename_i hboth
          obtain ⟨tqueue, hq, rfl⟩ := Option.map_eq_some_iff.mp ht
          exact .added hc hboth.2 hq
        · rename_i hqueue
          cases ht
          exact .dropped hc (by simpa [hc] using hqueue)
      · rw [if_neg (fun hboth => hc hboth.1)] at ht
        cases ht
        exact .called ha (by simp) htasks hsubmitted
    | call c type =>
      obtain ⟨eloop, ha, rfl⟩ := Option.map_eq_some_iff.mp h
      obtain ⟨htasks, hsubmitted⟩ := loop.caller_tasks ha (by simp) (by simp)
      exact .called ha (by simp) htasks hsubmitted
    | new_item c item =>
      obtain ⟨eloop, ha, rfl⟩ := Option.map_eq_some_iff.mp h
      obtain ⟨htasks, hsubmitted⟩ := loop.caller_tasks ha (by simp) (by simp)
      exact .called ha (by simp) htasks hsubmitted

/-! ## The tasks and their packages -/

theorem job_mem {s : service} {p : pkg} {t : Nat} (h : s.job p = some t) : some t ∈ s.jobs := by
  unfold job at h
  cases hp : s.jobs[p]? with
  | none =>
    rw [hp] at h
    cases h
  | some j =>
    rw [hp] at h
    obtain rfl : j = some t := h
    exact List.mem_of_getElem? hp

theorem job_lt {s : service} {p : pkg} {t : Nat} (h : s.job p = some t) : p < s.jobs.length := by
  unfold job at h
  cases hp : s.jobs[p]? with
  | none =>
    rw [hp] at h
    cases h
  | some j => exact (List.getElem?_eq_some_iff.mp hp).1

theorem job_of_mem {s : service} {t : Nat} (h : some t ∈ s.jobs) : ∃ p, s.job p = some t := by
  obtain ⟨p, hp⟩ := List.mem_iff_getElem?.mp h
  refine ⟨p, ?_⟩
  unfold job
  rw [hp]
  rfl

/-- The package that is added is the last one of the books. -/
theorem job_push {s t : service} {j : Option Nat} (h : t.jobs = s.jobs ++ [j]) (p : pkg) :
    t.job p = if p = s.jobs.length then j else s.job p := by
  unfold job
  rw [h, List.getElem?_append]
  split
  · rename_i hlt
    rw [if_neg (Nat.ne_of_lt hlt)]
  · rename_i hge
    split
    · rename_i heq
      subst heq
      simp
    · rename_i hne
      have hle : s.jobs.length ≤ p := Nat.le_of_not_lt hge
      have hlast : p - s.jobs.length ≠ 0 := Nat.sub_ne_zero_of_lt
        (Nat.lt_of_le_of_ne hle (Ne.symm hne))
      rw [List.getElem?_eq_none hle]
      cases hk : p - s.jobs.length with
      | zero => exact absurd hk hlast
      | succ k => rfl

/-- Every task that has begun is that of one package, which was run. -/
structure Serves (s : service) : Prop where
  last : s.tqueue.waiter_last
  mutexes : s.tqueue.Mutexes
  fresh : s.tqueue.Fresh
  length : s.jobs.length = s.tqueue.added
  below : ∀ t, some t ∈ s.jobs → t < s.eloop.submitted
  known : ∀ t < s.eloop.submitted, (s.eloop.tasks t).pc ≠ .unsubmitted
  apart : ∀ p q t, s.job p = some t → s.job q = some t → p = q
  waits : ∀ p t, s.job p = some t → some p ∉ s.tqueue.runs → (s.eloop.tasks t).pc = .queued
  ran : ∀ p t, s.job p = some t → some p ∈ s.tqueue.runs → (s.eloop.tasks t).pc.begun = true
  begun : ∀ t, (s.eloop.tasks t).pc.begun = true → some t ∈ s.jobs
  busy : ∀ i, (s.tqueue.worker i).pc = .busy → ∃ p, (s.tqueue.worker i).m_current = some p ∧
    (p, i) ∈ s.tqueue.handed ∧ some p ∈ s.tqueue.runs

theorem serves_new (m : listener_map) (size : Nat) (m_queue : Bool) :
    (new m size m_queue).Serves where
  last _ := .inl rfl
  mutexes := thread.queue.mutexes_new size
  fresh := thread.queue.fresh_new size
  length := rfl
  below t ht := by cases ht
  known t ht := absurd ht (Nat.not_lt_zero t)
  apart p q t hp := by cases hp
  waits p t hp := by cases hp
  ran p t hp := by cases hp
  begun t ht := by cases ht
  busy i hi := by cases hi

section
variable {s : service} {tqueue : thread.queue} {a : thread.queue.action}

/-- What a step of the queue's threads keeps, and what it runs. -/
theorem Serves.threads (hs : s.Serves) (ha : s.tqueue.act a = some tqueue)
    (hg : s.tqueue.runs_loaded a) :
    tqueue.waiter_last ∧ tqueue.Mutexes ∧ tqueue.Fresh ∧
      ∀ i, (tqueue.worker i).pc = .busy → ∃ p, (tqueue.worker i).m_current = some p ∧
        (p, i) ∈ tqueue.handed ∧ some p ∈ tqueue.runs := by
  refine ⟨thread.queue.waiter_last_act ha hs.last, hs.mutexes.act ha,
    hs.fresh.act hs.mutexes hs.last ha hg, fun i hi => ?_⟩
  obtain ⟨hcurrent, ⟨hbusy, -⟩ | ⟨hprocess, hpc, -⟩⟩ := thread.queue.act_busy hs.mutexes ha hi
  · obtain ⟨p, h1, h2, h3⟩ := hs.busy i hbusy
    refine ⟨p, hcurrent.trans h1, thread.queue.act_handed ha h2, ?_⟩
    rcases thread.queue.act_runs ha with hruns | ⟨j, -, -, hruns⟩
    · rwa [hruns]
    · rw [hruns]
      exact List.mem_append_left _ h3
  · obtain ⟨p, h1, h2, -⟩ := hs.fresh.at_run hprocess hpc hg
    refine ⟨p, hcurrent.trans h1, thread.queue.act_handed ha h2, ?_⟩
    subst hprocess
    obtain ⟨w, -, rfl⟩ := thread.queue.process_eq ha
    rw [hpc, h1]
    exact List.mem_append_right _ List.mem_cons_self

/-- A step of the loop alone that leaves the tasks with packages as they are. -/
theorem Serves.loop_step (hs : s.Serves) {eloop : loop}
    (htasks : ∀ t, t < s.eloop.submitted → eloop.tasks t = s.eloop.tasks t)
    (hbegun : ∀ t, ¬ t < s.eloop.submitted → (eloop.tasks t).pc.begun = false ∧
      (t < eloop.submitted → (eloop.tasks t).pc ≠ .unsubmitted))
    (hsubmitted : s.eloop.submitted ≤ eloop.submitted) (m_queue : Bool) :
    ({ s with eloop, m_queue } : service).Serves where
  last := hs.last
  mutexes := hs.mutexes
  fresh := hs.fresh
  length := hs.length
  below t ht := Nat.lt_of_lt_of_le (hs.below t ht) hsubmitted
  known t ht := by
    change (eloop.tasks t).pc ≠ .unsubmitted
    by_cases hlt : t < s.eloop.submitted
    · rw [htasks t hlt]
      exact hs.known t hlt
    · exact (hbegun t hlt).2 ht
  apart := hs.apart
  waits p t hp hrun := by
    change (eloop.tasks t).pc = .queued
    rw [htasks t (hs.below t (job_mem hp))]
    exact hs.waits p t hp hrun
  ran p t hp hrun := by
    change (eloop.tasks t).pc.begun = true
    rw [htasks t (hs.below t (job_mem hp))]
    exact hs.ran p t hp hrun
  begun t ht := by
    change (eloop.tasks t).pc.begun = true at ht
    by_cases hlt : t < s.eloop.submitted
    · rw [htasks t hlt] at ht
      exact hs.begun t ht
    · rw [(hbegun t hlt).1] at ht
      cases ht
  busy := hs.busy

/-- The queue takes a package, which may be a task of the loop that is queued. -/
theorem Serves.package (hs : s.Serves) (ha : s.tqueue.act .add_package = some tqueue)
    {j : Option Nat} (hj : ∀ t, j = some t → some t ∉ s.jobs ∧ t < s.eloop.submitted ∧
      (s.eloop.tasks t).pc = .queued) :
    ({ s with tqueue, jobs := s.jobs ++ [j] } : service).Serves := by
  obtain ⟨h1, h2, h3, h4⟩ := hs.threads ha trivial
  have hruns : tqueue.runs = s.tqueue.runs := by
    cases ha
    rfl
  have hadded : tqueue.added = s.tqueue.added + 1 := by
    cases ha
    rfl
  have hjob := job_push (s := s) (t := { s with tqueue, jobs := s.jobs ++ [j] }) rfl
  -- the new package has not been run, as the queue had not been given it
  have hnew : some s.jobs.length ∉ s.tqueue.runs := by
    intro hmem
    have hplace := hs.fresh.below _ (List.mem_append_left _ (hs.fresh.ran _ hmem))
    rw [← hs.length] at hplace
    exact absurd hplace (Nat.lt_irrefl _)
  refine ⟨h1, h2, h3, ?_, ?_, hs.known, ?_, ?_, ?_, ?_, h4⟩
  · change (s.jobs ++ [j]).length = tqueue.added
    rw [List.length_append, hs.length, hadded]
    rfl
  · intro t ht
    rcases List.mem_append.mp ht with ht | ht
    · exact hs.below t ht
    · exact (hj t (List.mem_singleton.mp ht).symm).2.1
  · intro p q t hp hq
    rw [hjob] at hp hq
    split at hp
    · rename_i hpnew
      split at hq
      · rename_i hqnew
        rw [hpnew, hqnew]
      · exact absurd (job_mem hq) (hj t hp).1
    · split at hq
      · exact absurd (job_mem hp) (hj t hq).1
      · exact hs.apart p q t hp hq
  · intro p t hp hrun
    change some p ∉ tqueue.runs at hrun
    rw [hruns] at hrun
    rw [hjob] at hp
    split at hp
    · exact (hj t hp).2.2
    · exact hs.waits p t hp hrun
  · intro p t hp hrun
    change some p ∈ tqueue.runs at hrun
    rw [hruns] at hrun
    rw [hjob] at hp
    split at hp
    · rename_i hpnew
      rw [hpnew] at hrun
      exact absurd hrun hnew
    · exact hs.ran p t hp hrun
  · intro t ht
    exact List.mem_append_left _ (hs.begun t ht)

/-- The queue's threads go on, and run no package of the loop's. -/
theorem Serves.thread_step (hs : s.Serves) (ha : s.tqueue.act a = some tqueue)
    (hadd : a ≠ .add_package) (hg : s.tqueue.runs_loaded a)
    (hrun : ∀ i, a = .process i → (s.tqueue.worker i).pc = .at_run → s.job_of i = none) :
    ({ s with tqueue } : service).Serves := by
  obtain ⟨h1, h2, h3, h4⟩ := hs.threads ha hg
  have hruns : ∀ p t, s.job p = some t → (some p ∈ tqueue.runs ↔ some p ∈ s.tqueue.runs) := by
    intro p t hp
    rcases thread.queue.act_runs ha with hsame | ⟨i, hi, hpc, hnew⟩
    · rw [hsame]
    · rw [hnew, List.mem_append, List.mem_singleton]
      refine ⟨fun hmem => hmem.resolve_right fun hcurrent => ?_, .inl⟩
      have hnone := hrun i hi hpc
      unfold job_of at hnone
      rw [← hcurrent, Option.bind_some, hp] at hnone
      cases hnone
  have hadded : tqueue.added = s.tqueue.added := by
    by_cases hcycle : a = .cycle
    · subst hcycle
      exact (thread.queue.cycle_cases ha).1
    · exact (thread.queue.Aside.act ha hcycle hadd).added
  refine ⟨h1, h2, h3, hs.length.trans hadded.symm, hs.below, hs.known, hs.apart, ?_,
    ?_, hs.begun, h4⟩
  · intro p t hp hnot
    exact hs.waits p t hp fun hmem => hnot ((hruns p t hp).mpr hmem)
  · intro p t hp hmem
    exact hs.ran p t hp ((hruns p t hp).mp hmem)

/-- A worker comes to run a task of the loop, which has not begun. -/
theorem Serves.queued (hs : s.Serves) {i t : Nat} (hpc : (s.tqueue.worker i).pc = .at_run)
    (hg : s.tqueue.runs_loaded (.process i)) (ht : s.job_of i = some t) :
    (s.eloop.tasks t).pc = .queued := by
  obtain ⟨p, hcurrent, -, hrun⟩ := hs.fresh.at_run rfl hpc hg
  unfold job_of at ht
  rw [hcurrent, Option.bind_some] at ht
  exact hs.waits p t ht hrun

theorem Serves.begins (hs : s.Serves) {i t : Nat} (ha : s.tqueue.act (.process i) = some tqueue)
    (hpc : (s.tqueue.worker i).pc = .at_run) (hg : s.tqueue.runs_loaded (.process i))
    (ht : s.job_of i = some t) :
    ({ s with tqueue, eloop := run_task t s.eloop } : service).Serves := by
  obtain ⟨h1, h2, h3, h4⟩ := hs.threads ha hg
  obtain ⟨p, hcurrent, -, hfresh⟩ := hs.fresh.at_run rfl hpc hg
  have hjob : s.job p = some t := by
    unfold job_of at ht
    rwa [hcurrent, Option.bind_some] at ht
  have hruns : tqueue.runs = s.tqueue.runs ++ [some p] := by
    obtain ⟨w, -, rfl⟩ := thread.queue.process_eq ha
    rw [hpc, hcurrent]
  have hadded : tqueue.added = s.tqueue.added :=
    (thread.queue.Aside.act ha (by simp) (by simp)).added
  have hself : ((run_task t s.eloop).tasks t).pc = .at_head := by
    change (Function.update s.eloop.tasks t _ t).pc = _
    rw [Function.update_self]
  have hother : ∀ u, u ≠ t → (run_task t s.eloop).tasks u = s.eloop.tasks u :=
    fun u hu => Function.update_of_ne hu _ _
  refine ⟨h1, h2, h3, hs.length.trans hadded.symm, hs.below, ?_, hs.apart, ?_, ?_, ?_, h4⟩
  · intro u hu
    change ((run_task t s.eloop).tasks u).pc ≠ _
    by_cases hut : u = t
    · rw [hut, hself]
      simp
    · rw [hother u hut]
      exact hs.known u hu
  · intro q u hq hnot
    change some q ∉ tqueue.runs at hnot
    rw [hruns, List.mem_append, not_or] at hnot
    have hne : u ≠ t := by
      rintro rfl
      have hsame := hs.apart q p u hq hjob
      exact hnot.2 (by rw [hsame]; exact List.mem_cons_self)
    change ((run_task t s.eloop).tasks u).pc = _
    rw [hother u hne]
    exact hs.waits q u hq hnot.1
  · intro q u hq hmem
    change some q ∈ tqueue.runs at hmem
    change ((run_task t s.eloop).tasks u).pc.begun = true
    by_cases hu : u = t
    · rw [hu, hself]
      rfl
    · rw [hother u hu]
      rw [hruns] at hmem
      rcases List.mem_append.mp hmem with hmem | hmem
      · exact hs.ran q u hq hmem
      · have hsame : q = p := by simpa using hmem
        rw [hsame] at hq
        exact absurd (Option.some.inj (hq.symm.trans hjob)) hu
  · intro u hu
    change ((run_task t s.eloop).tasks u).pc.begun = true at hu
    by_cases hut : u = t
    · rw [hut]
      exact job_mem hjob
    · rw [hother u hut] at hu
      exact hs.begun u hu

theorem Serves.runs (hs : s.Serves) {i t : Nat} {eloop : loop} (hin : s.in_task i t)
    (ha : s.eloop.cycle_events t = some eloop) : ({ s with eloop } : service).Serves := by
  obtain ⟨hother, hself, hsubmitted, -⟩ := loop.cycle_tasks ha
  obtain ⟨p, hcurrent, -, hran⟩ := hs.busy i hin.1
  have hjob : s.job p = some t := by
    have hjob := hin.2
    unfold job_of at hjob
    rwa [hcurrent, Option.bind_some] at hjob
  refine ⟨hs.last, hs.mutexes, hs.fresh, hs.length, ?_, ?_, hs.apart, ?_, ?_, ?_, hs.busy⟩
  · intro u hu
    rw [hsubmitted]
    exact hs.below u hu
  · intro u hu
    change (eloop.tasks u).pc ≠ _
    by_cases hut : u = t
    · rintro hpc
      rw [hut] at hpc
      rw [hpc] at hself
      cases hself
    · rw [hother u hut]
      exact hs.known u (hsubmitted ▸ hu)
  · intro q u hq hnot
    have hne : u ≠ t := by
      rintro rfl
      rw [hs.apart q p u hq hjob] at hnot
      exact hnot hran
    change (eloop.tasks u).pc = _
    rw [hother u hne]
    exact hs.waits q u hq hnot
  · intro q u hq hmem
    change (eloop.tasks u).pc.begun = true
    by_cases hu : u = t
    · rwa [hu]
    · rw [hother u hu]
      exact hs.ran q u hq hmem
  · intro u hu
    change (eloop.tasks u).pc.begun = true at hu
    by_cases hut : u = t
    · rw [hut]
      exact job_mem hjob
    · rw [hother u hut] at hu
      exact hs.begun u hu

end

/-! ## The runs -/

/-- The steps of the callers and of the tasks are steps of the loop, and so is a task's begin. -/
theorem Moved.seen {s t : service} {a : action} (h : Moved s a t) (hs : s.Serves)
    (hreach : transition.Reachable loop.loops s.eloop)
    (hg : s.threads thread.queue.runs_loaded a) :
    t.Serves ∧ (t.eloop = s.eloop ∨ ∃ b, loop.loops.step s.eloop b t.eloop) := by
  obtain ⟨-, -, -, done, nodes, hholds⟩ := loop.reachable_holds hreach
  have hunsubmitted (u : Nat) (hu : ¬ u < s.eloop.submitted) :
      (s.eloop.tasks u).pc.begun = false := by
    rw [hholds.unsubmitted u (Nat.le_of_not_lt hu)]
    rfl
  have hsame (u : Nat) (hu : ¬ u < s.eloop.submitted) : (s.eloop.tasks u).pc.begun = false ∧
      (u < s.eloop.submitted → (s.eloop.tasks u).pc ≠ .unsubmitted) :=
    ⟨hunsubmitted u hu, fun hlt => absurd hlt hu⟩
  have hadds (c : caller) (hc : s.eloop.add c = .at_task true) :
      s.eloop.act (.add_event c) = some (s.eloop.add_task.set_add c .idle) := by
    simp only [loop.act, loop.add_event, hc]
    rfl
  have hkept (c : caller) (u : Nat) (hu : u < s.eloop.submitted) :
      (s.eloop.add_task.set_add c .idle).tasks u = s.eloop.tasks u :=
    Function.update_of_ne (Nat.ne_of_lt hu) _ _
  have hself (c : caller) :
      (s.eloop.add_task.set_add c .idle).tasks s.eloop.submitted =
        { pc := .queued, reset := false } :=
    Function.update_self _ _ _
  have hnew (c : caller) (u : Nat) (hu : ¬ u < s.eloop.submitted) :
      ((s.eloop.add_task.set_add c .idle).tasks u).pc.begun = false ∧
        (u < s.eloop.submitted + 1 →
          ((s.eloop.add_task.set_add c .idle).tasks u).pc ≠ .unsubmitted) := by
    by_cases heq : u = s.eloop.submitted
    · rw [heq, hself]
      exact ⟨rfl, by simp⟩
    · have hold : (s.eloop.add_task.set_add c .idle).tasks u = s.eloop.tasks u :=
        Function.update_of_ne heq _ _
      rw [hold]
      exact ⟨hunsubmitted u hu, fun hlt => by omega⟩
  cases h with
  | wired =>
    exact ⟨hs.loop_step (fun _ _ => rfl) hsame (Nat.le_refl _) true, .inl rfl⟩
  | called ha _ htasks hsubmitted =>
    refine ⟨hs.loop_step (fun u _ => by rw [htasks]) (fun u hu => ?_)
      (Nat.le_of_eq hsubmitted.symm) _,
      .inr ⟨_, ha⟩⟩
    rw [htasks, hsubmitted]
    exact hsame u hu
  | @dropped c hc _ =>
    exact ⟨hs.loop_step (hkept c) (hnew c) (Nat.le_succ _) _, .inr ⟨_, hadds c hc⟩⟩
  | @added c tqueue hc _ ha =>
    have hloop := hs.loop_step (hkept c) (hnew c) (Nat.le_succ _) s.m_queue
    refine ⟨hloop.package ha fun u hu => ?_, .inr ⟨_, hadds c hc⟩⟩
    cases hu
    refine ⟨fun hmem => absurd (hs.below _ hmem) (Nat.lt_irrefl _), Nat.lt_succ_self _, ?_⟩
    change ((s.eloop.add_task.set_add c .idle).tasks s.eloop.submitted).pc = _
    rw [hself]
  | other ha => exact ⟨hs.package ha (fun u hu => by cases hu), .inl rfl⟩
  | thread ha hadd hrun _ => exact ⟨hs.thread_step ha hadd hg hrun, .inl rfl⟩
  | @begins i u tqueue ha hpc hu =>
    refine ⟨hs.begins ha hpc hg hu, .inr ⟨.cycle_events u, ?_⟩⟩
    have hqueued := hs.queued hpc hg hu
    have hreset := hholds.not_reset (u := u) (by rw [hqueued]; rfl)
    change s.eloop.cycle_events u = some (run_task u s.eloop)
    simp only [loop.cycle_events, hqueued, loop.set_task, run_task, hreset]
  | @runs i u eloop hin ha => exact ⟨hs.runs hin ha, .inr ⟨.cycle_events u, ha⟩⟩

theorem reachable_serves {m_queue : Bool} {s : service}
    (h : transition.Reachable ((services m_queue).guarded (threads thread.queue.runs_loaded)) s) :
    s.Serves ∧ transition.Reachable loop.loops s.eloop := by
  refine h.seen eloop ?_ ?_
  · rintro s ⟨m, size, rfl⟩
    exact ⟨serves_new m size m_queue, m, rfl⟩
  · rintro s a t hs hreach ⟨hg, ha⟩
    exact (moved ha).seen hs hreach hg

/-- Each task is that of one worker. -/
theorem Serves.in_task_unique {s : service} (hs : s.Serves) {i j t : Nat} (hi : s.in_task i t)
    (hj : s.in_task j t) : i = j := by
  obtain ⟨p, hp, hpi, -⟩ := hs.busy i hi.1
  obtain ⟨q, hq, hqj, -⟩ := hs.busy j hj.1
  have hjobp := hi.2
  have hjobq := hj.2
  unfold job_of at hjobp hjobq
  rw [hp, Option.bind_some] at hjobp
  rw [hq, Option.bind_some] at hjobq
  obtain rfl := hs.apart p q t hjobp hjobq
  exact hs.fresh.worker_eq hpi hqj

/-- In the runs in which a worker only comes to run a package with one loaded, the loop goes
the ways of a loop whose tasks have threads of their own, and follows no null pointer and no
node that is deleted. Each of its tasks is one package, which has been run just when the
task has begun, and two workers are never in its listeners at once. -/
theorem the_queue_serves_the_loop {m_queue : Bool} {s : service}
    (h : transition.Reachable ((services m_queue).guarded (threads thread.queue.runs_loaded)) s) :
    transition.Reachable loop.loops s.eloop ∧
    ((∀ c, s.eloop.add c ≠ .undefined) ∧ ∀ t, (s.eloop.tasks t).pc ≠ .undefined) ∧
    (∀ p q t, s.job p = some t → s.job q = some t → p = q) ∧
    (∀ p t, s.job p = some t → ((s.eloop.tasks t).pc.begun = true ↔ some p ∈ s.tqueue.runs)) ∧
    (∀ t, (s.eloop.tasks t).pc.begun = true → ∃ p, s.job p = some t) ∧
    ∀ i j t u, s.in_task i t → s.in_task j u → (s.eloop.tasks t).pc.delivers = true →
      (s.eloop.tasks u).pc.delivers = true → i = j ∧ t = u := by
  obtain ⟨hs, hreach⟩ := reachable_serves h
  obtain ⟨-, -, hdefined, done, nodes, hholds⟩ := loop.reachable_holds hreach
  refine ⟨hreach, ⟨hdefined, fun t ht => ?_⟩, hs.apart, fun p t hp =>
    ⟨fun hbegun => ?_, hs.ran p t hp⟩,
    fun t ht => job_of_mem (hs.begun t ht), fun i j t u hi hj ht hu => ?_⟩
  · have hreset := hholds.not_reset (u := t) (by rw [ht]; rfl)
    obtain ⟨a, m, rest, -, -, hfirst, -⟩ :=
      hholds.waiting_of hreset (by rw [ht]; rfl) (by rw [ht]; rfl)
    rw [ht] at hfirst
    exact hfirst
  · by_contra hrun
    rw [hs.waits p t hp hrun] at hbegun
    cases hbegun
  · obtain ⟨job, hjob, -⟩ := hholds.turn.job
    obtain rfl := hjob.holder_eq (hholds.outstanding_of_delivers ht)
    cases hjob.eq (hholds.outstanding_of_delivers hu)
    exact ⟨hs.in_task_unique hi hj, rfl⟩

/-- A worker is started, a producer adds an event, and the worker comes to its listener. -/
def serve_one : List action :=
  List.flatten [
    thread.queue.start_one.map .thread,
    [.caller (.call (.producer 0) (some 7))],
    List.replicate 2 (.caller (.add_event (.producer 0))),
    [.caller (.new_item (.producer 0) 100)],
    List.replicate 7 (.caller (.add_event (.producer 0))),
    [.thread .notify],
    List.replicate 13 (.thread .cycle),
    List.replicate 3 (.thread (.process 0)),
    List.replicate 3 (.cycle_events 0)]

theorem a_worker_serves_the_loop :
    ∃ s : service, (s.in_task 0 0 ∧ s.eloop.calls.length = 1) ∧
      transition.Reachable loop.loops s.eloop := by
  have hrun :
    (serve_one.foldlM (fun s a => if threads thread.queue.runs_loaded s a then s.act a else none)
      (new [(7, [0])] 1 true)).any (fun s => decide ((s.tqueue.worker 0).pc = .busy ∧
        s.job_of 0 = some 0 ∧ s.eloop.calls.length = 1)) = true := by
    decide +kernel
  obtain ⟨s, hs, hpc, hjob, hcalls⟩ := reachable_guarded [(7, [0])] 1 true serve_one hrun
  exact ⟨s, ⟨⟨hpc, hjob⟩, hcalls⟩, (the_queue_serves_the_loop hs).1⟩

end service

end strangeio.event
