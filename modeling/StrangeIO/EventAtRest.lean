-- When the events of a loop on the work queue are delivered (events/loop.cpp,
-- threads/queue.cpp, threads/worker.cpp): a task is not over before its package is, so where
-- nothing is left to do all that was accepted has been delivered, and until then one of the
-- threads can go on.
import StrangeIO.EventUnserved

namespace strangeio.event

open thread (pkg)

namespace service

/-! ## Tasks that are run to their end -/

/-- The loop has had its queue from the start, and each task is a package, which is not over
before the task is. -/
structure Finishes (s : service) : Prop where
  queue : s.m_queue = true
  jobs : ∀ t < s.eloop.submitted, some t ∈ s.jobs
  ends : ∀ p t, s.job p = some t → some p ∈ s.tqueue.runs →
    (s.eloop.tasks t).pc = .finished ∨ ∃ i, s.in_task i t

theorem finishes_new (m : listener_map) (size : Nat) : (new m size true).Finishes where
  queue := rfl
  jobs t ht := absurd ht (Nat.not_lt_zero t)
  ends p t hp := by cases hp

/-- A worker that is in a task keeps to it until it goes on itself. -/
theorem in_task_stays {s : service} {tqueue : thread.queue} {a : thread.queue.action} {i t : Nat}
    (hs : s.Serves) (hgoing : s.tqueue.Going) (ha : s.tqueue.act a = some tqueue)
    (hprocess : a ≠ .process i) (hin : s.in_task i t) :
    ({ s with tqueue } : service).in_task i t := by
  obtain ⟨p, -, hhanded, -⟩ := hs.busy i hin.1
  have hc := hgoing.kept.started (List.ne_nil_of_mem hhanded)
  obtain ⟨hpc, hcurrent⟩ := thread.queue.act_stays_busy hgoing.mutexes ha hin.1 hprocess hc
  refine ⟨hpc, ?_⟩
  have hjob := hin.2
  unfold job_of job at hjob ⊢
  rwa [hcurrent]

theorem Finishes.pushed {s : service} (h : s.Finishes) (hs : s.Serves) {tqueue : thread.queue}
    (ha : s.tqueue.act .add_package = some tqueue) (eloop : loop)
    (htasks : ∀ t < s.eloop.submitted, eloop.tasks t = s.eloop.tasks t) {j : Option Nat}
    (hsubmitted : ∀ t < eloop.submitted, t < s.eloop.submitted ∨ j = some t) :
    ({ s with eloop, tqueue, jobs := s.jobs ++ [j] } : service).Finishes := by
  have hjob := job_push (s := s) (t := { s with eloop, tqueue, jobs := s.jobs ++ [j] }) rfl
  cases ha
  refine ⟨h.queue, fun t ht => ?_, fun p t hp hrun => ?_⟩
  · rcases hsubmitted t ht with hold | rfl
    · exact List.mem_append_left _ (h.jobs t hold)
    · exact List.mem_append_right _ List.mem_cons_self
  · rw [hjob] at hp
    split at hp
    · -- the package that is added has not been run
      rename_i hlast
      have hplace := hs.fresh.below _ (List.mem_append_left _ (hs.fresh.ran _ hrun))
      rw [hlast, hs.length] at hplace
      exact absurd hplace (Nat.lt_irrefl _)
    · have ht := hs.below t (job_mem hp)
      rcases h.ends p t hp hrun with hend | ⟨i, hpc, hi⟩
      · left
        change (eloop.tasks t).pc = .finished
        rw [htasks t ht, hend]
      · refine .inr ⟨i, hpc, ?_⟩
        obtain ⟨q, hq, hqt⟩ := Option.bind_eq_some_iff.mp hi
        refine Option.bind_eq_some_iff.mpr ⟨q, hq, ?_⟩
        rw [hjob, if_neg (Nat.ne_of_lt (job_lt hqt))]
        exact hqt

theorem Moved.finishes {s s' : service} {a : action} (h : Moved s a s') (hf : s.Finishes)
    (hs : s.Serves) (hgoing : s.tqueue.Going) (hg : s.threads thread.queue.undisturbed a) :
    s'.Finishes := by
  have hkept (c : caller) (u : Nat) (hu : u < s.eloop.submitted) :
      (s.eloop.add_task.set_add c .idle).tasks u = s.eloop.tasks u :=
    Function.update_of_ne (Nat.ne_of_lt hu) _ _
  cases h with
  | wired => exact ⟨rfl, hf.jobs, hf.ends⟩
  | called _ _ htasks hsubmitted =>
    refine ⟨hf.queue, fun t ht => hf.jobs t (hsubmitted ▸ ht), fun p t hp hrun => ?_⟩
    rcases hf.ends p t hp hrun with hend | hin
    · left
      rw [htasks, hend]
    · exact .inr hin
  | dropped _ hqueue =>
    rw [hf.queue] at hqueue
    cases hqueue
  | @added c _ _ _ ha =>
    refine hf.pushed hs ha _ (hkept c) fun t ht => ?_
    rcases Nat.lt_succ_iff_lt_or_eq.mp ht with hlt | rfl
    · exact .inl hlt
    · exact .inr rfl
  | other ha => exact hf.pushed hs ha _ (fun _ _ => rfl) fun t ht => .inl ht
  | @thread a tqueue ha hadd hrun hreturn =>
    refine ⟨hf.queue, hf.jobs, fun p t hp hmem => ?_⟩
    have hran : some p ∈ s.tqueue.runs := by
      rcases thread.queue.act_runs ha with hsame | ⟨i, hi, hpc, hnew⟩
      · exact hsame ▸ hmem
      · rw [hnew, List.mem_append, List.mem_singleton] at hmem
        refine hmem.resolve_right fun hcurrent => ?_
        have hnone := hrun i hi hpc
        unfold job_of at hnone
        rw [← hcurrent, Option.bind_some] at hnone
        cases hnone.symm.trans hp
    rcases hf.ends p t hp hran with hend | ⟨i, hin⟩
    · exact .inl hend
    · by_cases hprocess : a = .process i
      · exact .inl (hreturn i t hprocess hin)
      · exact .inr ⟨i, in_task_stays hs hgoing ha hprocess hin⟩
  | @begins i u tqueue ha hpc hu =>
    obtain ⟨p, hcurrent, hpu⟩ := Option.bind_eq_some_iff.mp hu
    obtain ⟨hbusy, hsame, hruns⟩ := thread.queue.process_begins_run ha hpc (by simp [hcurrent])
    refine ⟨hf.queue, hf.jobs, fun q t hq hmem => ?_⟩
    change some q ∈ tqueue.runs at hmem
    by_cases htu : t = u
    · subst htu
      refine .inr ⟨i, hbusy, ?_⟩
      unfold job_of at hu ⊢
      rwa [hsame]
    · have hran : some q ∈ s.tqueue.runs := by
        rw [hruns, List.mem_append, List.mem_singleton, hcurrent] at hmem
        refine hmem.resolve_right fun heq => ?_
        cases heq
        exact htu (Option.some.inj (hq.symm.trans hpu))
      rcases hf.ends q t hq hran with hend | ⟨j, hin⟩
      · left
        change (Function.update s.eloop.tasks u _ t).pc = _
        rw [Function.update_of_ne htu, hend]
      · refine .inr ⟨j, in_task_stays hs hgoing ha ?_ hin⟩
        rintro hij
        cases hij
        have hpcj := hin.1
        rw [hpc] at hpcj
        cases hpcj
  | @runs i u eloop hin ha =>
    obtain ⟨hother, -, hsubmitted, -⟩ := loop.cycle_tasks ha
    refine ⟨hf.queue, fun t ht => hf.jobs t (hsubmitted ▸ ht), fun q t hq hmem => ?_⟩
    by_cases htu : t = u
    · subst htu
      exact .inr ⟨i, hin⟩
    · rcases hf.ends q t hq hmem with hend | hin'
      · left
        change (eloop.tasks t).pc = _
        rw [hother t htu, hend]
      · exact .inr hin'

/-! ## The runs -/

/-- The queue under a loop goes the ways of a queue. -/
theorem Moved.queue {s s' : service} {a : action} {G : thread.queue → thread.queue.action → Prop}
    (h : Moved s a s') (hadd : ∀ q, G q .add_package) (hg : s.threads G a) :
    s'.tqueue = s.tqueue ∨ ∃ b, G s.tqueue b ∧ s.tqueue.act b = some s'.tqueue := by
  cases h with
  | added _ _ ha => exact .inr ⟨.add_package, hadd _, ha⟩
  | other ha => exact .inr ⟨.add_package, hadd _, ha⟩
  | thread ha _ _ _ => exact .inr ⟨_, hg, ha⟩
  | begins ha _ _ => exact .inr ⟨_, hg, ha⟩
  | _ => exact .inl rfl

theorem reachable_queue {m_queue : Bool} {s : service}
    {G : thread.queue → thread.queue.action → Prop}
    (hadd : ∀ q, G q .add_package)
    (h : transition.Reachable ((services m_queue).guarded (threads G)) s) :
    transition.Reachable (thread.queues.guarded G) s.tqueue := by
  have hseen : True ∧ transition.Reachable (thread.queues.guarded G) s.tqueue := by
    refine h.seen (P := fun _ => True) tqueue ?_ ?_
    · rintro s ⟨m, size, rfl⟩
      exact ⟨trivial, size, rfl⟩
    · rintro s a t - - ⟨hg, ha⟩
      exact ⟨trivial, (moved ha).queue hadd hg⟩
  exact hseen.2

theorem threads_mono {G H : thread.queue → thread.queue.action → Prop}
    (hGH : ∀ q b, G q b → H q b) (s : service) (a : action) (h : s.threads G a) :
    s.threads H a := by
  cases a with
  | thread b => exact hGH _ _ h
  | _ => trivial

theorem reachable_finishes {s : service}
    (h : transition.Reachable ((services true).guarded (threads thread.queue.undisturbed)) s) :
    s.Finishes ∧ s.Serves ∧ s.tqueue.Going ∧ transition.Reachable loop.loops s.eloop := by
  have hserves {s : service}
      (h : transition.Reachable ((services true).guarded (threads thread.queue.undisturbed)) s) :
      s.Serves ∧ transition.Reachable loop.loops s.eloop :=
    reachable_serves (h.guarded_mono (threads_mono fun _ _ hg => hg.2))
  have hgoing {s : service}
      (h : transition.Reachable ((services true).guarded (threads thread.queue.undisturbed)) s) :
      s.tqueue.Going :=
    thread.queue.reachable_going (reachable_queue (fun _ => ⟨by simp, trivial⟩) h)
  have hfinishes :
    transition.Reachable ((services true).guarded (threads thread.queue.undisturbed)) s ∧
      s.Finishes := by
    refine h.keeps (P := fun s =>
      transition.Reachable ((services true).guarded (threads thread.queue.undisturbed)) s ∧
        s.Finishes) ?_ ?_
    · rintro s ⟨m, size, rfl⟩
      exact ⟨⟨_, [], ⟨m, size, rfl⟩, .nil _⟩, finishes_new m size⟩
    · rintro s a t ⟨hs, hf⟩ hstep
      exact ⟨hs.step a hstep, (moved hstep.2).finishes hf (hserves hs).1 (hgoing hs) hstep.1⟩
  exact ⟨hfinishes.2, (hserves h).1, hgoing h, (hserves h).2⟩

/-! ## Nothing left to do -/

/-- No call of `add_event` is made, and the queue has no package, nor a worker one to run or
that it runs. -/
def at_rest (s : service) : Prop :=
  (∀ c, s.eloop.add c = .idle) ∧ ¬ s.tqueue.work ∧
    ∀ i < s.tqueue.m_size, ¬ s.tqueue.due i ∧ (s.tqueue.worker i).pc ≠ .busy

/-- A task that has begun and not finished is in a worker. -/
theorem Finishes.in_task {s : service} (h : s.Finishes) (hs : s.Serves) {t : Nat}
    (hbegun : (s.eloop.tasks t).pc.begun = true) (hend : (s.eloop.tasks t).pc ≠ .finished) :
    ∃ i, s.in_task i t := by
  obtain ⟨p, hp⟩ := job_of_mem (hs.begun t hbegun)
  have hran : some p ∈ s.tqueue.runs := by
    by_contra hrun
    rw [hs.waits p t hp hrun] at hbegun
    cases hbegun
  exact (h.ends p t hp hran).resolve_left hend

theorem Finishes.at_rest {s : service} (h : s.Finishes) (hs : s.Serves) (hgoing : s.tqueue.Going)
    (hrest : s.at_rest) (t : Nat) (ht : t < s.eloop.submitted) :
    (s.eloop.tasks t).pc = .finished := by
  obtain ⟨-, hwork, hworkers⟩ := hrest
  obtain ⟨p, hp⟩ := job_of_mem (h.jobs t ht)
  -- every package that was added has been handed over, and then run
  have hhanded : p ∈ s.tqueue.handed.map Prod.fst := by
    have hmem : p ∈ List.range s.tqueue.added := List.mem_range.mpr (hs.length ▸ job_lt hp)
    unfold thread.queue.work at hwork
    push Not at hwork
    rw [← hgoing.ordered, thread.queue.places, hwork.1, hwork.2] at hmem
    simpa using hmem
  obtain ⟨e, he, rfl⟩ := List.mem_map.mp hhanded
  obtain ⟨hlt, hran | hexpects⟩ := hgoing.kept.handed e he
  · rcases h.ends e.1 t hp hran with hend | ⟨i, hin⟩
    · exact hend
    · obtain ⟨q, -, hqi, -⟩ := hs.busy i hin.1
      exact absurd hin.1 (hworkers i (hgoing.kept.handed _ hqi).1).2
  · exact absurd hexpects.1 (hworkers e.2 hlt).1

end service

/-- Where no call is made and no task is to go on, everything has been delivered. -/
theorem loop.Holds.all_delivered {s : loop} {done : List msg} {nodes : List (addr × msg)}
    (hs : s.Holds done nodes) (hnamed : s.Named) (hacc : s.Accounted) (hidle : ∀ c, s.add c = .idle)
    (hend : ∀ t < s.submitted, (s.tasks t).pc = .finished) :
    s.m_tail_ptr = none ∧
      (∀ type i, i < s.listeners type → s.delivered_to type i = s.linked_of type) ∧
      ∀ m ∈ s.accepted, ∀ i < s.listeners m.type, s.calls.count (m, i) = 1 := by
  have hnobody (x : party) : s.outstanding x = false := by
    cases x with
    | add c => simp [loop.outstanding, loop.look, hidle c, add_pc.due]
    | task t =>
      by_cases ht : t < s.submitted
      · simp [loop.outstanding, loop.look, task.pending, hend t ht, cycle_pc.active]
      · simp [loop.outstanding, loop.look, task.pending, hs.unsubmitted t (Nat.le_of_not_lt ht),
          cycle_pc.active]
  have hptr : s.m_tail_ptr = none := by
    obtain ⟨job, hjob, hempty⟩ := hs.turn.job
    refine hs.ptr_eq_none.mpr (hempty.mp ?_)
    cases job with
    | none => rfl
    | some x =>
      have hx := hjob.has_self
      rw [hnobody x] at hx
      cases hx
  have hall := hs.calls_of_empty hptr
  refine ⟨hptr, fun type i hi => ?_, fun m hm i hi => ?_⟩
  · unfold loop.delivered_to loop.linked_of
    rw [hall]
    exact loop.filter_deliveries _ hi
  · have hin : m ∈ s.linked := by
      rcases hacc m hm with hin | ⟨c, -, hc⟩
      · exact hin
      · simp [loop.accepting, hidle c] at hc
    rw [hall]
    exact List.count_eq_one_of_mem (loop.nodup_deliveries hnamed.apart.nodup.of_map)
      (loop.mem_deliveries.mpr ⟨hin, hi⟩)

namespace service

/-- In the runs in which the loop has its queue, which is not disturbed: where the calls of
`add_event` have returned and the queue has nothing left to run, the list is empty, and each
event that was accepted has been delivered once to each of its listeners, in the order in
which they were linked in. -/
theorem nothing_is_left_at_rest {s : service}
    (h : transition.Reachable ((services true).guarded (threads thread.queue.undisturbed)) s)
    (hrest : s.at_rest) :
    s.eloop.m_tail_ptr = none ∧
      (∀ type i, i < s.eloop.listeners type → s.eloop.delivered_to type i =
        s.eloop.linked_of type) ∧
      ∀ m ∈ s.eloop.accepted, ∀ i < s.eloop.listeners m.type, s.eloop.calls.count (m, i) = 1 := by
  obtain ⟨hf, hs, hgoing, hreach⟩ := reachable_finishes h
  obtain ⟨hnamed, hacc, -, done, nodes, hholds⟩ := loop.reachable_holds hreach
  exact hholds.all_delivered hnamed hacc hrest.1 (hf.at_rest hs hgoing hrest)

/-- A party that makes no call is in none. -/
theorem Moved.idle {s s' : service} {a : action} (h : Moved s a s') {c : caller}
    (hcall : ∀ type, a ≠ .caller (.call c type)) (hidle : s.eloop.add c = .idle) :
    s'.eloop.add c = .idle := by
  have hset (d : caller) : (s.eloop.add_task.set_add d .idle).add c = .idle := by
    change Function.update s.eloop.add d .idle c = _
    by_cases hc : c = d
    · rw [hc, Function.update_self]
    · rw [Function.update_of_ne hc, hidle]
  cases h with
  | @called a eloop ha hcycle _ _ =>
    cases a with
    | cycle_events u => exact absurd rfl (hcycle u)
    | add_event d =>
      have hc : c ≠ d := by
        rintro rfl
        simp only [loop.act, loop.add_event, hidle] at ha
        cases ha
      exact (loop.add_other ha c hc).trans hidle
    | new_item d item =>
      have hc : c ≠ d := by
        rintro rfl
        simp only [loop.act, loop.new_item, hidle] at ha
        cases ha
      simp only [loop.act, loop.new_item] at ha
      split at ha
      · split at ha
        · cases ha
          exact (Function.update_of_ne hc _ _).trans hidle
        · cases ha
      · cases ha
    | call d type =>
      have hc : c ≠ d := by
        rintro rfl
        exact hcall type rfl
      simp only [loop.act] at ha
      split at ha
      · cases ha
        exact (Function.update_of_ne hc _ _).trans hidle
      · cases ha
  | dropped _ _ => exact hset _
  | added _ _ _ => exact hset _
  | runs _ ha => exact (congrFun (loop.cycle_tasks ha).2.2.2 c).trans hidle
  | _ => exact hidle

/-- One producer adds an event, which the worker delivers before it waits again. -/
def serve_all : List action :=
  serve_one ++ List.replicate 12 (.cycle_events 0) ++ List.replicate 2 (.thread (.process 0))

/-- Nobody else calls. -/
def one_producer : action → Prop
  | .caller (.call c _) => c = .producer 0
  | _ => True

instance (a : action) : Decidable (one_producer a) :=
  match a with
  | .caller (.call c _) => inferInstanceAs (Decidable (c = _))
  | .caller (.new_item _ _) | .caller (.add_event _) | .caller (.cycle_events _)
    | .set_queue_utility
  | .thread _ | .cycle_events _ => inferInstanceAs (Decidable True)

theorem a_served_loop_is_at_rest :
    ∃ s : service, (s.at_rest ∧ s.eloop.accepted.length = 1 ∧ s.eloop.listeners 7 = 1) ∧
      s.eloop.delivered_to 7 0 = s.eloop.linked_of 7 := by
  have hrun : (serve_all.foldlM
      (fun s a => if threads thread.queue.undisturbed s a ∧ one_producer a then s.act a else none)
      (new [(7, [0])] 1 true)).any (fun s => decide (s.eloop.add (.producer 0) = .idle ∧
        (s.tqueue.m_pump.m_queue = [] ∧ s.tqueue.hand = none ∧ s.tqueue.m_size = 1) ∧
        (¬ s.tqueue.due 0 ∧ (s.tqueue.worker 0).pc ≠ .busy) ∧
        s.eloop.accepted.length = 1 ∧ s.eloop.listeners 7 = 1)) = true := by
    decide +kernel
  obtain ⟨s, hs, hproducer, ⟨hpump, hhand, hsize⟩, hworker, haccepted, hlisteners⟩ :=
    reachable_guarded (G := fun s a => threads thread.queue.undisturbed s a ∧ one_producer a)
      [(7, [0])] 1 true serve_all hrun
  have hidle : ∀ c, c ≠ .producer 0 → s.eloop.add c = .idle := by
    refine hs.keeps (P := fun s => ∀ c, c ≠ .producer 0 → s.eloop.add c = .idle) ?_ ?_
    · rintro s ⟨m, size, rfl⟩ c -
      rfl
    · rintro s a t hidle ⟨⟨-, hone⟩, ha⟩ c hc
      refine (moved ha).idle (fun type => ?_) (hidle c hc)
      rintro rfl
      exact hc hone
  have hrest : s.at_rest := by
    refine ⟨fun c => ?_, fun hwork => ?_, fun i hi => ?_⟩
    · by_cases hc : c = .producer 0
      · rw [hc, hproducer]
      · exact hidle c hc
    · rcases hwork with hwork | hwork
      · exact hwork hpump
      · exact hwork hhand
    · obtain rfl : i = 0 := by omega
      exact hworker
  have hdelivered := (nothing_is_left_at_rest (hs.guarded_mono fun _ _ hg => hg.1) hrest).2.1 7 0
  exact ⟨s, ⟨hrest, haccepted, hlisteners⟩, hdelivered (by omega)⟩

end service

end strangeio.event

/-! ## Threads that can go on -/

namespace strangeio.event

namespace loop

variable {s t : loop}

/-- A call goes on, but for one that has its node to make or comes to a mutex that is held. -/
theorem add_goes_on {c : caller} (hidle : s.add c ≠ .idle) (hdefined : s.add c ≠ .undefined)
    (hnew : ∀ message, s.add c ≠ .at_new message)
    (hlock : ∀ item, s.add c = .at_lock item → s.m_tail_mutex = none) : s.add_event c ≠ none := by
  unfold loop.add_event
  cases hpc : s.add c with
  | idle => exact absurd hpc hidle
  | undefined => exact absurd hpc hdefined
  | at_new message => exact absurd hpc (hnew message)
  | at_lock item => simp [hlock item hpc]
  | entered message => cases message <;> simp
  | at_listeners message =>
    simp only
    split <;> simp
  | set_next item =>
    simp only
    split
    · simp
    · split <;> simp
  | _ => simp

theorem of_locks {pc : cycle_pc} (h : pc.locks = true) :
    pc.begun = true ∧ pc ≠ .finished ∧ pc.delivers = false := by
  revert h
  cases pc <;> simp [cycle_pc.locks, cycle_pc.begun, cycle_pc.delivers]

/-- A task goes on, but for one that comes to a mutex that is held, or is in a listener that
makes a call. -/
theorem cycle_goes_on {u : Nat} (hbegun : (s.tasks u).pc.begun = true)
    (hend : (s.tasks u).pc ≠ .finished) (hdefined : (s.tasks u).pc ≠ .undefined)
    (hlock : (s.tasks u).pc.locks = false → s.m_tail_mutex = none)
    (hinside : (s.tasks u).pc.delivers = true → s.add (.listener u) = .idle) :
    s.cycle_events u ≠ none := by
  unfold loop.cycle_events
  cases hpc : (s.tasks u).pc with
  | unsubmitted | queued =>
    rw [hpc] at hbegun
    cases hbegun
  | finished => exact absurd hpc hend
  | undefined => exact absurd hpc hdefined
  | at_loop node =>
    cases node with
    | none => simp
    | some node =>
      simp only
      split <;> simp
  | calling node sptr i =>
    simp only
    split <;> simp
  | inside node sptr i => simp [hinside (by rw [hpc]; rfl)]
  | at_lock node sptr => simp [hlock (by rw [hpc]; rfl)]
  | at_next node sptr =>
    simp only
    split <;> simp
  | _ => simp

/-- A step changes one place in memory at most. -/
theorem act_heap {a : action} (ht : s.act a = some t) :
    t.heap = s.heap ∨ ∃ b node, t.heap = Function.update s.heap b node := by
  cases a with
  | call c type =>
    simp only [loop.act] at ht
    split at ht
    · cases ht
      exact .inl rfl
    · cases ht
  | new_item c item =>
    simp only [loop.act, loop.new_item] at ht
    split at ht
    · split at ht
      · cases ht
        exact .inr ⟨_, _, rfl⟩
      · cases ht
    · cases ht
  | add_event c =>
    cases hpc : s.add c <;> simp only [loop.act, loop.add_event, hpc] at ht
    case entered message =>
      cases message
      · cases ht
        exact .inl rfl
      · cases ht
        exact .inl rfl
    case at_task retask =>
      cases ht
      cases retask
      · exact .inl rfl
      · exact .inl rfl
    case set_next item =>
      split at ht
      · cases ht
        exact .inl rfl
      · split at ht
        · cases ht
          exact .inl rfl
        · cases ht
          exact .inr ⟨_, _, rfl⟩
    all_goals
      first
      | cases ht; exact .inl rfl
      | split at ht <;> first | (cases ht; exact .inl rfl) | cases ht
      | cases ht
  | cycle_events u =>
    cases hpc : (s.tasks u).pc <;> simp only [loop.act, loop.cycle_events, hpc] at ht
    case at_loop node =>
      cases node with
      | none =>
        cases ht
        exact .inl rfl
      | some node =>
        simp only at ht
        split at ht
        · cases ht
          exact .inr ⟨_, _, rfl⟩
        · cases ht
          exact .inl rfl
    case at_delete node next =>
      cases ht
      exact .inr ⟨_, _, rfl⟩
    all_goals
      first
      | cases ht; exact .inl rfl
      | split at ht <;> first | (cases ht; exact .inl rfl) | cases ht
      | cases ht

/-- There is always room for a node. -/
theorem reachable_room (h : transition.Reachable loops s) :
    ∃ bound, ∀ a, bound ≤ a → s.heap a = none := by
  refine h.keeps (P := fun s => ∃ bound, ∀ a, bound ≤ a → s.heap a = none) ?_ ?_
  · rintro s ⟨m, rfl⟩
    exact ⟨0, fun _ _ => rfl⟩
  · rintro s a t ⟨bound, hbound⟩ ht
    rcases act_heap ht with hsame | ⟨b, node, hnew⟩
    · exact ⟨bound, by rwa [hsame]⟩
    · refine ⟨max bound (b + 1), fun c hc => ?_⟩
      have hlater : b < c := Nat.lt_of_lt_of_le (Nat.lt_succ_self b)
        (Nat.le_trans (Nat.le_max_right _ _) hc)
      rw [hnew, Function.update_of_ne (Nat.ne_of_gt hlater)]
      exact hbound c (Nat.le_trans (Nat.le_max_left _ _) hc)

end loop

namespace service

/-- A step of a call, of a task in a worker, or of the queue's own threads. -/
def action.own : action → Bool
  | .caller (.add_event _) | .caller (.new_item _ _) | .cycle_events _ => true
  | .thread a => a.own
  | _ => false

section
variable {s : service}

theorem add_event_goes_on {c : caller} (h : s.eloop.add_event c ≠ none) :
    s.act (.caller (.add_event c)) ≠ none := by
  obtain ⟨eloop, ha⟩ := Option.ne_none_iff_exists'.mp h
  change s.add_event c ≠ none
  unfold service.add_event
  rw [ha, Option.bind_eq_bind, Option.bind_some]
  split <;> simp [add_package, thread.queue.act]

theorem in_task_goes_on {i t : Nat} (hin : s.in_task i t) (h : s.eloop.cycle_events t ≠ none) :
    s.act (.cycle_events i) ≠ none := by
  obtain ⟨eloop, ha⟩ := Option.ne_none_iff_exists'.mp h
  change s.cycle_events i ≠ none
  unfold service.cycle_events
  rw [if_pos hin.1, hin.2]
  simp [ha]

/-- The threads of the queue go on as they do without the loop, but for a worker that is in a
task that is not finished. -/
theorem thread_goes_on {a : thread.queue.action} (h : s.tqueue.act a ≠ none)
    (hin : ∀ i t, s.in_task i t → (s.eloop.tasks t).pc = .finished) : s.act (.thread a) ≠ none := by
  obtain ⟨tqueue, ha⟩ := Option.ne_none_iff_exists'.mp h
  cases a with
  | process i =>
    have ha : s.tqueue.process i = some tqueue := ha
    change s.process i ≠ none
    unfold service.process
    rw [ha, Option.bind_eq_bind, Option.bind_some]
    split
    · simp
    · rename_i t hpc hjob
      simp [hin i t ⟨hpc, hjob⟩]
    · simp
  | add_package => simp [service.act, add_package, ha]
  | _ => simp [service.act, ha]

end

/-- Where the service's own threads are all at a stand, none of them waits for another one:
no call is made, no worker is in a task, and the threads of the queue are at a stand too. -/
theorem Finishes.stand {s : service} (hf : s.Finishes) (hs : s.Serves)
    (hreach : transition.Reachable loop.loops s.eloop)
    (hrest : ∀ a : action, a.own = true → s.act a = none) :
    (∀ c, s.eloop.add c = .idle) ∧
      ∀ a : thread.queue.action, a.own = true → s.tqueue.act a = none := by
  obtain ⟨-, -, hdefined, done, nodes, hholds⟩ := loop.reachable_holds hreach
  obtain ⟨bound, hroom⟩ := loop.reachable_room hreach
  have hadd (c : caller) : s.eloop.add_event c = none := by
    by_contra hgoes
    exact add_event_goes_on hgoes (hrest _ rfl)
  have htask (i t : Nat) (hin : s.in_task i t) : s.eloop.cycle_events t = none := by
    by_contra hgoes
    exact in_task_goes_on hin hgoes (hrest _ rfl)
  have hbegun (i t : Nat) (hin : s.in_task i t) : (s.eloop.tasks t).pc.begun = true := by
    obtain ⟨p, hp, -, hran⟩ := hs.busy i hin.1
    refine hs.ran p t ?_ hran
    have hjob := hin.2
    unfold job_of at hjob
    rwa [hp, Option.bind_some] at hjob
  have htask_defined (t : Nat) : (s.eloop.tasks t).pc ≠ .undefined := by
    intro ht
    have hreset := hholds.not_reset (u := t) (by rw [ht]; rfl)
    obtain ⟨a, m, rest, -, -, hfirst, -⟩ :=
      hholds.waiting_of hreset (by rw [ht]; rfl) (by rw [ht]; rfl)
    rw [ht] at hfirst
    exact hfirst
  -- a party that holds the mutex could go on
  have hfree : s.eloop.m_tail_mutex = none := by
    cases hm : s.eloop.m_tail_mutex with
    | none => rfl
    | some x =>
      have hlocks : s.eloop.locks x = true := (hholds.mutex x).mp hm
      cases x with
      | add c =>
        have hpc : (s.eloop.add c).locks = true := hlocks
        refine absurd (hadd c)
          (loop.add_goes_on ?_ (hdefined c) (fun m hnew => ?_) fun item hlock => ?_)
        · intro hidle
          rw [hidle] at hpc
          cases hpc
        · rw [hnew] at hpc
          cases hpc
        · rw [hlock] at hpc
          cases hpc
      | task t =>
        have hpc : (s.eloop.tasks t).pc.locks = true := hlocks
        obtain ⟨hbegun, hend, hquiet⟩ := loop.of_locks hpc
        obtain ⟨i, hin⟩ := hf.in_task hs hbegun hend
        refine absurd (htask i t hin) (loop.cycle_goes_on hbegun hend (htask_defined t) ?_ ?_)
        · intro hnot
          rw [hpc] at hnot
          cases hnot
        · intro hdelivers
          rw [hquiet] at hdelivers
          cases hdelivers
  have hidle (c : caller) : s.eloop.add c = .idle := by
    by_contra hcall
    refine absurd (hadd c) (loop.add_goes_on hcall (hdefined c) (fun message hnew => ?_)
      fun _ _ => hfree)
    have hnone := hrest (.caller (.new_item c bound)) rfl
    simp [service.act, loop.act, loop.new_item, hnew, hroom bound (Nat.le_refl bound)] at hnone
  have hfinished (i t : Nat) (hin : s.in_task i t) : (s.eloop.tasks t).pc = .finished := by
    by_contra hend
    exact loop.cycle_goes_on (hbegun i t hin) hend (htask_defined t) (fun _ => hfree)
      (fun _ => hidle _) (htask i t hin)
  refine ⟨hidle, fun a ha => ?_⟩
  by_contra hgoes
  exact thread_goes_on hgoes hfinished (hrest (.thread a) ha)

/-- In the runs in which the loop has its queue, which is started, not disturbed and waits in
time: as long as an event that was accepted has not been delivered to all its listeners, one
of the calls, the tasks and the queue's own threads can go on. -/
theorem an_accepted_event_goes_on {s : service}
    (h : transition.Reachable
      ((services true).guarded (threads thread.queue.undisturbed_in_time)) s)
    (hc : s.tqueue.control = .started) (hsize : 0 < s.tqueue.m_size)
    (hleft : ∃ m ∈ s.eloop.accepted, ∃ i < s.eloop.listeners m.type, (m, i) ∉ s.eloop.calls) :
    ∃ a : action, a.own = true ∧ s.act a ≠ none := by
  obtain ⟨hf, hs, hgoing, hreach⟩ :=
    reachable_finishes (h.guarded_mono (threads_mono fun _ _ hg => hg.1))
  obtain ⟨-, hexact, hl, hheard⟩ :=
    thread.queue.reachable_in_time (reachable_queue (fun _ => ⟨⟨by simp, trivial⟩, trivial⟩) h)
  by_contra hnone
  have hrest : ∀ a : action, a.own = true → s.act a = none := by
    intro a ha
    by_contra hgoes
    exact hnone ⟨a, ha, hgoes⟩
  obtain ⟨hidle, hthreads⟩ := hf.stand hs hreach hrest
  obtain ⟨hwaiter, hworkers, hwork⟩ := hgoing.at_rest hexact hl hheard hc hsize hthreads
  have hat_rest : s.at_rest := by
    refine ⟨hidle, hwork, fun i hi => ?_⟩
    obtain ⟨hpc, hloaded⟩ := hworkers i hi
    refine ⟨?_, by simp [hpc]⟩
    rintro (hready | hload)
    · rw [hready.1] at hloaded
      cases hloaded
    · rw [hwaiter] at hload
      cases hload
  obtain ⟨hnamed, hacc, -, done, nodes, hholds⟩ := loop.reachable_holds hreach
  obtain ⟨-, -, hall⟩ := hholds.all_delivered hnamed hacc hidle (hf.at_rest hs hgoing hat_rest)
  obtain ⟨m, hm, i, hi, hcall⟩ := hleft
  have hcount := hall m hm i hi
  rw [List.count_eq_zero.mpr hcall] at hcount
  cases hcount

theorem a_waiting_event_goes_on :
    ∃ s : service, (s.tqueue.control = .started ∧ s.tqueue.m_size = 1 ∧
      s.eloop.accepted.length = 1 ∧
      s.eloop.calls = []) ∧ ∃ a : action, a.own = true ∧ s.act a ≠ none := by
  have hrun : ((thread.queue.start_one.map action.thread ++ add_one 0 100).foldlM
      (fun s a => if threads thread.queue.undisturbed_in_time s a then s.act a else none)
      (new [(7, [0])] 1 true)).any (fun s => decide ((s.tqueue.control = .started ∧
        s.tqueue.m_size = 1 ∧ s.eloop.accepted.length = 1 ∧ s.eloop.calls = []) ∧
        ∃ m ∈ s.eloop.accepted, s.eloop.listeners m.type = 1)) = true := by
    decide +kernel
  obtain ⟨s, hs, hq, m, hm, hlisteners⟩ := reachable_guarded [(7, [0])] 1 true
    (thread.queue.start_one.map action.thread ++ add_one 0 100) hrun
  refine ⟨s, hq, an_accepted_event_goes_on hs hq.1 (by simp [hq.2.1])
    ⟨m, hm, 0, by simp [hlisteners], ?_⟩⟩
  simp [hq.2.2.2]

end service

end strangeio.event
