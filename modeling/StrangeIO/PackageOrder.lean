-- The way of the packages from the pump over the waiter to the workers: they
-- keep their order, and none is lost unless the waiter leaves its loop with a
-- package in its hand (threads/queue.cpp).
import Mathlib.Data.List.Count
import StrangeIO.WorkQueue

namespace strangeio.thread.queue

/-- The package in the waiter's hand: taken from the pump, and not yet given to a worker. -/
def hand (s : queue) : Option pkg :=
  match s.waiter with
  | .unstarted | .created | .exited => none
  | .loading _ | .unlocking _ | .notifying _ | .at_clear => none
  | _ => s.raw_pkg

/-- Each package is in one place, and the workers got them in the order of the calls. -/
structure conserved (s : queue) : Prop where
  once : ∀ task < s.added, s.m_pump.m_queue.count task + s.hand.toList.count task +
    (s.handed.map Prod.fst).count task = 1
  in_order : s.handed.map Prod.fst <+: List.range s.added

/-- The waiter leaves its loop only with nothing in its hand. -/
def leaves_empty_handed (s : queue) (a : action) : Prop :=
  a = .cycle → s.waiter = .at_loop ∨ s.waiter = .at_check → s.m_running = false → s.raw_pkg = none

/-- The packages in the order of their way, the first ones first. -/
def places (s : queue) : List pkg :=
  s.handed.map Prod.fst ++ (s.hand.toList ++ s.m_pump.m_queue)

def ordered (s : queue) : Prop := s.places = List.range s.added

theorem ordered.conserved {s : queue} (h : s.ordered) : s.conserved := by
  constructor
  · intro task htask
    have hone : (List.range s.added).count task = 1 :=
      List.count_eq_one_of_mem List.nodup_range (List.mem_range.mpr htask)
    rw [← h, places, List.count_append, List.count_append] at hone
    omega
  · exact ⟨_, h⟩

/-! ## What a step does with the packages -/

/-- A step of the waiter leaves the packages where they are, takes the first one of the
pump, gives the one in its hand to a worker, or leaves the loop. -/
theorem cycle_cases {s t : queue} (h : s.cycle = some t) : t.added = s.added ∧
    ((t.handed = s.handed ∧ t.m_pump = s.m_pump ∧ t.hand = s.hand) ∨
      (t.handed = s.handed ∧ s.hand = none ∧ t.hand = s.m_pump.next_package.1 ∧
        t.m_pump = s.m_pump.next_package.2) ∨
      (∃ i, t.handed = s.handed ++ s.hand.toList.map (fun task => (task, i)) ∧ t.hand = none ∧
        t.m_pump = s.m_pump) ∨
      ((s.waiter = .at_loop ∨ s.waiter = .at_check) ∧ s.m_running = false ∧
        t.handed = s.handed ∧ t.m_pump = s.m_pump ∧ s.hand = s.raw_pkg ∧ t.hand = none)) := by
  cases hw : s.waiter with
  | unstarted =>
    simp only [cycle, hw] at h
    cases h
  | blocked =>
    simp only [cycle, hw] at h
    cases h
  | exited =>
    simp only [cycle, hw] at h
    cases h
  | at_loop =>
    simp only [cycle, hw, Option.some.injEq] at h
    subst h
    refine ⟨rfl, ?_⟩
    cases hrun : s.m_running with
    | true => exact .inl ⟨rfl, rfl, by simp [hand, hw]⟩
    | false => exact .inr (.inr (.inr ⟨.inl rfl, rfl, rfl, rfl, by simp [hand, hw], rfl⟩))
  | at_check =>
    simp only [cycle, hw, Option.some.injEq] at h
    subst h
    refine ⟨rfl, ?_⟩
    cases hrun : s.m_running with
    | true => exact .inl ⟨rfl, rfl, by simp [hand, hw]⟩
    | false => exact .inr (.inr (.inr ⟨.inr rfl, rfl, rfl, rfl, by simp [hand, hw], rfl⟩))
  | at_take =>
    simp only [cycle, hw] at h
    split at h
    · rename_i hraw
      cases h
      exact ⟨rfl, .inr (.inl ⟨rfl, by simp [hand, hw, hraw], rfl, rfl⟩)⟩
    · cases h
      exact ⟨rfl, .inl ⟨rfl, rfl, by simp [hand, hw]⟩⟩
  | at_load =>
    simp only [cycle, hw, Option.some.injEq] at h
    subst h
    refine ⟨rfl, .inl ⟨rfl, rfl, ?_⟩⟩
    by_cases hload : s.m_pump.get_load = 0 <;> simp [hand, hw, hload]
  | at_hand =>
    simp only [cycle, hw, Option.some.injEq] at h
    subst h
    refine ⟨rfl, .inl ⟨rfl, rfl, ?_⟩⟩
    by_cases hraw : s.raw_pkg = none <;> simp [hand, hw, hraw]
  | trying i =>
    simp only [cycle, hw] at h
    split at h
    · split at h
      · cases h
        exact ⟨rfl, .inl ⟨rfl, rfl, by simp [hand, hw, set_worker]⟩⟩
      · cases h
        exact ⟨rfl, .inl ⟨rfl, rfl, by simp [hand, hw]⟩⟩
    · cases h
      exact ⟨rfl, .inl ⟨rfl, rfl, by simp [hand, hw]⟩⟩
  | testing i =>
    simp only [cycle, hw] at h
    split at h
    · cases h
      exact ⟨rfl, .inl ⟨rfl, rfl, by simp [hand, hw, set_worker]⟩⟩
    · cases h
      exact ⟨rfl, .inl ⟨rfl, rfl, by simp [hand, hw]⟩⟩
  | giving i =>
    simp only [cycle, hw, Option.some.injEq] at h
    subst h
    exact ⟨rfl, .inr (.inr (.inl ⟨i, by simp [hand, hw], rfl, rfl⟩))⟩
  | _ =>
    simp only [cycle, hw, Option.some.injEq] at h
    subst h
    exact ⟨rfl, .inl ⟨rfl, rfl, by simp [hand, hw]⟩⟩

/-- The other threads leave the waiter's hand alone. -/
theorem Aside.hand {a : action} {s t : queue} (h : Aside a s t) (hlast : s.waiter_last) :
    t.hand = s.hand := by
  unfold queue.hand
  rw [h.raw_pkg]
  rcases h.waiter with hw | ⟨hw, hw'⟩ | ⟨-, hc, hw'⟩
  · rw [hw]
  · rw [hw, hw']
  · rw [hw']
    rcases hlast (by rw [hc]; rfl) with hw | hw
    · rw [hw]
    · rw [hw]

theorem Aside.places {a : action} {s t : queue} (h : Aside a s t) (hlast : s.waiter_last) :
    t.places = s.places := by
  unfold queue.places
  rw [h.handed, h.hand hlast, h.m_pump]

theorem places_add (s : queue) :
    ∀ t, s.act .add_package = some t →
      t.places = s.places ++ [s.added] ∧ t.added = s.added + 1 := by
  rintro t h
  cases h
  refine ⟨?_, rfl⟩
  change s.handed.map Prod.fst ++ (s.hand.toList ++ (s.m_pump.m_queue ++ [s.added])) =
    s.places ++ [s.added]
  unfold places
  rw [List.append_assoc, List.append_assoc]

/-- A step of the waiter keeps the packages in order, or drops the one in its hand. -/
theorem cycle_places {s t : queue} (h : s.cycle = some t) :
    t.places = s.places ∨
      (s.waiter = .at_loop ∨ s.waiter = .at_check) ∧ s.m_running = false ∧
        t.places = s.handed.map Prod.fst ++ s.m_pump.m_queue := by
  obtain ⟨-, hcases⟩ := cycle_cases h
  unfold places
  rcases hcases with ⟨h1, h2, h3⟩ | ⟨h1, h2, h3, h4⟩ | ⟨i, h1, h2, h3⟩ |
    ⟨hpc, hrun, h1, h2, -, h4⟩
  · exact .inl (by rw [h1, h2, h3])
  · refine .inl ?_
    rw [h1, h2, h3, h4, s.m_pump.next_package_eq]
    rfl
  · refine .inl ?_
    rw [h1, h2, h3, List.map_append, List.map_map]
    simp [Function.comp_def]
  · refine .inr ⟨hpc, hrun, ?_⟩
    rw [h1, h2, h4]
    rfl

theorem act_ordered {s t : queue} {a : action} (hlast : s.waiter_last) (h : s.act a = some t)
    (hs : s.ordered) (hg : s.leaves_empty_handed a) : t.ordered := by
  unfold ordered at hs ⊢
  by_cases hcycle : a = .cycle
  · subst hcycle
    rw [(cycle_cases h).1, ← hs]
    rcases cycle_places h with hsame | ⟨hpc, hrun, hdrop⟩
    · exact hsame
    · have hempty : s.hand = none := by
        unfold hand
        rw [hg rfl hpc hrun]
        split <;> rfl
      rw [hdrop, places, hempty]
      rfl
  · by_cases hadd : a = .add_package
    · subst hadd
      obtain ⟨hplaces, hadded⟩ := places_add s t h
      rw [hplaces, hadded, hs, List.range_succ]
    · have haside := Aside.act h hcycle hadd
      rw [haside.places hlast, haside.added]
      exact hs

/-- A package that the waiter leaves with is nowhere any more. -/
theorem act_loses {s t : queue} {a : action} (h : s.act a = some t) (hs : s.ordered)
    (hg : ¬ s.leaves_empty_handed a) : ¬ t.conserved := by
  unfold leaves_empty_handed at hg
  push Not at hg
  obtain ⟨rfl, hpc, hrun, hraw⟩ := hg
  obtain ⟨task, hraw⟩ := Option.ne_none_iff_exists'.mp hraw
  intro ht
  have hheld : s.hand = some task := by
    unfold hand
    rcases hpc with hpc | hpc
    · rw [hpc, hraw]
    · rw [hpc, hraw]
  have hgone : t.added = s.added ∧ t.handed = s.handed ∧ t.m_pump = s.m_pump ∧ t.hand = none := by
    change s.cycle = some t at h
    unfold cycle at h
    rcases hpc with hpc | hpc
    · simp only [hpc, hrun] at h
      cases h
      exact ⟨rfl, rfl, rfl, rfl⟩
    · simp only [hpc, hrun] at h
      cases h
      exact ⟨rfl, rfl, rfl, rfl⟩
  obtain ⟨h1, h2, h3, h4⟩ := hgone
  have hadded : task < s.added := by
    rw [← List.mem_range, ← hs, places, hheld]
    simp
  have hbefore := hs.conserved.once task hadded
  have hafter := ht.once task (h1 ▸ hadded)
  rw [h2, h3, h4] at hafter
  rw [hheld] at hbefore
  simp at hbefore hafter
  omega

/-! ## Where packages are lost -/

/-- Every package is in the pump, in the waiter's hand or with one worker, and the workers
get them in the order in which they were added, in the runs in which the waiter never
leaves its loop with a package in its hand, and in no others. -/
theorem the_hand_off_keeps_all_packages_in_order (size : Nat) (as : List action) (s : queue) :
    transition.Run (queues.within conserved) (new size) as s ↔
      transition.Run (queues.guarded leaves_empty_handed) (new size) as s := by
  apply transition.run_within_iff (I := fun s => s.waiter_last ∧ (s.conserved → s.ordered))
  · rintro s a t ⟨hlast, hordered⟩ hs ha
    have hnext := waiter_last_act ha hlast
    by_cases hg : s.leaves_empty_handed a
    · have ht := act_ordered hlast ha (hordered hs) hg
      exact ⟨⟨hnext, fun _ => ht⟩, iff_of_true ht.conserved hg⟩
    · have ht := act_loses ha (hordered hs) hg
      exact ⟨⟨hnext, fun hc => absurd hc ht⟩, iff_of_false ht hg⟩
  · exact ⟨fun _ => .inl rfl, fun _ => rfl⟩
  · exact ordered.conserved rfl

/-- One worker runs a package and is busy when the waiter takes the next one; the
queue is stopped, and the worker ends. -/
def stop_in_hand : List action :=
  List.flatten [
    start_one,
    [.add_package, .notify],
    List.replicate 13 .cycle,
    [.process 0, .process 0, .process 0, .add_package, .notify],
    List.replicate 10 .cycle,
    [.stop, .steer, .steer, .steer],
    List.replicate 4 (.process 0),
    [.steer, .steer, .steer, .steer, .cycle, .cycle]]

/-- The package that is in the waiter's hand when the queue is stopped is gone. -/
theorem a_package_in_hand_is_lost_at_a_stop :
    ∃ s, transition.Reachable queues s ∧ s.added = 2 ∧ ¬ s.conserved := by
  have hrun : (stop_in_hand.foldlM act (new 1)).any (fun s => decide (s.added = 2 ∧
      s.m_pump.m_queue.count 1 + s.hand.toList.count 1 + (s.handed.map Prod.fst).count 1 ≠ 1)) =
      true := by
    decide +kernel
  obtain ⟨s, hs, hadded, hcount⟩ := reachable 1 stop_in_hand hrun
  refine ⟨s, hs, hadded, ?_⟩
  intro h
  exact hcount (h.once 1 (by omega))

end strangeio.thread.queue
