-- What `load` leaves of the plain integers of a new description (config/document.cpp),
-- which hold whatever the memory held, and what the assembler takes from them
-- (size_queue and assemble_schpolicy of config/assembler.cpp).
import StrangeIO.Assemblable

namespace strangeio.config

/-! ## The assembler -/

inductive schpolicy where
  | SCHED_OTHER
  | SCHED_FIFO
  | SCHED_RR
  | SCHED_BATCH
  | SCHED_IDLE
deriving DecidableEq, Repr

structure sched_desc where
  policy : schpolicy
  priority : Option Int
  cpu_affinity : Option Int
deriving DecidableEq, Repr

/-- The size of the queue of the rack, if it has one. -/
def size_queue (desc : description) (queue : Option (Option Int)) : Option (Option Int) :=
  queue.map fun _ => desc.system.threads.num_workers

/-- The policy that the rack is assigned. A name that is not known is `SCHED_OTHER`. -/
def assemble_schpolicy (desc : description) : sched_desc where
  policy :=
    if desc.system.linux_sys.policy = "SCHED_FIFO" then .SCHED_FIFO
    else if desc.system.linux_sys.policy = "SCHED_RR" then .SCHED_RR
    else if desc.system.linux_sys.policy = "SCHED_OTHER" then .SCHED_OTHER
    else if desc.system.linux_sys.policy = "SCHED_BATCH" then .SCHED_BATCH
    else if desc.system.linux_sys.policy = "SCHED_IDLE" then .SCHED_IDLE
    else .SCHED_OTHER
  priority := desc.system.linux_sys.priority
  cpu_affinity := desc.system.linux_sys.affinity

/-- The assembler takes the same from both descriptions. -/
structure Agree (d d' : description) : Prop where
  num_workers : d.system.threads.num_workers = d'.system.threads.num_workers
  policy : d.system.linux_sys.policy = d'.system.linux_sys.policy
  priority : d.system.linux_sys.priority = d'.system.linux_sys.priority
  affinity : d.system.linux_sys.affinity = d'.system.linux_sys.affinity
  queue : size_queue d = size_queue d'
  schpolicy : assemble_schpolicy d = assemble_schpolicy d'

variable {N : Type} (c : casts N)

/-! ## What the memory has -/

theorem agree_system (g g' : contents) (d : description) :
    Agree (g.description d) (g'.description d) ↔ g.system d.system = g'.system d.system := by
  constructor
  · intro h
    have hworkers := h.num_workers
    have hpriority := h.priority
    have haffinity := h.affinity
    simp only [contents.description, contents.system, contents.threads,
      contents.linux_sys] at hworkers hpriority haffinity ⊢
    rw [hworkers, hpriority, haffinity]
  · intro h
    have hsame : g.description d = g'.description d := by
      unfold contents.description
      rw [h]
    rw [hsame]
    exact ⟨rfl, rfl, rfl, rfl, rfl, rfl⟩

/-- The memory does not matter where everything is written. -/
theorem agree_iff (d : description) :
    (∀ g g' : contents, Agree (g.description d) (g'.description d)) ↔ d.system.Written := by
  simp only [agree_system]
  exact system_steady d.system

/-! ## What a document writes -/

theorem load_written {doc : json N} {o : List (String × value N)} (hdoc : doc.root = .object o)
    {d : description} (h : load c doc = .ok d) :
    d.system.Written ↔ Complete o := by
  have hordered := doc.ordered
  rw [hdoc] at hordered
  unfold load at h
  rw [hdoc, parse_root_eq c hordered] at h
  obtain ⟨⟨returns, midi⟩, hm, h⟩ := fallible.bind_ok.mp h
  have hports := midi_section_returns hm
  simp only at h
  split at h
  · rename_i hreturns
    cases h
    refine iff_of_false (fun hall => hall.1 rfl) fun hcomplete => ?_
    rw [hcomplete.ports, hreturns] at hports
    cases hports
  · rename_i hgoes
    obtain ⟨setup, -, h⟩ := fallible.bind_ok.mp h
    cases hs : system_section c (o.lookup "system") fresh.system with
    | error e =>
      rw [hs] at h
      cases h
    | ok system =>
      rw [hs] at h
      cases h
      refine (system_section_written c hs).trans ⟨fun hwritten => ?_, fun hc => hc.system⟩
      exact ⟨hports.symm.trans (by simpa using hgoes), hwritten⟩

/-- **Two loads of one document agree on what the assembler takes from them, whatever the
memory held, just when the document is complete.** -/
theorem loads_agree_on_a_complete_document (doc : json N) (o : List (String × value N))
    (hdoc : doc.root = .object o) (d : description) (hload : load c doc = .ok d) :
    (∀ g g' d1 d2, load_into c g doc = .ok d1 → load_into c g' doc = .ok d2 → Agree d1 d2) ↔
      Complete o := by
  rw [← load_written c hdoc hload, ← agree_iff]
  simp only [load_into_eq c _ hdoc, hload, fallible.map_ok, Except.ok.injEq]
  constructor
  · exact fun h g g' => h g g' _ _ rfl rfl
  · rintro h g g' d1 d2 rfl rfl
    exact h g g'

/-! ## A complete document and an empty one -/

theorem ordered_empty : (value.object [] : value Nat).Ordered :=
  .object .nil fun _ he => absurd he List.not_mem_nil

def four_workers : List (String × value Nat) :=
  [("system", .object [("linux", .object []),
    ("threads", .object [("workers", .number 4)])])]

def complete_document : json Nat :=
  ⟨.object four_workers, by
    refine .object (List.pairwise_singleton _ _) ?_
    simp only [four_workers, List.mem_cons, List.not_mem_nil, or_false, forall_eq]
    refine .object (List.pairwise_pair.mpr (by decide)) ?_
    simp only [List.mem_cons, List.not_mem_nil, or_false, forall_eq_or_imp, forall_eq]
    refine ⟨ordered_empty, ?_⟩
    refine .object (List.pairwise_singleton _ _) ?_
    simp only [List.mem_cons, List.not_mem_nil, or_false, forall_eq]
    exact .number _⟩

def empty_document : json Nat := ⟨.object [], ordered_empty⟩

theorem a_complete_document_loads_alike :
    Complete four_workers ∧ ∀ g g' d1 d2, load_into plain g complete_document = .ok d1 →
      load_into plain g' complete_document = .ok d2 → Agree d1 d2 := by
  have hcomplete : Complete four_workers := ⟨rfl, _, _, _, rfl, rfl, rfl, rfl, rfl⟩
  exact ⟨hcomplete,
    (loads_agree_on_a_complete_document plain complete_document four_workers rfl _ rfl).mpr
      hcomplete⟩

/-- The workers and the affinity of an empty document are those of the memory. -/
theorem an_empty_document_loads_the_memory :
    ¬ ∀ g g' d1 d2, load_into plain g empty_document = .ok d1 →
      load_into plain g' empty_document = .ok d2 → Agree d1 d2 := by
  intro hall
  have hagree := hall ⟨2, 0, 0⟩ ⟨3, 0, 1⟩ _ _ rfl rfl
  have hworkers := hagree.num_workers
  revert hworkers
  decide

end strangeio.config
