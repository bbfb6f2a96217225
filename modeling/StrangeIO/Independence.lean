-- When the sections of a document are independent: what a midi element lists
-- does not matter to the rest, and a controller without a port does not
-- matter to the other controllers. What no section writes is what the memory has.
import Mathlib.Data.List.TakeWhile
import StrangeIO.RackElement
import StrangeIO.Sections

namespace strangeio.config

variable {N : Type} (c : casts N)

/-! ## The controllers -/

/-- A controller whose keys, where they are there, have the right types. -/
structure Controller (details : value N) : Prop where
  port : details.get "port" = .ok .null ∨ ∃ s, details.get "port" = .ok (.string s)
  led_on : details.get "led_on" = .ok .null ∨ ∃ x, details.get "led_on" = .ok (.number x)
  led_off : details.get "led_off" = .ok .null ∨ ∃ x, details.get "led_off" = .ok (.number x)

/-- The controller has no port. -/
def portless (mit : String × value N) : Bool :=
  match mit.2.get "port" with
  | .ok v => v.is_null
  | .error _ => false

/-- The controllers with a port, in their order. -/
def with_ports (ms : List (String × value N)) : List s_controller :=
  ms.filterMap fun mit =>
    match parse_controller c mit.1 mit.2 with
    | .ok controller => controller
    | .error _ => none

theorem parse_number_key {details : value N} {key : String}
    (h : details.get key = .ok .null ∨ ∃ x, details.get key = .ok (.number x)) :
    ∃ b, (parse_key details key 0 fun dv => do .ok (c.to_uint8 (← dv.get_double))) = .ok b := by
  unfold parse_key
  obtain hget | ⟨x, hget⟩ := h
  · rw [hget]
    exact ⟨_, rfl⟩
  · rw [hget]
    exact ⟨_, rfl⟩

theorem parse_controller_typed {mit : String × value N} (h : Controller mit.2) :
    (portless mit = true ∧ parse_controller c mit.1 mit.2 = .ok none) ∨
      (portless mit = false ∧
        ∃ controller, parse_controller c mit.1 mit.2 = .ok (some controller)) := by
  unfold portless parse_controller
  obtain hport | ⟨port, hport⟩ := h.port
  · rw [hport]
    exact .inl ⟨rfl, rfl⟩
  · obtain ⟨led_on, hon⟩ := parse_number_key c h.led_on
    obtain ⟨led_off, hoff⟩ := parse_number_key c h.led_off
    rw [hport]
    refine .inr ⟨rfl, ⟨mit.1, port, led_on, led_off⟩, ?_⟩
    simp only [fallible.ok_bind, value.is_null, Bool.false_eq_true, if_false, value.get_string, hon,
      hoff]

theorem with_ports_cons {mit : String × value N} (h : Controller mit.2)
    (ms : List (String × value N)) :
    (portless mit = true ∧ with_ports c (mit :: ms) = with_ports c ms) ∨
      (portless mit = false ∧ ∃ controller, parse_controller c mit.1 mit.2 = .ok (some controller) ∧
        with_ports c (mit :: ms) = controller :: with_ports c ms) := by
  unfold with_ports
  obtain ⟨hport, hparse⟩ | ⟨hport, controller, hparse⟩ := parse_controller_typed c h
  · exact .inl ⟨hport, by rw [List.filterMap_cons, hparse]⟩
  · exact .inr ⟨hport, controller, hparse, by rw [List.filterMap_cons, hparse]⟩

/-- The controllers are read up to the first one without a port. -/
theorem parse_controllers_typed {ms : List (String × value N)} (h : ∀ mit ∈ ms, Controller mit.2)
    (midi : s_midi) :
    parse_controllers c ms midi = .ok (ms.any portless,
      { controllers := midi.controllers ++ with_ports c (ms.takeWhile fun m => !portless m) }) := by
  induction ms generalizing midi with
  | nil => simp [parse_controllers, with_ports]
  | cons mit ms ih =>
    obtain ⟨hport, hparse⟩ | ⟨hport, controller, hparse⟩ :=
      parse_controller_typed c (h mit List.mem_cons_self)
    · simp [parse_controllers, hparse, hport, with_ports]
    · have htail : with_ports c (mit :: ms.takeWhile fun m => !portless m) =
          controller :: with_ports c (ms.takeWhile fun m => !portless m) := by
        unfold with_ports
        rw [List.filterMap_cons, hparse]
      simp only [parse_controllers, hparse, fallible.ok_bind,
        ih fun m hm => h m (List.mem_cons_of_mem _ hm)]
      simp [hport, htail]

/-- From the first controller without a port on, none has one. -/
def PortlessLast (ms : List (String × value N)) : Prop :=
  ∀ mit ∈ ms.dropWhile fun m => !portless m, portless mit = true

theorem with_ports_nil_iff {ms : List (String × value N)} (h : ∀ mit ∈ ms, Controller mit.2) :
    with_ports c ms = [] ↔ ∀ mit ∈ ms, portless mit = true := by
  induction ms with
  | nil => simp [with_ports]
  | cons mit ms ih =>
    have ih := ih fun m hm => h m (List.mem_cons_of_mem _ hm)
    obtain ⟨hport, heq⟩ | ⟨hport, controller, -, heq⟩ :=
      with_ports_cons c (h mit List.mem_cons_self) ms
    · rw [heq, ih]
      simp [hport]
    · rw [heq]
      simp [hport]

/-- The controllers that are read are all that have a port, when those without stand last. -/
theorem with_ports_read_iff {ms : List (String × value N)} (h : ∀ mit ∈ ms, Controller mit.2) :
    with_ports c (ms.takeWhile fun m => !portless m) = with_ports c ms ↔ PortlessLast ms := by
  have hsplit : with_ports c ms = with_ports c (ms.takeWhile fun m => !portless m) ++
      with_ports c (ms.dropWhile fun m => !portless m) := by
    unfold with_ports
    rw [← List.filterMap_append, List.takeWhile_append_dropWhile]
  have hrest : ∀ mit ∈ ms.dropWhile fun m => !portless m, Controller mit.2 :=
    fun mit hmit => h mit ((List.dropWhile_sublist _).subset hmit)
  rw [hsplit, PortlessLast, ← with_ports_nil_iff c hrest]
  simp

/-! ## What the rack and the system write -/

theorem parse_syslinux_affinity {v : value N} {l l' : s_linux_sys}
    (h : parse_syslinux c v l = .ok l') : l'.affinity ≠ none := by
  obtain ⟨l1, -, h⟩ := fallible.bind_ok.mp h
  obtain ⟨l2, -, h⟩ := fallible.bind_ok.mp h
  refine parse_key_keeps (I := fun l : s_linux_sys => l.affinity ≠ none)
    (Option.some_ne_none _) ?_ h
  intro cv y hy
  obtain ⟨x, -, hy⟩ := fallible.bind_ok.mp hy
  cases hy
  exact Option.some_ne_none _

theorem parse_syslinux_priority {v : value N} {l l' : s_linux_sys} (hl : l.priority ≠ none)
    (h : parse_syslinux c v l = .ok l') : l'.priority ≠ none := by
  obtain ⟨l1, h1, h⟩ := fallible.bind_ok.mp h
  obtain ⟨l2, h2, h⟩ := fallible.bind_ok.mp h
  have hl1 : l1.priority ≠ none := by
    refine parse_key_keeps (I := fun l : s_linux_sys => l.priority ≠ none) hl ?_ h1
    intro cv y hy
    obtain ⟨x, -, hy⟩ := fallible.bind_ok.mp hy
    cases hy
    exact hl
  have hl2 : l2.priority ≠ none := by
    refine parse_key_keeps (I := fun l : s_linux_sys => l.priority ≠ none) hl1 ?_ h2
    intro cv y hy
    obtain ⟨x, -, hy⟩ := fallible.bind_ok.mp hy
    cases hy
    exact Option.some_ne_none _
  refine parse_key_keeps (I := fun l : s_linux_sys => l.priority ≠ none) ?_ ?_ h
  · exact hl2
  · intro cv y hy
    obtain ⟨x, -, hy⟩ := fallible.bind_ok.mp hy
    cases hy
    exact hl2

theorem threads_section_written {t : Option (value N)} {threads : s_threading}
    (h : threads_section c t {} = .ok threads) :
    threads.num_workers ≠ none ↔
      ∃ v cv, t = some v ∧ v.get "workers" = .ok cv ∧ cv.is_null = false := by
  cases t with
  | none =>
    cases h
    simp
  | some v =>
    obtain ⟨cv, hcv, h⟩ := fallible.bind_ok.mp h
    split at h
    · rename_i hnull
      cases h
      simp [hcv, hnull]
    · rename_i hnull
      obtain ⟨x, -, h⟩ := fallible.bind_ok.mp h
      cases h
      simpa [hcv] using hnull

theorem system_section_written {v : Option (value N)} {s : s_system}
    (h : system_section c v fresh.system = .ok s) :
    (s.threads.num_workers ≠ none ∧ s.linux_sys.priority ≠ none ∧ s.linux_sys.affinity ≠ none) ↔
      ∃ o t cv, v = some (.object o) ∧ (o.lookup "linux").isSome ∧ o.lookup "threads" = some t ∧
        t.get "workers" = .ok cv ∧ cv.is_null = false := by
  unfold system_section at h
  split at h
  · rename_i o
    obtain ⟨linux_sys, hlinux, h⟩ := fallible.bind_ok.mp h
    obtain ⟨threads, hthreads, h⟩ := fallible.bind_ok.mp h
    cases h
    have hworkers := threads_section_written c hthreads
    simp only [Option.some.injEq, value.object.injEq, hworkers]
    cases hl : o.lookup "linux" with
    | none =>
      rw [hl] at hlinux
      cases hlinux
      refine iff_of_false (fun hall => hall.2.2 rfl) ?_
      rintro ⟨o', t, cv, rfl, hsome, -⟩
      rw [hl] at hsome
      cases hsome
    | some l =>
      rw [hl] at hlinux
      have hpriority := parse_syslinux_priority c (Option.some_ne_none _) hlinux
      have haffinity := parse_syslinux_affinity c hlinux
      constructor
      · rintro ⟨⟨t, cv, ht, hcv, hnull⟩, -, -⟩
        exact ⟨o, t, cv, rfl, by rw [hl]; rfl, ht, hcv, hnull⟩
      · rintro ⟨o', t, cv, rfl, -, ht, hcv, hnull⟩
        exact ⟨⟨t, cv, ht, hcv, hnull⟩, hpriority, haffinity⟩
  · rename_i hnot
    cases h
    refine iff_of_false (fun hall => hall.1 rfl) ?_
    rintro ⟨o, t, cv, rfl, -⟩
    exact hnot o rfl

/-- The rack and the system of the root object, which come after the midi. -/
def rest (o : List (String × value N)) : Except type_error (s_setup × s_system) := do
  let setup ← rack_section c (o.lookup "rack") {}
  let system ← system_section c (o.lookup "system") fresh.system
  .ok (setup, system)

/-! ## Two documents -/

/-- The midi element, where it is there, is an object of controllers of the right types. -/
def MidiTyped (o : List (String × value N)) : Prop :=
  ∀ m, o.lookup "midi" = some m → ∃ ms, m = .object ms ∧ ∀ mit ∈ ms, Controller mit.2

/-- The entries of the midi element. -/
def controllers (o : List (String × value N)) : List (String × value N) :=
  match o.lookup "midi" with
  | some (.object ms) => ms
  | _ => []

/-- The parse comes to the system, which has a linux section, and threads with their workers. -/
structure Complete (o : List (String × value N)) : Prop where
  ports : (controllers o).any portless = false
  system : ∃ s t cv, o.lookup "system" = some (.object s) ∧ (s.lookup "linux").isSome ∧
    s.lookup "threads" = some t ∧ t.get "workers" = .ok cv ∧ cv.is_null = false

theorem MidiTyped.controllers {o : List (String × value N)} (h : MidiTyped o) :
    ∀ mit ∈ controllers o, Controller mit.2 := by
  unfold config.controllers
  split
  · rename_i ms hms
    obtain ⟨ms', heq, htyped⟩ := h _ hms
    cases heq
    exact htyped
  · exact fun mit hmit => absurd hmit List.not_mem_nil

theorem midi_section_typed {o : List (String × value N)} (h : MidiTyped o) :
    midi_section c (o.lookup "midi") {} = .ok ((controllers o).any portless,
      { controllers := with_ports c ((controllers o).takeWhile fun m => !portless m) }) := by
  have hparse := parse_controllers_typed c h.controllers {}
  rw [List.nil_append] at hparse
  rw [← hparse]
  unfold midi_section controllers
  cases hm : o.lookup "midi" with
  | none => rfl
  | some m =>
    obtain ⟨ms, rfl, -⟩ := h m hm
    rfl

/-- What a document with such a midi element gives. -/
theorem load_typed {doc : json N} {o : List (String × value N)} (hdoc : doc.root = .object o)
    (h : MidiTyped o) :
    load c doc =
      let midi := { controllers := with_ports c ((controllers o).takeWhile fun m => !portless m) }
      if (controllers o).any portless then .ok { fresh with midi }
      else (rest c o).map fun s => { setup := s.1, system := s.2, midi } := by
  have hordered := doc.ordered
  rw [hdoc] at hordered
  unfold load
  rw [hdoc, parse_root_eq c hordered, show (fresh : description).midi = {} from rfl,
    midi_section_typed c h]
  simp only [fallible.ok_bind]
  split
  · rfl
  · unfold rest
    cases hrack : rack_section c (o.lookup "rack") fresh.setup with
    | error e =>
      have hrack' : rack_section c (o.lookup "rack") {} = .error e := hrack
      rw [hrack']
      rfl
    | ok setup =>
      have hrack' : rack_section c (o.lookup "rack") {} = .ok setup := hrack
      rw [hrack']
      simp only [fallible.ok_bind]
      cases system_section c (o.lookup "system") fresh.system with
      | error e => rfl
      | ok system => rfl

def outside (d : description) : s_setup × s_system := (d.setup, d.system)

/-- What is loaded lists every controller that has a port. -/
def ListsAll (o : List (String × value N)) (loaded : Except type_error description) : Prop :=
  ∀ d, loaded = .ok d → d.midi.controllers = with_ports c (controllers o)

theorem load_outside {doc : json N} {o : List (String × value N)} (hdoc : doc.root = .object o)
    (h : MidiTyped o) :
    (load c doc).map outside =
      if (controllers o).any portless then .ok (fresh.setup, fresh.system) else rest c o := by
  rw [load_typed c hdoc h]
  simp only
  split
  · rfl
  · cases rest c o with
    | error e => rfl
    | ok s => rfl

theorem lists_all_iff {doc : json N} {o : List (String × value N)} (hdoc : doc.root = .object o)
    (h : MidiTyped o) : ListsAll c o (load c doc) ↔ PortlessLast (controllers o) := by
  rw [← with_ports_read_iff c h.controllers, load_typed c hdoc h]
  unfold ListsAll
  simp only
  split
  · simp
  · rename_i hnone
    have hall : (controllers o).takeWhile (fun m => !portless m) = controllers o := by
      refine List.takeWhile_eq_self_iff.mpr ?_
      simpa using hnone
    refine iff_of_true ?_ (by rw [hall])
    intro d hd
    rw [hall] at hd
    cases hrest : rest c o with
    | error e =>
      rw [hrest] at hd
      cases hd
    | ok s =>
      rw [hrest] at hd
      cases hd
      rfl

/-- Every plain integer of the system is written. -/
def s_system.Written (s : s_system) : Prop :=
  s.threads.num_workers ≠ none ∧ s.linux_sys.priority ≠ none ∧ s.linux_sys.affinity ≠ none

/-- A system over the memory, with the setup. -/
def contents.outside (g : contents) (s : s_setup × s_system) : s_setup × s_system :=
  (s.1, g.system s.2)

theorem not_written_fresh : ¬ fresh.system.Written := fun h => h.1 rfl

theorem written_iff {o : List (String × value N)} {s : s_setup × s_system}
    (hports : (controllers o).any portless = false) (h : rest c o = .ok s) :
    s.2.Written ↔ Complete o := by
  obtain ⟨setup, -, h⟩ := fallible.bind_ok.mp h
  obtain ⟨system, hsystem, h⟩ := fallible.bind_ok.mp h
  cases h
  exact (system_section_written c hsystem).trans ⟨fun hs => ⟨hports, hs⟩, fun hc => hc.system⟩

theorem load_into_outside (g : contents) {doc : json N} {o : List (String × value N)}
    (hdoc : doc.root = .object o) (h : MidiTyped o) :
    (load_into c g doc).map outside =
      (if (controllers o).any portless then .ok (fresh.setup, fresh.system)
        else rest c o).map g.outside := by
  rw [← load_outside c hdoc h, load_into_eq c g hdoc]
  cases load c doc with
  | error e => rfl
  | ok d => rfl

/-- The memory does not matter just where everything is written. -/
theorem system_steady (s : s_system) :
    (∀ g g' : contents, g.system s = g'.system s) ↔ s.Written := by
  constructor
  · intro h
    have hsame : contents.system ⟨0, 0, 0⟩ s = contents.system ⟨1, 1, 1⟩ s := h _ _
    simp only [contents.system, contents.threads, contents.linux_sys, s_system.mk.injEq,
      s_threading.mk.injEq, s_linux_sys.mk.injEq, Option.some.injEq, true_and] at hsame
    obtain ⟨hworkers, hpriority, haffinity⟩ := hsame
    refine ⟨?_, ?_, ?_⟩
    · intro hnone
      simp [hnone] at hworkers
    · intro hnone
      simp [hnone] at hpriority
    · intro hnone
      simp [hnone] at haffinity
  · rintro ⟨hworkers, hpriority, haffinity⟩ g g'
    obtain ⟨workers, hw⟩ := Option.ne_none_iff_exists'.mp hworkers
    obtain ⟨priority, hp⟩ := Option.ne_none_iff_exists'.mp hpriority
    obtain ⟨affinity, ha⟩ := Option.ne_none_iff_exists'.mp haffinity
    simp only [contents.system, contents.threads, contents.linux_sys, hw, hp, ha,
      Option.getD_some]

theorem outside_steady (x : Except type_error (s_setup × s_system)) :
    (∀ g g' : contents, x.map g.outside = x.map g'.outside) ↔ ∀ s, x = .ok s → s.2.Written := by
  cases x with
  | error e => exact iff_of_true (fun _ _ => rfl) (fun _ h => by cases h)
  | ok s =>
    simp only [fallible.map_ok, Except.ok.injEq, forall_eq', contents.outside, Prod.mk.injEq,
      true_and]
    exact system_steady s.2

theorem lists_all_into {g : contents} {doc : json N} {o : List (String × value N)}
    (hdoc : doc.root = .object o) (h : MidiTyped o)
    (hports : (controllers o).any portless = false) : ListsAll c o (load_into c g doc) := by
  have hlast : PortlessLast (controllers o) := by
    intro mit hmit
    have hmem := (List.dropWhile_sublist _).subset hmit
    have hall : (controllers o).dropWhile (fun m => !portless m) = [] := by
      simpa using hports
    rw [hall] at hmit
    cases hmit
  intro d hd
  rw [load_into_eq c g hdoc] at hd
  obtain ⟨d', hd', rfl⟩ := fallible.map_eq_ok.mp hd
  exact (lists_all_iff c hdoc h).mpr hlast d' hd'

/-- **The sections of two documents that differ in their midi elements are independent, whatever
the memory holds in the two loads, just when no controller is without a port and the system is
complete**, or the rack or the system ends both loads. -/
theorem sections_are_independent_when_nothing_is_cut_off {doc1 doc2 : json N}
    {o1 o2 : List (String × value N)} (h1 : doc1.root = .object o1) (h2 : doc2.root = .object o2)
    (hmidi1 : MidiTyped o1) (hmidi2 : MidiTyped o2)
    (hrack : o1.lookup "rack" = o2.lookup "rack")
    (hsystem : o1.lookup "system" = o2.lookup "system") :
    (∀ g1 g2, (load_into c g1 doc1).map outside = (load_into c g2 doc2).map outside ∧
        ListsAll c o1 (load_into c g1 doc1) ∧ ListsAll c o2 (load_into c g2 doc2)) ↔
      (controllers o1).any portless = false ∧ (controllers o2).any portless = false ∧
        (Complete o1 ∨ ∃ e, rest c o1 = .error e) := by
  have hrest : rest c o1 = rest c o2 := by
    unfold rest
    rw [hrack, hsystem]
  have hload1 := fun g => load_into_outside c g h1 hmidi1
  have hload2 := fun g => load_into_outside c g h2 hmidi2
  constructor
  · intro h
    have hsteady1 := (outside_steady _).mp fun g g' =>
      (hload1 g).symm.trans (((h g g).1.trans (h g' g).1.symm).trans (hload1 g'))
    have hsteady2 := (outside_steady _).mp fun g g' =>
      (hload2 g).symm.trans (((h g g).1.symm.trans (h g g').1).trans (hload2 g'))
    have hports1 : (controllers o1).any portless = false := by
      by_contra hport
      rw [Bool.not_eq_false] at hport
      exact not_written_fresh (hsteady1 _ (if_pos hport))
    have hports2 : (controllers o2).any portless = false := by
      by_contra hport
      rw [Bool.not_eq_false] at hport
      exact not_written_fresh (hsteady2 _ (if_pos hport))
    refine ⟨hports1, hports2, ?_⟩
    rw [hports1, if_neg Bool.false_ne_true] at hsteady1
    cases hload : rest c o1 with
    | error e => exact .inr ⟨e, rfl⟩
    | ok s => exact .inl ((written_iff c hports1 hload).mp (hsteady1 s hload))
  · rintro ⟨hports1, hports2, hcomplete⟩ g1 g2
    refine ⟨?_, lists_all_into c h1 hmidi1 hports1, lists_all_into c h2 hmidi2 hports2⟩
    rw [hload1, hload2, hports1, hports2, ← hrest]
    refine (outside_steady _).mpr ?_ g1 g2
    intro s hs
    obtain hcomplete | ⟨e, he⟩ := hcomplete
    · exact (written_iff c hports1 hs).mpr hcomplete
    · rw [he] at hs
      cases hs

/-! ## A controller without a port -/

/-- A rack element with one mainline. -/
def one_mainline : value Nat :=
  .object [("daisychains", .array []), ("mainlines", .array [.object [("plug", .string "ac1")]])]

theorem one_mainline_ordered : one_mainline.Ordered := by
  refine .object (List.pairwise_pair.mpr (by decide)) ?_
  simp only [List.mem_cons, List.not_mem_nil, or_false, forall_eq_or_imp, forall_eq]
  refine ⟨.array ?_, .array ?_⟩
  · intro v hv
    cases hv
  · simp only [List.mem_cons, List.not_mem_nil, or_false, forall_eq]
    refine .object (List.pairwise_singleton _ _) ?_
    simp only [List.mem_cons, List.not_mem_nil, or_false, forall_eq]
    exact .string _

/-- A system element with a linux section and four workers. -/
def whole_system : value Nat :=
  .object [("linux", .object []), ("threads", .object [("workers", .number 4)])]

theorem whole_system_ordered : whole_system.Ordered := by
  refine .object (List.pairwise_pair.mpr (by decide)) ?_
  simp only [List.mem_cons, List.not_mem_nil, or_false, forall_eq_or_imp, forall_eq]
  refine ⟨.object .nil fun _ he => absurd he List.not_mem_nil, ?_⟩
  refine .object (List.pairwise_singleton _ _) ?_
  simp only [List.mem_cons, List.not_mem_nil, or_false, forall_eq]
  exact .number _

/-- The root object with these controllers, one mainline and a system that is complete. -/
def with_midi (ms : List (String × value Nat)) : List (String × value Nat) :=
  [("midi", .object ms), ("rack", one_mainline), ("system", whole_system)]

theorem with_midi_ordered {ms : List (String × value Nat)} (h : (value.object ms).Ordered) :
    (value.object (with_midi ms)).Ordered := by
  have hmidi : "midi" < "rack" ∧ "midi" < "system" := by decide
  have hrack : "rack" < "system" := by decide
  have hkeys : key_order.Ordered (with_midi ms) := by
    refine List.pairwise_cons.mpr ⟨?_, List.pairwise_pair.mpr hrack⟩
    simpa using hmidi
  refine .object hkeys ?_
  rintro e (_ | ⟨_, _ | ⟨_, _ | ⟨_, he⟩⟩⟩)
  · exact h
  · exact one_mainline_ordered
  · exact whole_system_ordered
  · cases he

def plain : casts Nat := ⟨fun n => n, UInt8.ofNat⟩

def with_pads (ms : List (String × value Nat)) (h : (value.object ms).Ordered) : json Nat :=
  ⟨.object (with_midi ms), with_midi_ordered h⟩

theorem midi_typed_with_midi {ms : List (String × value Nat)} (h : ∀ mit ∈ ms, Controller mit.2) :
    MidiTyped (with_midi ms) := by
  rintro m hm
  obtain rfl := Option.some.inj hm
  exact ⟨ms, rfl, h⟩

/-- No controllers, one with a port, and one without any key. -/
def no_pads : json Nat :=
  with_pads [] (.object .nil fun _ he => absurd he List.not_mem_nil)

def one_pad : json Nat :=
  with_pads [("pad", .object [("port", .string "hw:1")])] (by
    refine .object (List.pairwise_singleton _ _) ?_
    simp only [List.mem_cons, List.not_mem_nil, or_false, forall_eq]
    refine .object (List.pairwise_singleton _ _) ?_
    simp only [List.mem_cons, List.not_mem_nil, or_false, forall_eq]
    exact .string _)

def bare_pad : json Nat :=
  with_pads [("pad", .object [])] (by
    refine .object (List.pairwise_singleton _ _) ?_
    simp only [List.mem_cons, List.not_mem_nil, or_false, forall_eq]
    exact .object .nil fun _ he => absurd he List.not_mem_nil)

/-- A controller with a port does not matter to the rack. -/
theorem a_controller_with_a_port_cuts_nothing_off :
    (load_into plain ⟨0, 0, 0⟩ no_pads).map outside =
      (load_into plain ⟨8, 8, 8⟩ one_pad).map outside := by
  have h1 : no_pads.root = .object (with_midi []) := rfl
  have h2 : one_pad.root = .object (with_midi [("pad", .object [("port", .string "hw:1")])]) := rfl
  have hmidi1 : MidiTyped (with_midi []) :=
    midi_typed_with_midi fun _ hmit => absurd hmit List.not_mem_nil
  have hmidi2 : MidiTyped (with_midi [("pad", .object [("port", .string "hw:1")])]) := by
    refine midi_typed_with_midi ?_
    simp only [List.mem_cons, List.not_mem_nil, or_false, forall_eq]
    exact ⟨.inr ⟨_, rfl⟩, .inl rfl, .inl rfl⟩
  have hcomplete : Complete (with_midi []) := ⟨rfl, _, _, _, rfl, rfl, rfl, rfl, rfl⟩
  have hlaw := (sections_are_independent_when_nothing_is_cut_off plain h1 h2 hmidi1 hmidi2 rfl
    rfl).mpr ⟨rfl, rfl, .inl hcomplete⟩
  exact (hlaw _ _).1

/-- A controller without a port keeps the mainline of the rack out. -/
theorem a_bare_controller_cuts_off_the_rack :
    ¬ ∀ (doc1 doc2 : json Nat) (o1 o2 : List (String × value Nat)), doc1.root = .object o1 →
      doc2.root = .object o2 → MidiTyped o1 → MidiTyped o2 →
      o1.lookup "rack" = o2.lookup "rack" → o1.lookup "system" = o2.lookup "system" →
      ∀ g, (load_into plain g doc1).map outside = (load_into plain g doc2).map outside ∧
        ListsAll plain o1 (load_into plain g doc1) ∧
        ListsAll plain o2 (load_into plain g doc2) := by
  intro hall
  have hmidi1 : MidiTyped (with_midi []) :=
    midi_typed_with_midi fun _ hmit => absurd hmit List.not_mem_nil
  have hmidi2 : MidiTyped (with_midi [("pad", .object [])]) := by
    refine midi_typed_with_midi ?_
    simp only [List.mem_cons, List.not_mem_nil, or_false, forall_eq]
    exact ⟨.inl rfl, .inl rfl, .inl rfl⟩
  have hsame := (hall no_pads bare_pad _ _ rfl rfl hmidi1 hmidi2 rfl rfl ⟨0, 0, 0⟩).1
  have hlisted : ((load_into plain ⟨0, 0, 0⟩ no_pads).map outside).map Prod.fst =
      .ok { mainlines := ["ac1"] } := rfl
  have hcut : ((load_into plain ⟨0, 0, 0⟩ bare_pad).map outside).map Prod.fst = .ok {} := rfl
  rw [hsame, hcut] at hlisted
  cases hlisted

end strangeio.config
