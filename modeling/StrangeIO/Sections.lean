-- The sections of a document: what `parse_document` makes of a root object,
-- section by section, and when what it makes of one section is its own. A
-- controller without a port ends the parse, so that the rest of the
-- controllers, the rack and the system are not looked at.
import StrangeIO.Document
import StrangeIO.Fallible

namespace strangeio.config

open key_order

variable {N : Type} (c : casts N)

/-! ## A level of a document, key by key -/

/-- Keys that the level does not know are passed over. -/
theorem parse_entries_filter {recurse : value N → description → Except type_error description}
    {element : element_type} {ks : List String}
    (hother : ∀ (i : String × value N) d, i.1 ∉ ks →
      parse_entry c recurse element i d = .ok (false, d))
    (o : List (String × value N)) (d : description) :
    parse_entries c recurse element (o.filter fun i => i.1 ∈ ks) d =
      parse_entries c recurse element o d := by
  induction o generalizing d with
  | nil => rfl
  | cons i o ih =>
    rw [List.filter_cons]
    split
    · simp only [parse_entries]
      refine congrArg _ ?_
      funext x
      simp only [ih]
    · rename_i hnot
      rw [ih, parse_entries, hother i d (by simpa using hnot)]
      rfl

/-- What the level makes of one key, when it is there. -/
def parse_at (recurse : value N → description → Except type_error description)
    (element : element_type) (o : List (String × value N)) (key : String) (d : description) :
    Except type_error (Bool × description) :=
  match o.lookup key with
  | none => .ok (false, d)
  | some v => parse_entry c recurse element (key, v) d

theorem parse_entries_at (recurse : value N → description → Except type_error description)
    (element : element_type) (key : String) (ks : List String) (o : List (String × value N))
    (d : description) :
    parse_entries c recurse element (entries (key :: ks) o) d =
      (parse_at c recurse element o key d >>= fun s =>
        if s.1 then .ok s.2 else parse_entries c recurse element (entries ks o) s.2) := by
  unfold entries parse_at
  rw [List.filterMap_cons]
  cases o.lookup key with
  | none => rfl
  | some v => rfl

/-! ## The system -/

def linux_section (l : Option (value N)) (linux_sys : s_linux_sys) :
    Except type_error s_linux_sys :=
  match l with
  | none => .ok linux_sys
  | some v => parse_syslinux c v linux_sys

def threads_section (t : Option (value N)) (threads : s_threading) :
    Except type_error s_threading :=
  match t with
  | none => .ok threads
  | some v => parse_key v "workers" threads fun cv => do
      .ok { num_workers := some (c.to_int (← cv.get_double)) }

def system_section (s : Option (value N)) (system : s_system) : Except type_error s_system :=
  match s with
  | some (.object o) => do
    let linux_sys ← linux_section c (o.lookup "linux") system.linux_sys
    let threads ← threads_section c (o.lookup "threads") system.threads
    .ok { threads, linux_sys }
  | _ => .ok system

theorem parse_at_linux (o : List (String × value N)) (d : description) :
    parse_at c (fun _ d => .ok d) .system o "linux" d =
      (linux_section c (o.lookup "linux") d.system.linux_sys).map fun linux_sys =>
        (false, { d with system := { d.system with linux_sys } }) := by
  unfold parse_at linux_section
  cases o.lookup "linux" with
  | none => rfl
  | some v =>
    simp only [parse_entry, String.reduceEq, false_and, if_false, and_true, if_true]
    cases parse_syslinux c v d.system.linux_sys with
    | error e => rfl
    | ok l => rfl

/-- The threads end the level, where it would end anyway. -/
theorem parse_at_threads (o : List (String × value N)) (d : description) :
    ∃ returns, parse_at c (fun _ d => .ok d) .system o "threads" d =
      (threads_section c (o.lookup "threads") d.system.threads).map fun threads =>
        (returns, { d with system := { d.system with threads } }) := by
  unfold parse_at threads_section
  cases o.lookup "threads" with
  | none => exact ⟨false, rfl⟩
  | some v =>
    refine ⟨true, ?_⟩
    simp only [parse_entry, String.reduceEq, false_and, if_false, and_true, if_true]
    cases parse_key v "workers" d.system.threads _ with
    | error e => rfl
    | ok t => rfl

theorem parse_system_eq {v : value N} (hv : v.Ordered) (d : description) :
    parse_level c (fun _ d => .ok d) .system v d =
      (system_section c (some v) d.system).map fun system => { d with system } := by
  cases hv with
  | @object o ho _ =>
    have hother : ∀ (i : String × value N) (d : description), i.1 ∉ ["linux", "threads"] →
        parse_entry c (fun _ d => .ok d) .system i d = .ok (false, d) := by
      intro i d hi
      simp only [List.mem_cons, List.not_mem_nil, or_false, not_or] at hi
      simp [parse_entry, hi.1, hi.2]
    have hks : ["linux", "threads"].Pairwise (· < ·) := by decide
    unfold parse_level system_section
    simp only
    rw [← parse_entries_filter c hother, ho.filter_eq hks, parse_entries_at, parse_at_linux]
    cases linux_section c (o.lookup "linux") d.system.linux_sys with
    | error e => rfl
    | ok linux_sys =>
      obtain ⟨returns, hthreads⟩ := parse_at_threads c o
        { d with system := { d.system with linux_sys } }
      simp only [fallible.map_ok, fallible.ok_bind, Bool.false_eq_true, if_false]
      rw [parse_entries_at, hthreads]
      cases threads_section c (o.lookup "threads") d.system.threads with
      | error e => rfl
      | ok threads =>
        cases returns with
        | false => rfl
        | true => rfl
  | _ => rfl

/-! ## The root -/

def midi_section (m : Option (value N)) (midi : s_midi) : Except type_error (Bool × s_midi) :=
  match m with
  | none => .ok (false, midi)
  | some v => do parse_controllers c (← v.get_object) midi

def rack_section (r : Option (value N)) (setup : s_setup) : Except type_error s_setup :=
  match r with
  | none => .ok setup
  | some v => parse_rack c v setup

/-- `parse_document` called for the system element. -/
abbrev recurse : value N → description → Except type_error description :=
  parse_level c (fun _ d => .ok d) .system

theorem parse_at_midi (o : List (String × value N)) (d : description) :
    parse_at c (recurse c) .root o "midi" d =
      (midi_section c (o.lookup "midi") d.midi).map fun s => (s.1, { d with midi := s.2 }) := by
  unfold parse_at midi_section
  cases o.lookup "midi" with
  | none => rfl
  | some v =>
    simp only [parse_entry, String.reduceEq, false_and, if_false, and_true, if_true]
    cases v.get_object with
    | error e => rfl
    | ok ms =>
      simp only [fallible.ok_bind]
      cases parse_controllers c ms d.midi with
      | error e => rfl
      | ok s => rfl

theorem parse_at_rack (o : List (String × value N)) (d : description) :
    parse_at c (recurse c) .root o "rack" d =
      (rack_section c (o.lookup "rack") d.setup).map fun setup => (false, { d with setup }) := by
  unfold parse_at rack_section
  cases o.lookup "rack" with
  | none => rfl
  | some v =>
    simp only [parse_entry, String.reduceEq, false_and, if_false, and_true, if_true]
    cases parse_rack c v d.setup with
    | error e => rfl
    | ok setup => rfl

theorem parse_at_system {o : List (String × value N)} (ho : ∀ e ∈ o, e.2.Ordered)
    (d : description) :
    parse_at c (recurse c) .root o "system" d =
      (system_section c (o.lookup "system") d.system).map fun system =>
        (false, { d with system }) := by
  unfold parse_at
  cases hs : o.lookup "system" with
  | none => rfl
  | some v =>
    have hv : v.Ordered := by
      obtain ⟨l1, l2, rfl, -⟩ := List.lookup_eq_some_iff.mp hs
      exact ho ("system", v) (by simp)
    simp only [parse_entry, and_true, if_true]
    rw [recurse, parse_system_eq c hv]
    cases system_section c (some v) d.system with
    | error e => rfl
    | ok system => rfl

/-- The sections of a root object in their order. -/
theorem parse_root_eq {o : List (String × value N)} (ho : (value.object o).Ordered)
    (d : description) :
    parse_document c .root (.object o) d =
      (midi_section c (o.lookup "midi") d.midi >>= fun m =>
        if m.1 then .ok { d with midi := m.2 }
        else rack_section c (o.lookup "rack") d.setup >>= fun setup =>
          (system_section c (o.lookup "system") d.system).map fun system =>
            { system, midi := m.2, setup }) := by
  cases ho with
  | object ho hvalues =>
    have hother : ∀ (i : String × value N) (d : description), i.1 ∉ ["midi", "rack", "system"] →
        parse_entry c (recurse c) .root i d = .ok (false, d) := by
      intro i d hi
      simp only [List.mem_cons, List.not_mem_nil, or_false, not_or] at hi
      simp [parse_entry, hi.1, hi.2.1, hi.2.2]
    have hks : ["midi", "rack", "system"].Pairwise (· < ·) := by decide
    change parse_entries c (recurse c) .root o d = _
    rw [← parse_entries_filter c hother, ho.filter_eq hks, parse_entries_at, parse_at_midi]
    cases midi_section c (o.lookup "midi") d.midi with
    | error e => rfl
    | ok m =>
      simp only [fallible.map_ok, fallible.ok_bind]
      cases m.1 with
      | true => rfl
      | false =>
        simp only [Bool.false_eq_true, if_false]
        rw [parse_entries_at, parse_at_rack]
        cases rack_section c (o.lookup "rack") d.setup with
        | error e => rfl
        | ok setup =>
          simp only [fallible.map_ok, fallible.ok_bind, Bool.false_eq_true, if_false]
          rw [parse_entries_at, parse_at_system c hvalues]
          cases system_section c (o.lookup "system") d.system with
          | error e => rfl
          | ok system => rfl

/-- What is not an object gives the description that there was. -/
theorem load_other {doc : json N} (h : ∀ o, doc.root ≠ .object o) : load c doc = .ok fresh := by
  unfold load
  change parse_level c (recurse c) .root doc.root fresh = .ok fresh
  unfold parse_level
  split
  · rename_i o ho
    exact absurd ho (h o)
  · rfl

/-! ## What is not written -/

/-- What the memory has, where the description is not written. -/
def contents.threads (g : contents) (t : s_threading) : s_threading :=
  { num_workers := some (t.num_workers.getD g.num_workers) }

def contents.linux_sys (g : contents) (l : s_linux_sys) : s_linux_sys :=
  { l with
    priority := some (l.priority.getD g.priority)
    affinity := some (l.affinity.getD g.affinity) }

def contents.system (g : contents) (s : s_system) : s_system :=
  { threads := g.threads s.threads, linux_sys := g.linux_sys s.linux_sys }

def contents.description (g : contents) (d : description) : description :=
  { d with system := g.system d.system }

theorem parse_key_map {α : Type} (f : α → α) (v : value N) (key : String) (x : α)
    (parse parse' : value N → Except type_error α) (h : ∀ cv, parse' cv = (parse cv).map f) :
    parse_key v key (f x) parse' = (parse_key v key x parse).map f := by
  unfold parse_key
  cases v.get key with
  | error e => rfl
  | ok cv =>
    simp only [fallible.ok_bind]
    split
    · rfl
    · exact h cv

theorem map_bind {ε α β : Type} {f : α → α} {h : β → β} {x : Except ε α} {k k' : α → Except ε β}
    (hk : ∀ a, k' (f a) = (k a).map h) : (x.map f >>= k') = (x >>= k).map h := by
  cases x with
  | error e => rfl
  | ok a => exact hk a

/-- A section writes the same over what the memory has. -/
theorem parse_syslinux_into (g : contents) (v : value N) (l : s_linux_sys) :
    parse_syslinux c v (g.linux_sys l) = (parse_syslinux c v l).map g.linux_sys := by
  unfold parse_syslinux
  rw [parse_key_map g.linux_sys v "sched_policy" l
    (fun cv => do .ok { l with policy := ← cv.get_string })]
  · refine map_bind fun l => ?_
    rw [parse_key_map g.linux_sys v "sched_priority" l
      (fun cv => do .ok { l with priority := some (c.to_int (← cv.get_double)) })]
    · refine map_bind fun l => ?_
      apply parse_key_map g.linux_sys v "cpu_affinity" { l with affinity := some (-1) }
      intro cv
      cases cv.get_double <;> rfl
    · intro cv
      cases cv.get_double <;> rfl
  · intro cv
    cases cv.get_string <;> rfl

theorem linux_section_into (g : contents) (v : Option (value N)) (l : s_linux_sys) :
    linux_section c v (g.linux_sys l) = (linux_section c v l).map g.linux_sys := by
  cases v with
  | none => rfl
  | some v => exact parse_syslinux_into c g v l

theorem threads_section_into (g : contents) (v : Option (value N)) (t : s_threading) :
    threads_section c v (g.threads t) = (threads_section c v t).map g.threads := by
  cases v with
  | none => rfl
  | some v =>
    apply parse_key_map g.threads v "workers" t
    intro cv
    cases cv.get_double <;> rfl

theorem system_section_into (g : contents) (v : Option (value N)) (s : s_system) :
    system_section c v (g.system s) = (system_section c v s).map g.system := by
  unfold system_section
  split
  · rename_i o
    have hlinux := linux_section_into c g (o.lookup "linux") s.linux_sys
    have hthreads := threads_section_into c g (o.lookup "threads") s.threads
    have hl : (g.system s).linux_sys = g.linux_sys s.linux_sys := rfl
    have ht : (g.system s).threads = g.threads s.threads := rfl
    rw [hl, ht, hlinux, hthreads]
    refine map_bind fun linux_sys => ?_
    exact map_bind fun threads => rfl
  · rfl

/-- What is loaded over the memory is what is loaded, and the memory where that is not
written. -/
theorem load_into_eq (g : contents) {doc : json N} {o : List (String × value N)}
    (hdoc : doc.root = .object o) : load_into c g doc = (load c doc).map g.description := by
  have hordered := doc.ordered
  rw [hdoc] at hordered
  unfold load_into load
  rw [hdoc]
  rw [parse_root_eq c hordered, parse_root_eq c hordered]
  have hsystem := system_section_into c g (o.lookup "system") fresh.system
  have hg : g.system fresh.system = (description.loading g).system := rfl
  rw [hg] at hsystem
  have hmidi : (description.loading g).midi = fresh.midi := rfl
  have hsetup : (description.loading g).setup = fresh.setup := rfl
  rw [hmidi, hsetup, hsystem]
  cases midi_section c (o.lookup "midi") fresh.midi with
  | error e => rfl
  | ok m =>
    simp only [fallible.ok_bind]
    cases m.1 with
    | true => rfl
    | false =>
      simp only [Bool.false_eq_true, if_false]
      cases rack_section c (o.lookup "rack") fresh.setup with
      | error e => rfl
      | ok setup =>
        simp only [fallible.ok_bind]
        cases system_section c (o.lookup "system") fresh.system with
        | error e => rfl
        | ok system => rfl

end strangeio.config
