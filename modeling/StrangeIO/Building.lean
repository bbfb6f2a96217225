-- The racks that a mount can build, and whether their passes end: a cycle or
-- a sync of a line follows the connected outputs and remembers no unit that
-- it was at, and no call looks whether a link closes a cycle of units.
import StrangeIO.LinkGraph
import StrangeIO.Mainlines
import StrangeIO.Warmup

namespace strangeio.component

variable {ι : Type} [DecidableEq ι]

/-! ## The rack of a mount -/

/-- The units that a unit is linked to, in the order of its outputs. -/
def links.succ (s : links ι) (u : ι) : List ι :=
  (unit.links { m_outputs := (s u).m_outputs.map plug.toLinkOut }).map Prod.fst

namespace mount

/-- The rack with the links and the mainlines of the mount. -/
def on (m : mount ι) (r : rack ι) : rack ι :=
  { r with
    units := fun u => { r.units u with m_outputs := (m.m_links u).m_outputs.map plug.toLinkOut }
    m_raw_mainlines := m.m_raw_mainlines }

omit [DecidableEq ι] in
theorem on_succ (m : mount ι) (r : rack ι) : (m.on r).succ = m.m_links.succ := rfl

end mount

omit [DecidableEq ι] in
theorem links.mem_succ {s : links ι} {u v : ι} :
    v ∈ s.succ u ↔ ∃ i k, s.Leads u i (v, k) := by
  unfold links.succ unit.links links.Leads links.out
  simp only [List.mem_map, List.mem_filterMap]
  constructor
  · rintro ⟨⟨_, k⟩, ⟨_, ⟨o, ho, rfl⟩, hlink⟩, rfl⟩
    obtain ⟨i, hi⟩ := List.mem_iff_getElem?.mp ho
    split at hlink
    · rename_i hconnected
      exact ⟨i, k, o.toLinkOut, by rw [hi]; rfl, hconnected, hlink⟩
    · cases hlink
  · rintro ⟨i, k, l, hl, hconnected, hto⟩
    obtain ⟨o, ho, rfl⟩ := Option.map_eq_some_iff.mp hl
    refine ⟨(v, k), ⟨o.toLinkOut, ⟨o, List.mem_of_getElem? ho, rfl⟩, ?_⟩, rfl⟩
    rw [if_pos hconnected, hto]

namespace mount

/-! ## The runs that build a rack -/

/-- The calls that build a rack: each connection is accepted. -/
def Builds (m : mount ι) : mount_call ι → Prop
  | .connect_mainline mainline unit => (m.connect_mainline mainline unit).1 = true
  | .connect_units source out dest input => (m.connect_units source out dest input).1 = true
  | .clear_units => False
  | _ => True

/-- Only so many units have an output that is connected. -/
def Few (m : mount ι) : Prop := ∃ us : List ι, ∀ u i to_in, m.m_links.Leads u i to_in → u ∈ us

theorem few_perform {m : mount ι} (h : m.Few) (c : mount_call ι) : (m.perform c).Few := by
  have hsame : ∀ m' : mount ι, m'.m_links = m.m_links → m'.Few := by
    intro m' hlinks
    unfold Few
    rwa [hlinks]
  cases c with
  | add_unit u ulabel =>
    apply hsame
    change (m.add_unit u ulabel).m_links = m.m_links
    unfold add_unit
    split <;> rfl
  | clear_units => exact h
  | add_mainline name =>
    apply hsame
    change (m.add_mainline name).m_links = m.m_links
    unfold add_mainline
    split <;> rfl
  | connect_mainline mainline unit =>
    apply hsame
    change (m.connect_mainline mainline unit).2.m_links = m.m_links
    obtain ⟨-, heq⟩ | ⟨_, _, _, _, heq⟩ := m.connect_mainline_cases mainline unit
    · rw [heq]
    · rw [heq]
  | connect_units source out dest input =>
    change (m.connect_units source out dest input).2.Few
    obtain heq | ⟨u, v, i, k, l, -, -, hl, heq⟩ := m.connect_units_cases source out dest input
    · rwa [heq]
    · rw [heq]
      obtain ⟨us, hus⟩ := h
      refine ⟨u :: us, ?_⟩
      rintro w j to_in ⟨l', hl', hconnected, hto⟩
      simp only [links.set_in_out, links.set_out_out] at hl'
      split at hl'
      · rename_i hwj
        rw [hwj.1]
        exact List.mem_cons_self
      · exact List.mem_cons_of_mem _ (hus w j to_in ⟨l', hl', hconnected, hto⟩)

theorem few_run {l : links ι} (hl : l.Unlinked) {cs : List (mount_call ι)} {m : mount ι}
    (hrun : transition.Run (calls.guarded Builds) (new l) cs m) : m.Few := by
  refine hrun.keeps (P := Few) ?_ ?_
  · rintro m c _ h ⟨-, rfl⟩
    exact few_perform h c
  · refine ⟨[], ?_⟩
    rintro u i to_in ⟨o, ho, hconnected, -⟩
    rw [hl.1 u i o ho] at hconnected
    cases hconnected

/-! ## Where the passes end -/

/-- The cycles and the global sync from the unit end. -/
structure PassesEnd (env : environment ι) (r : rack ι) (u : ι) : Prop where
  warmup : ∃ fuel s, cycle_line env fuel u .warmup r = some s
  sync : ∃ fuel s, cycle_line env fuel u .sync r = some s
  global : ∀ profile line, ∃ fuel pass,
    sync_line env fuel u profile sync_flags.glob_sync line r = some pass

omit [DecidableEq ι] in
theorem within_iff {m : mount ι} (h : m.Few) (r : rack ι) (u : ι) :
    (∃ k, walk.Within (m.on r).succ k u) ↔ walk.AcyclicFrom m.m_links.succ u := by
  obtain ⟨us, hus⟩ := h
  rw [on_succ]
  refine walk.exists_within_iff us ?_
  intro u v huv
  obtain ⟨i, k, hleads⟩ := links.mem_succ.mp huv
  exact hus u i (v, k) hleads

theorem warmup_passes {env : environment ι} (hinit : ∀ u r, (env.init u r).1 = .complete) (u : ι)
    (r : rack ι) : (visit_warmup env u r).1.came.passes = true := by
  unfold visit_warmup
  split
  · rfl
  · simp [visited.passes, hinit]

/-- **On every rack that can be built, the passes from a unit end just when the
links close no cycle of units below it.** -/
theorem passes_end_where_no_cycle_is_closed (l : links ι) (hl : l.Unlinked)
    (cs : List (mount_call ι)) (m : mount ι)
    (hrun : transition.Run (calls.guarded Builds) (new l) cs m) (r : rack ι)
    (env : environment ι) (u : ι) :
    ((∀ v s, (env.init v s).1 = .complete) →
      ((∃ fuel s, cycle_line env fuel u .warmup (m.on r) = some s) ↔
        walk.AcyclicFrom m.m_links.succ u)) ∧
    ((∃ fuel s, cycle_line env fuel u .sync (m.on r) = some s) ↔
      walk.AcyclicFrom m.m_links.succ u) ∧
    ∀ profile line, (∃ fuel pass,
      sync_line env fuel u profile sync_flags.glob_sync line (m.on r) = some pass) ↔
        walk.AcyclicFrom m.m_links.succ u := by
  have hfew := few_run hl hrun
  refine ⟨?_, ?_, ?_⟩
  · intro hinit
    rw [← within_iff hfew r u]
    exact exists_congr fun _ => (is_visit_warmup env).ends_iff (warmup_passes hinit)
  · rw [← within_iff hfew r u]
    exact exists_congr fun _ => cycle_line_ends env
  · intro profile line
    rw [← within_iff hfew r u]
    exact exists_congr fun _ => sync_line_glob_ends env

/-! ## Two units in a line -/

/-- Units with one input and one output. -/
def two : links Bool := fun _ => linkable.make ["audio_in"] ["audio"]

/-- The mainline feeds the first unit, which is linked to the second one. -/
def a_line : mount Bool :=
  ((((new two).add_unit false "phi").add_unit true "tau" |>.add_mainline "ac1").connect_mainline
    "ac1" "phi").2.connect_units "phi" "audio" "tau" "audio_in" |>.2

theorem run_a_line : transition.Run (calls.guarded Builds) (new two)
    ([.add_unit false "phi"] ++ [.add_unit true "tau"] ++ [.add_mainline "ac1"] ++
      [.connect_mainline "ac1" "phi"] ++ [.connect_units "phi" "audio" "tau" "audio_in"])
    a_line := by
  refine .snoc (.snoc (.snoc (.snoc (.one ⟨trivial, rfl⟩) ⟨trivial, rfl⟩) ⟨trivial, rfl⟩)
    ⟨?_, rfl⟩) ⟨?_, rfl⟩
  · unfold Builds
    decide
  · unfold Builds
    decide

/-- The passes of a mainline whose unit is linked to another one end. -/
theorem two_units_in_a_line_end : a_line.m_links.succ false = [true] ∧
    ∃ fuel s, cycle_line environment.quiet fuel false .sync
      (a_line.on (rack.new (fun _ => {}) [])) = some s := by
  refine ⟨by decide, ?_⟩
  have hacyclic : walk.Acyclic a_line.m_links.succ :=
    walk.acyclic_of_rank (fun v => if v then 1 else 0) (by decide)
  exact (passes_end_where_no_cycle_is_closed two (links.unlinked_make _ _) _ a_line run_a_line
    _ environment.quiet false).2.1.mpr (hacyclic.from false)

/-! ## A unit that is linked to itself -/

def alone : links Unit := fun _ => linkable.make ["audio_in"] ["audio"]

/-- The unit is mounted, and the mainline is connected to it. -/
def started : mount Unit :=
  ((new alone).add_unit () "phi" |>.add_mainline "ac1").connect_mainline "ac1" "phi" |>.2

theorem run_started : transition.Run (calls.guarded Builds) (new alone)
    ([.add_unit () "phi"] ++ [.add_mainline "ac1"] ++ [.connect_mainline "ac1" "phi"]) started := by
  refine .snoc (.snoc (.one ⟨trivial, rfl⟩) ⟨trivial, rfl⟩) ⟨?_, rfl⟩
  simp [Builds, perform, connect_mainline, get_unit, add_mainline, add_unit, has_unit, new]

/-- A unit is linked to itself, and the passes from it do not end. -/
theorem a_unit_linked_to_itself_never_ends :
    ¬ ∀ (l : links Unit), l.Unlinked → ∀ cs m,
      transition.Run (calls.guarded Builds) (new l) cs m →
      ∀ (r : rack Unit) (env : environment Unit), (∀ v s, (env.init v s).1 = .complete) →
        ∀ u ∈ m.m_raw_mainlines, PassesEnd env (m.on r) u := by
  intro hall
  have haccepted : (started.connect_units "phi" "audio" "phi" "audio_in").1 = true := by decide
  have hrun := run_started.snoc (a := mount_call.connect_units "phi" "audio" "phi" "audio_in")
    ⟨haccepted, rfl⟩
  have hends := hall alone (links.unlinked_make _ _) _ _ hrun (rack.new (fun _ => {}) [])
    environment.quiet (fun _ _ => rfl) () (by decide)
  obtain ⟨fuel, s, hs⟩ := hends.sync
  have hwithin := (cycle_line_ends environment.quiet).mp ⟨s, hs⟩
  have hedge : () ∈ (started.connect_units "phi" "audio" "phi" "audio_in").2.m_links.succ () := by
    decide
  exact hwithin.acyclicFrom () .refl (.single hedge)

end mount

end strangeio.component
