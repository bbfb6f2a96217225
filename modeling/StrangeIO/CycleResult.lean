-- The state that an AC cycle reports (component/backend.cpp): it is what came
-- of the last mainline itself. What the units further down return, and what
-- the lines before returned, is not looked at.
import StrangeIO.CycleFlow
import StrangeIO.GlobalSync

namespace strangeio.component

variable {ι : Type} [DecidableEq ι]

/-! ## What a cycle may report -/

/-- A `cycle()` of the visits returned error. -/
def Fails (visits : List (ι × visited)) : Prop := ∃ e ∈ visits, e.2 = .returned .error

/-- The visits went through to a unit without connected outputs. -/
def GoesThrough (r : rack ι) (visits : List (ι × visited)) : Prop :=
  ∃ e ∈ visits, e.2.passes = true ∧ r.succ e.1 = []

/-- The visits down from the last mainline, after those of the other lines. -/
def last_walk (env : environment ι) (fuel : Nat) (r : rack ι) : List (ι × visited) :=
  (flow.inTurn (flow.down r.succ (visit_ac env) visited.passes fuel)
    r.m_raw_mainlines.getLast?.toList
    (flow.inTurn (flow.down r.succ (visit_ac env) visited.passes fuel)
      r.m_raw_mainlines.dropLast r).2).1

/-- A cycle reports `state` as its description says. -/
structure Reports (env : environment ι) (fuel : Nat) (r : rack ι) (state : cycle_state) : Prop where
  error : Fails (ac_walk env fuel r).1 → state = .error
  complete : state = .complete → GoesThrough r (last_walk env fuel r)

/-- The last mainline, when there is one, returns error itself, or no unit
does and the line is not cut short below a mainline that completes. -/
def NothingMasked (env : environment ι) (fuel : Nat) (r : rack ι) : Prop :=
  ∀ own ∈ (last_walk env fuel r).head?, own.2 = .returned .error ∨
    (¬ Fails (ac_walk env fuel r).1 ∧
      (own.2.passes = true → GoesThrough r (last_walk env fuel r)))

/-! ## What a cycle reports -/

theorem state_ne_error {v : visited} (h : v ≠ .returned .error) : v.state ≠ .error := by
  cases v with
  | skipped => simp [visited.state]
  | returned state =>
    rintro rfl
    exact h rfl

/-- The first visit of the last line is that of its mainline. -/
theorem last_walk_head (env : environment ι) {fuel : Nat} {r : rack ι} (hwithin : r.within fuel)
    {us : List ι} {u : ι} (hus : r.m_raw_mainlines = us ++ [u]) :
    (last_walk env fuel r).head? = some (u, (visit_ac env u
      (flow.inTurn (flow.down r.succ (visit_ac env) visited.passes fuel) us r).2).1) := by
  have hu : walk.Within r.succ fuel u := hwithin u (by simp [hus])
  cases fuel with
  | zero => exact hu.elim
  | succ fuel =>
    unfold last_walk
    rw [hus, List.getLast?_concat, List.dropLast_concat]
    simp only [Option.toList_some, flow.inTurn, List.append_nil]
    generalize (flow.inTurn _ us r).2 = s
    cases hon : (visit_ac env u s).1.passes with
    | false =>
      rw [flow.down_off hon]
      rfl
    | true =>
      rw [flow.down_on hon]
      rfl

/-- A cycle reports what came of its last mainline. -/
theorem cycle_state_eq (env : environment ι) {fuel : Nat} {r : rack ι} (hwithin : r.within fuel) :
    backend.cycle env fuel .ac r =
      some ((last_walk env fuel r).head?.elim .empty fun own => own.2.state,
        (ac_walk env fuel r).2) := by
  obtain ⟨hcycle, -⟩ := (is_visit_ac env).cycle hwithin
  have hrack := line_walk_rack (visit_ac env) visited.state visited.passes fuel r.succ
    r.m_raw_mainlines (.empty, r)
  rw [hcycle, ac_walk, ← hrack]
  congr 1
  refine Prod.ext ?_ rfl
  rcases List.eq_nil_or_concat r.m_raw_mainlines with hnil | ⟨us, u, hus⟩
  · simp only [last_walk, hnil]
    rfl
  · rw [List.concat_eq_append] at hus
    rw [last_walk_head env hwithin hus, hus, List.foldl_concat, Option.elim_some]
    unfold line_walk
    simp only
    rw [← line_walk_rack (visit_ac env) visited.state visited.passes fuel r.succ us (.empty, r)]
    rfl

/-- Without visits of a last line nothing is visited. -/
theorem no_fail_of_no_line (env : environment ι) {fuel : Nat} {r : rack ι}
    (hwithin : r.within fuel) (h : (last_walk env fuel r).head? = none) :
    ¬ Fails (ac_walk env fuel r).1 := by
  rcases List.eq_nil_or_concat r.m_raw_mainlines with hnil | ⟨us, u, hus⟩
  · unfold ac_walk
    rw [hnil]
    rintro ⟨e, he, -⟩
    cases he
  · rw [List.concat_eq_append] at hus
    rw [last_walk_head env hwithin hus] at h
    cases h

/-- **A cycle reports as it says just when its last mainline hides nothing.**
It calls the units of its visits, in their order. -/
theorem a_cycle_reports_what_its_last_mainline_returns [Fintype ι] (env : environment ι)
    (r : rack ι) (hacyclic : walk.Acyclic r.succ) {fuel : Nat} (hfuel : Fintype.card ι ≤ fuel) :
    ∃ state r', backend.cycle env fuel .ac r = some (state, r') ∧
      r'.calls = r.calls ++ ((ac_walk env fuel r).1.flatMap visited.called).map .cycle ∧
      (Reports env fuel r state ↔ NothingMasked env fuel r) := by
  have hwithin : r.within fuel := within_of_acyclic hacyclic hfuel
  refine ⟨_, _, cycle_state_eq env hwithin,
    inTurn_calls env fuel r.succ r.m_raw_mainlines r, ?_⟩
  unfold NothingMasked
  cases hown : (last_walk env fuel r).head? with
  | none =>
    refine iff_of_true ⟨?_, fun h => by cases h⟩ fun own h => by cases h
    exact fun hfails => absurd hfails (no_fail_of_no_line env hwithin hown)
  | some own =>
    simp only [Option.elim_some, Option.mem_def, Option.some.injEq, forall_eq']
    constructor
    · rintro ⟨herror, hcomplete⟩
      by_cases hfail : own.2 = .returned .error
      · exact .inl hfail
      · refine .inr ⟨?_, ?_⟩
        · exact fun hfails => state_ne_error hfail (herror hfails)
        · exact fun hpasses => hcomplete ((passes_iff own.2).mp hpasses)
    · rintro (hfail | ⟨hnone, hthrough⟩)
      · rw [hfail]
        exact ⟨fun _ => rfl, fun h => by cases h⟩
      · exact ⟨fun hfails => absurd hfails hnone,
          fun hstate => hthrough ((passes_iff own.2).mpr hstate)⟩

/-! ## A line with a unit that fails -/

/-- The unit below the mainline of a chain errors out. -/
def failing : environment (Fin 2) :=
  { environment.quiet with
    cycle := fun u _ => (if u ∈ chain.m_raw_mainlines then .complete else .error, []) }

theorem acyclic_chain : walk.Acyclic chain.succ := walk.acyclic_of_rank Fin.val (by decide)

/-- The cycle of a line whose units all complete reports so. -/
theorem a_short_line_reports :
    ∃ state r', backend.cycle environment.quiet 2 .ac chain = some (state, r') ∧
      Reports environment.quiet 2 chain state := by
  obtain ⟨state, r', hcycle, -, hiff⟩ := a_cycle_reports_what_its_last_mainline_returns
    environment.quiet chain acyclic_chain (le_refl 2)
  refine ⟨state, r', hcycle, hiff.mpr ?_⟩
  rintro own -
  refine .inr ⟨?_, fun _ => ⟨(1, .returned .complete), by decide, rfl, rfl⟩⟩
  rintro ⟨e, he, herror⟩
  have hwalk : (ac_walk environment.quiet 2 chain).1 =
      [(0, .returned .complete), (1, .returned .complete)] := rfl
  rw [hwalk] at he
  simp only [List.mem_cons, List.not_mem_nil, or_false] at he
  rcases he with rfl | rfl <;> cases herror

/-- A unit below a mainline returns error, and the cycle reports complete. -/
theorem an_error_below_a_mainline_is_not_reported :
    ¬ ∀ (env : environment (Fin 2)) (r : rack (Fin 2)), walk.Acyclic r.succ →
      ∀ state r', backend.cycle env 2 .ac r = some (state, r') → Reports env 2 r state := by
  intro hall
  have hreports := hall failing chain acyclic_chain .complete _ rfl
  have herror := hreports.error ⟨(1, .returned .error), by decide, rfl⟩
  cases herror

end strangeio.component
