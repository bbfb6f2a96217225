-- What a combine makes of an AC cycle (component/unit.cpp): when it returns partial
-- until it was called for each of its lines, the cycle goes on once, after all of them.
import StrangeIO.CycleFlow
import StrangeIO.GlobalSync

namespace strangeio.component

variable {ι : Type} [DecidableEq ι]

/-! ## Lines that meet in a combine -/

/-- Lines whose last unit leads to a combine only, and one line after it. The units
of the lines complete, and the combine does once it was called for each of them. -/
structure Funnel (env : environment ι) (r : rack ι) (lines : List (ι × List ι)) (c : ι)
    (after : List ι) : Prop where
  mainlines : r.m_raw_mainlines.filter (· ∈ lines.map Prod.fst) = lines.map Prod.fst
  others : ∀ u ∈ r.m_raw_mainlines, u ∉ lines.map Prod.fst → ∀ v ∈ c :: after,
    ¬ Relation.ReflTransGen (walk.Edge r.succ) u v
  lead : ∀ line ∈ lines, flow.Path r.succ (line.1 :: line.2) [c]
  goes_on : flow.Path r.succ (c :: after) []
  awake : ∀ u, u = c ∨ u ∈ after ∨ (∃ line ∈ lines, u ∈ line.1 :: line.2) →
    (r.units u).m_line_profile.state ≠ line_state.flushing.toInt
  complete : ∀ u, u ∈ after ∨ (∃ line ∈ lines, u ∈ line.1 :: line.2) →
    ∀ s, (env.cycle u s).1 = .complete
  counts : ∀ s, (env.cycle c s).1 =
    if (s.calls.count (.cycle c) + 1) % lines.length = 0 then .complete else .partial_

/-- The units in the order of their calls: each line and the combine, and what
comes after it once they are all through. -/
def funnel_order (lines : List (ι × List ι)) (c : ι) (after : List ι) : List ι :=
  (lines.flatMap fun line => line.1 :: line.2 ++ [c]) ++ after

section funnel

variable {env : environment ι} {r0 : rack ι} {lines : List (ι × List ι)} {c : ι} {after : List ι}

omit [DecidableEq ι] in
theorem mem_funnel_order {u : ι} : u ∈ funnel_order lines c after ↔
    u ∈ after ∨ ∃ line ∈ lines, u = c ∨ u ∈ line.1 :: line.2 := by
  unfold funnel_order
  simp only [List.mem_append, List.mem_flatMap, List.mem_singleton]
  rw [or_comm]
  simp only [or_comm]

/-- A unit that is awake is called, and its state is what it returns. -/
theorem visit_awake (env : environment ι) {u : ι} {r : rack ι} (h : Cycles r0 r)
    (hu : (r0.units u).m_line_profile.state ≠ line_state.flushing.toInt) :
    (visit_ac env u r).1 = .returned (env.cycle u r).1 ∧
      (visit_ac env u r).2.calls = r.calls ++ [.cycle u] := by
  have hvisit : (visit_ac env u r).1 = .returned (env.cycle u r).1 := by
    unfold visit_ac
    rw [h.line, if_neg hu]
  refine ⟨hvisit, ?_⟩
  rw [visit_calls, hvisit]
  rfl

/-- Along a line of units that complete each one is called in turn. -/
theorem line_down (env : environment ι) {fuel : Nat} {u : ι} {l out : List ι}
    (h : flow.Path r0.succ (u :: l) out)
    (hwithin : walk.Within r0.succ fuel u)
    (hawake : ∀ v ∈ u :: l, (r0.units v).m_line_profile.state ≠ line_state.flushing.toInt)
    (hcomplete : ∀ v ∈ u :: l, ∀ s, (env.cycle v s).1 = .complete) {r : rack ι}
    (hr : Cycles r0 r) :
    ∃ m r1, (∀ v ∈ out, walk.Within r0.succ m v) ∧ Cycles r0 r1 ∧
      r1.calls = r.calls ++ (u :: l).map .cycle ∧
      (flow.down r0.succ (visit_ac env) visited.passes fuel u r).2 =
        (flow.inTurn (flow.down r0.succ (visit_ac env) visited.passes m) out r1).2 := by
  have hsteps : ∀ (vs : List ι) (r : rack ι), (∀ v ∈ vs, v ∈ u :: l) → Cycles r0 r →
      Cycles r0 (vs.foldl (fun s v => (visit_ac env v s).2) r) ∧
        (vs.foldl (fun s v => (visit_ac env v s).2) r).calls = r.calls ++ vs.map .cycle := by
    intro vs
    induction vs with
    | nil => exact fun r _ hr => ⟨hr, (List.append_nil _).symm⟩
    | cons v vs ih =>
      intro r hvs hr
      have hcall := (visit_awake env hr (hawake v (hvs v List.mem_cons_self))).2
      obtain ⟨h1, h2⟩ := ih _ (fun w hw => hvs w (List.mem_cons_of_mem _ hw))
        (hr.trans (cycles_visit env v r))
      refine ⟨h1, ?_⟩
      rw [List.foldl_cons, h2, hcall, List.map_cons, List.append_assoc]
      rfl
  have hon : ∀ v ∈ u :: l, ∀ s, Cycles r0 s → (visit_ac env v s).1.passes = true ∧
      Cycles r0 (visit_ac env v s).2 := by
    intro v hv s hs
    refine ⟨?_, hs.trans (cycles_visit env v s)⟩
    rw [(visit_awake env hs (hawake v hv)).1, visited.passes, hcomplete v hv]
    rfl
  obtain ⟨m, hm, hdown⟩ := flow.down_path h hwithin hon hr
  obtain ⟨h1, h2⟩ := hsteps (u :: l) r (fun v hv => hv) hr
  exact ⟨m, _, hm, h1, h2, hdown⟩

/-- The combine is on no line that leads to it. -/
theorem Funnel.apart (h : Funnel env r0 lines c after) (hacyclic : walk.Acyclic r0.succ)
    {line : ι × List ι} (hline : line ∈ lines) : c ∉ line.1 :: line.2 :=
  fun hc => hacyclic c ((h.lead line hline).leads hc (List.mem_singleton_self c))

theorem count_cycle_append (u : ι) (calls : List (call ι)) (l : List ι) :
    (calls ++ l.map call.cycle).count (.cycle u) = calls.count (.cycle u) + l.count u := by
  rw [List.count_append, List.count_map_of_injective l call.cycle fun _ _ hcall =>
    call.cycle.inj hcall]

/-- A complete combine lets the cycle pass to the line after it. -/
theorem Funnel.opens (h : Funnel env r0 lines c after) {fuel : Nat}
    (hwithin : walk.Within r0.succ fuel c) {r : rack ι} (hr : Cycles r0 r)
    (hcount : (r.calls.count (.cycle c) + 1) % lines.length = 0) :
    Cycles r0 (flow.down r0.succ (visit_ac env) visited.passes fuel c r).2 ∧
      (flow.down r0.succ (visit_ac env) visited.passes fuel c r).2.calls =
        r.calls ++ (c :: after).map .cycle := by
  cases fuel with
  | zero => exact hwithin.elim
  | succ fuel =>
    obtain ⟨hvisit, hcalls⟩ := visit_awake env hr (h.awake c (.inl rfl))
    have hstep := hr.trans (cycles_visit env c r)
    have hon : (visit_ac env c r).1.passes = true := by
      rw [hvisit, h.counts r, if_pos hcount]
      rfl
    rw [flow.down_on hon]
    cases after with
    | nil =>
      have hlast : r0.succ c = [] := h.goes_on
      rw [hlast]
      exact ⟨hstep, hcalls⟩
    | cons a l =>
      obtain ⟨hnext, hpath⟩ : r0.succ c = [a] ∧ flow.Path r0.succ (a :: l) [] := h.goes_on
      obtain ⟨m, r1, -, h1, h2, h3⟩ := line_down env hpath (hwithin a (by simp [hnext]))
        (fun v hv => h.awake v (.inr (.inl hv))) (fun v hv => h.complete v (.inl hv)) hstep
      have hdown : (flow.inTurn (flow.down r0.succ (visit_ac env) visited.passes fuel) [a]
          (visit_ac env c r).2).2 = r1 := h3
      rw [hnext, hdown]
      refine ⟨h1, ?_⟩
      rw [h2, hcalls, List.append_assoc]
      rfl

/-- A combine that still waits ends the cycle of the line. -/
theorem Funnel.waits (h : Funnel env r0 lines c after) {fuel : Nat}
    (hwithin : walk.Within r0.succ fuel c) {r : rack ι} (hr : Cycles r0 r)
    (hcount : (r.calls.count (.cycle c) + 1) % lines.length ≠ 0) :
    Cycles r0 (flow.down r0.succ (visit_ac env) visited.passes fuel c r).2 ∧
      (flow.down r0.succ (visit_ac env) visited.passes fuel c r).2.calls =
        r.calls ++ [c].map .cycle := by
  cases fuel with
  | zero => exact hwithin.elim
  | succ fuel =>
    obtain ⟨hvisit, hcalls⟩ := visit_awake env hr (h.awake c (.inl rfl))
    have hoff : (visit_ac env c r).1.passes = false := by
      rw [hvisit, h.counts r, if_neg hcount]
      rfl
    rw [flow.down_off hoff]
    exact ⟨hr.trans (cycles_visit env c r), hcalls⟩

/-- A mainline off the funnel leads to none of its units. -/
theorem Funnel.aside (h : Funnel env r0 lines c after) {u v : ι} (hu : u ∈ r0.m_raw_mainlines)
    (hoff : u ∉ lines.map Prod.fst) (hreach : Relation.ReflTransGen (walk.Edge r0.succ) u v) :
    v ≠ c ∧ v ∉ funnel_order lines c after := by
  have hfar := h.others u hu hoff
  have hc : v ≠ c := by
    rintro rfl
    exact hfar v List.mem_cons_self hreach
  refine ⟨hc, ?_⟩
  rw [mem_funnel_order]
  rintro (hafter | ⟨line, hline, rfl | hon⟩)
  · exact hfar v (List.mem_cons_of_mem _ hafter) hreach
  · exact hc rfl
  · exact hfar c List.mem_cons_self
      (hreach.trans ((h.lead line hline).leads hon (List.mem_singleton_self c)).to_reflTransGen)

theorem filter_order {l : List ι} (h : ∀ u ∈ l, u ∈ funnel_order lines c after) :
    l.filter (· ∈ funnel_order lines c after) = l :=
  List.filter_eq_self.mpr fun u hu => decide_eq_true (h u hu)

/-- The cycle of a line of the funnel: the combine lets it pass when it was the
last line that it waited for. -/
theorem Funnel.line (h : Funnel env r0 lines c after) (hacyclic : walk.Acyclic r0.succ)
    {line : ι × List ι} (hline : line ∈ lines) {fuel : Nat}
    (hwithin : walk.Within r0.succ fuel line.1) {r : rack ι} (hr : Cycles r0 r) :
    (flow.down r0.succ (visit_ac env) visited.passes fuel line.1 r).2.calls = r.calls ++
      ((line.1 :: line.2 ++ [c]) ++
        if (r.calls.count (.cycle c) + 1) % lines.length = 0 then after else []).map .cycle := by
  have hon : ∀ v ∈ line.1 :: line.2, ∃ l ∈ lines, v ∈ l.1 :: l.2 :=
    fun v hv => ⟨line, hline, hv⟩
  obtain ⟨m, r1, hm, h1, h2, h3⟩ := line_down env (h.lead line hline) hwithin
    (fun v hv => h.awake v (.inr (.inr (hon v hv)))) (fun v hv => h.complete v (.inr (hon v hv))) hr
  have hdown : (flow.down r0.succ (visit_ac env) visited.passes fuel line.1 r).2 =
      (flow.down r0.succ (visit_ac env) visited.passes m c r1).2 := h3
  have hwithin_c := hm c (List.mem_singleton_self c)
  have hsame : r1.calls.count (.cycle c) = r.calls.count (.cycle c) := by
    rw [h2, count_cycle_append, List.count_eq_zero_of_not_mem (h.apart hacyclic hline),
      Nat.add_zero]
  rw [hdown, ← hsame]
  split
  · rename_i hopen
    rw [(h.opens hwithin_c h1 hopen).2, h2]
    simp
  · rename_i hwait
    rw [(h.waits hwithin_c h1 hwait).2, h2]
    simp

omit [DecidableEq ι] in
theorem mem_order_of_line {line : ι × List ι} (hline : line ∈ lines) {v : ι}
    (hv : v ∈ line.1 :: line.2 ++ [c]) : v ∈ funnel_order lines c after := by
  refine mem_funnel_order.mpr (.inr ⟨line, hline, ?_⟩)
  rcases List.mem_append.mp hv with hv | hv
  · exact .inr hv
  · exact .inl (List.mem_singleton.mp hv)

/-- The walk from a mainline off the funnel calls none of its units. -/
theorem Funnel.aside_down (h : Funnel env r0 lines c after) {u : ι} (hu : u ∈ r0.m_raw_mainlines)
    (hoff : u ∉ lines.map Prod.fst) (fuel : Nat) (r : rack ι) :
    ∃ aside : List ι,
      (flow.down r0.succ (visit_ac env) visited.passes fuel u r).2.calls =
        r.calls ++ aside.map .cycle ∧
      aside.filter (· ∈ funnel_order lines c after) = [] ∧ c ∉ aside := by
  have hapart : ∀ v ∈ (flow.down r0.succ (visit_ac env) visited.passes fuel u r).1.flatMap
      visited.called, v ≠ c ∧ v ∉ funnel_order lines c after :=
    fun v hv => h.aside hu hoff (reach_of_called env hv)
  refine ⟨_, down_calls env fuel r0.succ u r, ?_, fun hc => (hapart c hc).1 rfl⟩
  rw [List.filter_eq_nil_iff]
  intro v hv
  simpa using (hapart v hv).2

/-- The counter of a combine that still waits for `m` lines after this one. -/
theorem next_count {k m n : Nat} (h : k % n + (m + 1) = n) :
    (k + 1) % n = if m = 0 then 0 else k % n + 1 := by
  rw [← Nat.mod_add_mod]
  split
  · rename_i hm
    have hone : k % n + 1 = n := by omega
    rw [hone, Nat.mod_self]
  · exact Nat.mod_eq_of_lt (by omega)

/-- The mainlines in turn, of which so many lines are left as the combine waits for. -/
theorem Funnel.down (h : Funnel env r0 lines c after) (hacyclic : walk.Acyclic r0.succ)
    {fuel : Nat} {us : List ι} {ls : List (ι × List ι)} (hus : ∀ u ∈ us, u ∈ r0.m_raw_mainlines)
    (hls : ∀ line ∈ ls, line ∈ lines)
    (hheads : us.filter (· ∈ lines.map Prod.fst) = ls.map Prod.fst)
    (hwithin : ∀ u ∈ us, walk.Within r0.succ fuel u) {r : rack ι} (hr : Cycles r0 r)
    (hcount : ls ≠ [] → r.calls.count (.cycle c) % lines.length + ls.length = lines.length) :
    ∃ called : List ι,
      (flow.inTurn (flow.down r0.succ (visit_ac env) visited.passes fuel) us r).2.calls =
        r.calls ++ called.map .cycle ∧
      called.filter (· ∈ funnel_order lines c after) =
        (ls.flatMap fun line => line.1 :: line.2 ++ [c]) ++ if ls = [] then [] else after := by
  induction us generalizing r ls with
  | nil =>
    have hnone : ls = [] := List.map_eq_nil_iff.mp hheads.symm
    subst hnone
    exact ⟨[], (List.append_nil _).symm, rfl⟩
  | cons u us ih =>
    have hwithin_u := hwithin u List.mem_cons_self
    have hus' := fun v hv => hus v (List.mem_cons_of_mem u hv)
    have hwithin' := fun v hv => hwithin v (List.mem_cons_of_mem u hv)
    have hnext := ((is_visit_ac env).cycle_line hwithin_u hr).2
    by_cases hu : u ∈ lines.map Prod.fst
    · rw [List.filter_cons_of_pos (by simpa using hu)] at hheads
      obtain ⟨line, ls, rfl, rfl, hrest⟩ := List.map_eq_cons_iff.mp hheads.symm
      have hfull := hcount (by simp)
      rw [List.length_cons] at hfull
      have hline := hls line List.mem_cons_self
      have hls' := fun l hl => hls l (List.mem_cons_of_mem line hl)
      have hcalls := h.line hacyclic hline hwithin_u hr
      rw [next_count hfull] at hcalls
      by_cases hlast : ls = []
      · -- the combine was called for all the other lines
        subst hlast
        rw [if_pos (by simp)] at hcalls
        obtain ⟨called, h1, h2⟩ := ih hus' hls' hrest.symm hwithin' hnext
          (fun hne => absurd rfl hne)
        refine ⟨(line.1 :: line.2 ++ [c]) ++ after ++ called, ?_, ?_⟩
        · simp only [flow.inTurn]
          rw [h1, hcalls, List.append_assoc, ← List.map_append]
        · rw [List.filter_append, h2, filter_order]
          · simp
          · intro v hv
            rcases List.mem_append.mp hv with hv | hv
            · exact mem_order_of_line hline hv
            · exact mem_funnel_order.mpr (.inl hv)
      · have hlen : ls.length ≠ 0 := fun hzero => hlast (List.length_eq_zero_iff.mp hzero)
        rw [if_neg hlen, if_neg (Nat.succ_ne_zero _), List.append_nil] at hcalls
        have hcalled : (flow.down r0.succ (visit_ac env) visited.passes fuel line.1 r).2.calls.count
            (.cycle c) = r.calls.count (.cycle c) + 1 := by
          rw [hcalls, count_cycle_append, List.count_append,
            List.count_eq_zero_of_not_mem (h.apart hacyclic hline), List.count_singleton_self]
        obtain ⟨called, h1, h2⟩ := ih hus' hls' hrest.symm hwithin' hnext
          (fun _ => by rw [hcalled, next_count hfull, if_neg hlen]; omega)
        refine ⟨(line.1 :: line.2 ++ [c]) ++ called, ?_, ?_⟩
        · simp only [flow.inTurn]
          rw [h1, hcalls, List.append_assoc, ← List.map_append]
        · rw [List.filter_append, h2, filter_order fun v hv => mem_order_of_line hline hv,
            if_neg hlast]
          simp
    · rw [List.filter_cons_of_neg (by simpa using hu)] at hheads
      obtain ⟨aside, hcalls, hnone, hc⟩ := h.aside_down (hus u List.mem_cons_self) hu fuel r
      have hsame : (flow.down r0.succ (visit_ac env) visited.passes fuel u r).2.calls.count
          (.cycle c) = r.calls.count (.cycle c) := by
        rw [hcalls, count_cycle_append, List.count_eq_zero_of_not_mem hc, Nat.add_zero]
      obtain ⟨called, h1, h2⟩ := ih hus' hls hheads hwithin' hnext
        (fun hne => by rw [hsame]; exact hcount hne)
      refine ⟨aside ++ called, ?_, ?_⟩
      · simp only [flow.inTurn]
        rw [h1, hcalls, List.append_assoc, ← List.map_append]
      · rw [List.filter_append, h2, hnone, List.nil_append]

/-- The order of a funnel calls the combine once for each line. -/
theorem Funnel.count_combine (h : Funnel env r0 lines c after) (hacyclic : walk.Acyclic r0.succ) :
    (funnel_order lines c after).count c = lines.length := by
  have hafter : c ∉ after := fun hc =>
    hacyclic c ((List.pairwise_cons.mp h.goes_on.pairwise).1 c hc)
  have hlines : ∀ ls : List (ι × List ι), (∀ line ∈ ls, line ∈ lines) →
      (ls.flatMap fun line => line.1 :: line.2 ++ [c]).count c = ls.length := by
    intro ls hls
    induction ls with
    | nil => rfl
    | cons line ls ih =>
      rw [List.flatMap_cons, List.count_append, List.count_append,
        List.count_eq_zero_of_not_mem (h.apart hacyclic (hls line List.mem_cons_self)),
        List.count_singleton_self, ih fun l hl => hls l (List.mem_cons_of_mem _ hl)]
      simp only [List.length_cons]
      omega
  unfold funnel_order
  rw [List.count_append, hlines lines (fun _ hl => hl), List.count_eq_zero_of_not_mem hafter,
    Nat.add_zero]

/-- The order of a funnel calls each unit after the combine once. -/
theorem Funnel.count_after (h : Funnel env r0 lines c after) (hacyclic : walk.Acyclic r0.succ)
    {u : ι} (hu : u ∈ after) : (funnel_order lines c after).count u = 1 := by
  have hpair := List.pairwise_cons.mp h.goes_on.pairwise
  have hbelow : Relation.TransGen (walk.Edge r0.succ) c u := hpair.1 u hu
  have honce : after.count u = 1 := by
    refine List.count_eq_one_of_mem (hpair.2.imp ?_) hu
    rintro v w hvw rfl
    exact hacyclic v hvw
  have hlines : u ∉ lines.flatMap fun line => line.1 :: line.2 ++ [c] := by
    intro hmem
    obtain ⟨line, hline, hon⟩ := List.mem_flatMap.mp hmem
    rcases List.mem_append.mp hon with hon | hon
    · exact hacyclic c (hbelow.trans ((h.lead line hline).leads hon (List.mem_singleton_self c)))
    · rw [List.mem_singleton.mp hon] at hbelow
      exact hacyclic c hbelow
  unfold funnel_order
  rw [List.count_append, List.count_eq_zero_of_not_mem hlines, honce]

end funnel

/-- **An AC cycle visits a unit once for each mainline that it is and once for each
output that leads to it from a visit which lets the cycle pass, and calls it at
every visit unless its line is flushing.** Where lines meet in a combine that counts
them, what comes after the combine is called once, after all of the lines. -/
theorem a_cycle_visits_a_unit_for_each_way_to_it [Fintype ι] (env : environment ι) (r : rack ι)
    (hacyclic : walk.Acyclic r.succ) {fuel : Nat} (hfuel : Fintype.card ι ≤ fuel) :
    ∃ state visits r', backend.cycle env fuel .ac r = some (state, r') ∧
      ac_walk env fuel r = (visits, r') ∧
      (∀ u, flow.visitsOf u visits = r.m_raw_mainlines.count u +
        ∑ v, flow.passesOf visited.passes v visits * (r.succ v).count u) ∧
      (∀ e ∈ visits,
        e.2 = .skipped ↔ (r.units e.1).m_line_profile.state = line_state.flushing.toInt) ∧
      r'.calls = r.calls ++ (visits.flatMap visited.called).map .cycle ∧
      ∀ lines c after, Funnel env r lines c after → lines ≠ [] →
        r.calls.count (.cycle c) % lines.length = 0 →
        (visits.flatMap visited.called).filter (· ∈ funnel_order lines c after) =
            funnel_order lines c after ∧
          (∀ u ∈ after, (visits.flatMap visited.called).count u = 1) ∧
          r'.calls.count (.cycle c) % lines.length = 0 := by
  have hwithin : r.within fuel := within_of_acyclic hacyclic hfuel
  obtain ⟨⟨state, hcycle⟩, -⟩ := cycle_down env hwithin
  have hcalls := inTurn_calls env fuel r.succ r.m_raw_mainlines r
  refine ⟨state, (ac_walk env fuel r).1, _, hcycle, rfl, ?_, walk_skips env r, hcalls, ?_⟩
  · intro u
    rw [← flow.inflow_sum]
    exact flow.visitsOf_inTurn (fun v hv s => flow.visitsOf_down (hwithin v hv) s) r
  · intro lines c after h hlines hcount
    obtain ⟨called, h1, h2⟩ := h.down hacyclic (fun u hu => hu) (fun line hline => hline)
      h.mainlines hwithin (Cycles.refl r) (fun _ => by rw [hcount, Nat.zero_add])
    have hcalled : called = (ac_walk env fuel r).1.flatMap visited.called :=
      List.map_injective_iff.mpr (fun _ _ hcall => call.cycle.inj hcall)
        (List.append_cancel_left (h1.symm.trans hcalls))
    rw [if_neg hlines] at h2
    have hmem : ∀ u ∈ funnel_order lines c after,
        called.count u = (funnel_order lines c after).count u := by
      intro u hu
      rw [← List.count_filter (p := (· ∈ funnel_order lines c after)) (by simpa using hu), h2]
      rfl
    rw [← hcalled]
    refine ⟨h2, ?_, ?_⟩
    · intro u hu
      rw [hmem u (mem_funnel_order.mpr (.inl hu)), h.count_after hacyclic hu]
    · obtain ⟨line, hline⟩ := List.exists_mem_of_ne_nil lines hlines
      have hc := hmem c (mem_funnel_order.mpr (.inr ⟨line, hline, .inl rfl⟩))
      change (flow.inTurn (flow.down r.succ (visit_ac env) visited.passes fuel)
        r.m_raw_mainlines r).2.calls.count (.cycle c) % lines.length = 0
      rw [h1, count_cycle_append, hc, h.count_combine hacyclic, Nat.add_mod_right]
      exact hcount

/-- Two mainlines that lead to a combine, and a dispatch after it. -/
def mixer : rack (Fin 4) :=
  rack.new
    (fun u =>
      if u = 0 then { m_class := .mainline, m_outputs := [⟨some (2, 0), true⟩] }
      else if u = 1 then { m_class := .mainline, m_outputs := [⟨some (2, 1), true⟩] }
      else if u = 2 then
        { m_class := .combine, m_outputs := [⟨some (3, 0), true⟩], m_input_state := [false, false] }
      else { m_class := .dispatch })
    [1, 0]

/-- The combine of the mixer completes at each second call. -/
def mixing : environment (Fin 4) where
  resync _ _ _ := []
  cycle u r := (if u = 2 ∧ (r.calls.count (.cycle 2) + 1) % 2 ≠ 0 then .partial_ else .complete, [])
  init _ _ := (.complete, [])
  raw := 0

theorem funnel_mixer : Funnel mixing mixer [(1, []), (0, [])] 2 [3] where
  mainlines := by decide
  others u hu hoff := by
    have hall : ∀ u ∈ mixer.m_raw_mainlines, u ∈ [((1 : Fin 4), ([] : List (Fin 4))), (0, [])].map
      Prod.fst := by decide
    exact absurd (hall u hu) hoff
  lead line hline := by
    simp only [List.mem_cons, List.not_mem_nil, or_false] at hline
    rcases hline with rfl | rfl
    · change mixer.succ 1 = [2]
      decide
    · change mixer.succ 0 = [2]
      decide
  goes_on := ⟨by decide, (by decide : mixer.succ 3 = [])⟩
  awake u _ := by
    revert u
    decide
  complete u hu s := by
    have hne : u ≠ 2 := by
      rintro rfl
      revert hu
      decide
    simp [mixing, hne]
  counts s := by
    by_cases h : (s.calls.count (.cycle 2) + 1) % 2 = 0
    · simp [mixing, h]
    · simp [mixing, h]

/-- A cycle of the mixer calls its dispatch once, after both lines. -/
theorem the_mixer_calls_its_dispatch_once :
    ∃ state visits r', backend.cycle mixing 4 .ac mixer = some (state, r') ∧
      ac_walk mixing 4 mixer = (visits, r') ∧
      (visits.flatMap visited.called).filter (· ∈ funnel_order [(1, []), (0, [])] 2 [3]) =
        [1, 2, 0, 2, 3] := by
  have hacyclic : walk.Acyclic mixer.succ := walk.acyclic_of_rank Fin.val (by decide)
  obtain ⟨state, visits, r', h1, h2, -, -, -, h3⟩ :=
    a_cycle_visits_a_unit_for_each_way_to_it mixing mixer hacyclic (le_refl 4)
  exact ⟨state, visits, r', h1, h2, (h3 _ 2 [3] funnel_mixer (by decide) (by decide)).1⟩

end strangeio.component
