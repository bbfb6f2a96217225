-- Walks down a graph that go on from a vertex only where its visit says so,
-- with a state that every visit may change: how often each vertex is visited.
-- Nothing here names the program.
import Mathlib.Algebra.BigOperators.Group.Finset.Basic
import Mathlib.Algebra.Group.Action.Defs
import Mathlib.Algebra.GroupWithZero.Nat
import StrangeIO.Walk

namespace flow

variable {V β σ : Type}

/-- Walks one after the other, with all their visits. -/
def inTurn (f : V → σ → List (V × β) × σ) : List V → σ → List (V × β) × σ
  | [], s => ([], s)
  | v :: vs, s =>
    let (es, s) := f v s
    let (fs, s) := inTurn f vs s
    (es ++ fs, s)

/-- The walk from a vertex, as deep as the fuel goes. `on` says whether a visit goes on. -/
def down (succ : V → List V) (step : V → σ → β × σ) (on : β → Bool) :
    Nat → V → σ → List (V × β) × σ
  | 0, _, s => ([], s)
  | k + 1, u, s =>
    let (b, s) := step u s
    if on b then
      let (es, s) := inTurn (down succ step on k) (succ u) s
      ((u, b) :: es, s)
    else ([(u, b)], s)

variable {succ : V → List V} {step : V → σ → β × σ} {on : β → Bool} {k : Nat}

/-- A step that goes on leads the walk to what lies below. -/
theorem down_on {u : V} {s : σ} (h : on (step u s).1 = true) :
    down succ step on (k + 1) u s =
      ((u, (step u s).1) :: (inTurn (down succ step on k) (succ u) (step u s).2).1,
        (inTurn (down succ step on k) (succ u) (step u s).2).2) := by
  simp only [down, h, if_true]

theorem down_off {u : V} {s : σ} (h : on (step u s).1 = false) :
    down succ step on (k + 1) u s = ([(u, (step u s).1)], (step u s).2) := by
  simp only [down, h, Bool.false_eq_true, if_false]

/-! ## The states of a walk -/

/-- A fold that may fail follows the walks where each of its steps does. -/
theorem foldlM_inTurn {I : σ → Prop} {f : V → σ → List (V × β) × σ} {g : σ → V → Option σ}
    {vs : List V} (h : ∀ v ∈ vs, ∀ s, I s → g s v = some (f v s).2 ∧ I (f v s).2) {s : σ}
    (hs : I s) : vs.foldlM g s = some (inTurn f vs s).2 ∧ I (inTurn f vs s).2 := by
  induction vs generalizing s with
  | nil => exact ⟨rfl, hs⟩
  | cons v vs ih =>
    obtain ⟨h1, h2⟩ := h v List.mem_cons_self s hs
    rw [List.foldlM_cons, h1]
    exact ih (fun w hw => h w (List.mem_cons_of_mem _ hw)) h2

/-- What every walk keeps and writes to a log, the walks in turn keep and write. -/
theorem inTurn_log {γ : Type} {log : σ → List γ} {out : V × β → List γ}
    {f : V → σ → List (V × β) × σ} {vs : List V}
    (h : ∀ v ∈ vs, ∀ s, log (f v s).2 = log s ++ (f v s).1.flatMap out) (s : σ) :
    log (inTurn f vs s).2 = log s ++ (inTurn f vs s).1.flatMap out := by
  induction vs generalizing s with
  | nil => simp [inTurn]
  | cons v vs ih =>
    simp only [inTurn]
    rw [ih (fun w hw => h w (List.mem_cons_of_mem _ hw)), h v List.mem_cons_self,
      List.flatMap_append, List.append_assoc]

theorem down_log {γ : Type} {log : σ → List γ} {out : V × β → List γ}
    (h : ∀ u s, log (step u s).2 = log s ++ out (u, (step u s).1)) (u : V) (s : σ) :
    log (down succ step on k u s).2 = log s ++ (down succ step on k u s).1.flatMap out := by
  induction k generalizing u s with
  | zero => simp [down]
  | succ k ih =>
    cases hon : on (step u s).1 with
    | false =>
      rw [down_off hon, h]
      simp
    | true =>
      rw [down_on hon]
      simp only
      rw [inTurn_log (fun v _ s => ih v s), h, List.flatMap_cons, List.append_assoc]

/-- What holds of every visit of a step holds of all visits of the walk. -/
theorem inTurn_visits {I : σ → Prop} {Q : V × β → Prop} {f : V → σ → List (V × β) × σ}
    {vs : List V} (h : ∀ v ∈ vs, ∀ s, I s → (∀ e ∈ (f v s).1, Q e) ∧ I (f v s).2) {s : σ}
    (hs : I s) : (∀ e ∈ (inTurn f vs s).1, Q e) ∧ I (inTurn f vs s).2 := by
  induction vs generalizing s with
  | nil => exact ⟨fun _ he => absurd he List.not_mem_nil, hs⟩
  | cons v vs ih =>
    obtain ⟨h1, h2⟩ := h v List.mem_cons_self s hs
    obtain ⟨h3, h4⟩ := ih (fun w hw => h w (List.mem_cons_of_mem _ hw)) h2
    refine ⟨?_, h4⟩
    intro e he
    rcases List.mem_append.mp he with he | he
    · exact h1 e he
    · exact h3 e he

theorem down_visits {I : σ → Prop} {Q : V × β → Prop}
    (h : ∀ u s, I s → Q (u, (step u s).1) ∧ I (step u s).2) {u : V} {s : σ} (hs : I s) :
    (∀ e ∈ (down succ step on k u s).1, Q e) ∧ I (down succ step on k u s).2 := by
  induction k generalizing u s with
  | zero => exact ⟨fun _ he => absurd he List.not_mem_nil, hs⟩
  | succ k ih =>
    obtain ⟨h1, h2⟩ := h u s hs
    cases hon : on (step u s).1 with
    | false =>
      rw [down_off hon]
      refine ⟨?_, h2⟩
      intro e he
      rw [List.mem_singleton.mp he]
      exact h1
    | true =>
      obtain ⟨h3, h4⟩ := inTurn_visits (fun v (_ : v ∈ succ u) s hs => ih hs) h2
      rw [down_on hon]
      refine ⟨?_, h4⟩
      intro e he
      rcases List.mem_cons.mp he with rfl | he
      · exact h1
      · exact h3 e he

theorem mem_inTurn {f : V → σ → List (V × β) × σ} {vs : List V} {s : σ} {e : V × β}
    (h : e ∈ (inTurn f vs s).1) : ∃ v ∈ vs, ∃ t, e ∈ (f v t).1 := by
  induction vs generalizing s with
  | nil => cases h
  | cons v vs ih =>
    rcases List.mem_append.mp h with h | h
    · exact ⟨v, List.mem_cons_self, s, h⟩
    · obtain ⟨w, hw, t, ht⟩ := ih h
      exact ⟨w, List.mem_cons_of_mem _ hw, t, ht⟩

theorem inTurn_covers {P Q : V × β → Prop} {f : V → σ → List (V × β) × σ} {v : V}
    (h : ∀ t, (∀ e ∈ (f v t).1, P e) → ∃ e ∈ (f v t).1, Q e) {vs : List V} (hv : v ∈ vs) {s : σ}
    (hall : ∀ e ∈ (inTurn f vs s).1, P e) : ∃ e ∈ (inTurn f vs s).1, Q e := by
  induction vs generalizing s with
  | nil => cases hv
  | cons w vs ih =>
    rcases List.mem_cons.mp hv with rfl | hv
    · obtain ⟨e, he, hq⟩ := h s fun e he => hall e (List.mem_append_left _ he)
      exact ⟨e, List.mem_append_left _ he, hq⟩
    · obtain ⟨e, he, hq⟩ := ih hv fun e he => hall e (List.mem_append_right _ he)
      exact ⟨e, List.mem_append_right _ he, hq⟩

/-- A walk visits what it can reach only. -/
theorem down_reach {u : V} {s : σ} {e : V × β} (h : e ∈ (down succ step on k u s).1) :
    Relation.ReflTransGen (walk.Edge succ) u e.1 := by
  induction k generalizing u s with
  | zero => cases h
  | succ k ih =>
    cases hon : on (step u s).1 with
    | false =>
      rw [down_off hon] at h
      rw [List.mem_singleton.mp h]
    | true =>
      rw [down_on hon] at h
      rcases List.mem_cons.mp h with rfl | h
      · exact .refl
      · obtain ⟨v, hv, t, ht⟩ := mem_inTurn h
        exact .head hv (ih ht)

/-- A walk whose visits all go on visits all that it can reach. -/
theorem down_covers {u v : V} (hwithin : walk.Within succ k u)
    (h : Relation.ReflTransGen (walk.Edge succ) u v) {s : σ}
    (hall : ∀ e ∈ (down succ step on k u s).1, on e.2 = true) :
    ∃ e ∈ (down succ step on k u s).1, e.1 = v := by
  induction k generalizing u s with
  | zero => exact hwithin.elim
  | succ k ih =>
    have hon : on (step u s).1 = true := by
      cases hoff : on (step u s).1 with
      | true => rfl
      | false =>
        rw [down_off hoff] at hall
        exact hoff.symm.trans (hall _ List.mem_cons_self)
    rw [down_on hon] at hall ⊢
    rcases Relation.ReflTransGen.cases_head h with rfl | ⟨w, hw, hreach⟩
    · exact ⟨_, List.mem_cons_self, rfl⟩
    · obtain ⟨e, he, hev⟩ := inTurn_covers (fun t ht => ih (hwithin w hw) hreach ht) hw
        fun e he => hall e (List.mem_cons_of_mem _ he)
      exact ⟨e, List.mem_cons_of_mem _ he, hev⟩

/-! ## The history of a walk -/

/-- What every step keeps of the state and the visits so far, the walks in turn keep. -/
theorem inTurn_keeps {T : List (V × β) → σ → Prop} {f : V → σ → List (V × β) × σ}
    (h : ∀ v es s, T es s → T (es ++ (f v s).1) (f v s).2) (vs : List V) (es : List (V × β)) {s : σ}
    (ht : T es s) : T (es ++ (inTurn f vs s).1) (inTurn f vs s).2 := by
  induction vs generalizing es s with
  | nil =>
    rw [inTurn, List.append_nil]
    exact ht
  | cons v vs ih =>
    simp only [inTurn]
    rw [← List.append_assoc]
    exact ih _ (h v es s ht)

theorem down_keeps {T : List (V × β) → σ → Prop}
    (h : ∀ u es s, T es s → T (es ++ [(u, (step u s).1)]) (step u s).2) (u : V)
    (es : List (V × β)) {s : σ} (ht : T es s) :
    T (es ++ (down succ step on k u s).1) (down succ step on k u s).2 := by
  induction k generalizing u es s with
  | zero =>
    rw [down, List.append_nil]
    exact ht
  | succ k ih =>
    have hvisit := h u es s ht
    cases hon : on (step u s).1 with
    | false =>
      rw [down_off hon]
      exact hvisit
    | true =>
      rw [down_on hon]
      have hbelow := inTurn_keeps (fun v es s ht => ih v es ht) (succ u) _ hvisit
      rwa [List.append_assoc, List.singleton_append] at hbelow

/-- A walk enters a vertex only where it may: at its root, or below a visit
that goes on. What may be entered stays so. -/
theorem down_enters {P : V → σ → Prop} {Q : V × β → Prop}
    (hvisit : ∀ u s, P u s → Q (u, (step u s).1))
    (hkeep : ∀ w u s, P w s → P w (step u s).2)
    (hbelow : ∀ u s, on (step u s).1 = true → ∀ v ∈ succ u, P v (step u s).2) {u : V} {s : σ}
    (hu : P u s) : ∀ e ∈ (down succ step on k u s).1, Q e := by
  induction k generalizing u s with
  | zero =>
    intro e he
    cases he
  | succ k ih =>
    cases hon : on (step u s).1 with
    | false =>
      rw [down_off hon]
      intro e he
      rw [List.mem_singleton.mp he]
      exact hvisit u s hu
    | true =>
      rw [down_on hon]
      have hrest := (inTurn_visits (I := fun s => ∀ v ∈ succ u, P v s) (Q := Q)
        (f := down succ step on k) (fun v hv s hs => ⟨ih (hs v hv), fun w hw =>
          down_keeps (T := fun _ s => P w s) (fun u _ s h => hkeep w u s h) v [] (hs w hw)⟩)
        (hbelow u s hon)).1
      intro e he
      rcases List.mem_cons.mp he with rfl | he
      · exact hvisit u s hu
      · exact hrest e he

/-! ## Paths -/

/-- Each vertex of the list leads to the next one only, and the last one to `out`. -/
def Path (succ : V → List V) : List V → List V → Prop
  | [], _ => True
  | [u], out => succ u = out
  | u :: v :: l, out => succ u = [v] ∧ Path succ (v :: l) out

/-- Along a path whose visits all go on the walk takes one step after the other. -/
theorem down_path {I : σ → Prop} {u : V} {l out : List V} (h : Path succ (u :: l) out)
    (hwithin : walk.Within succ k u)
    (hon : ∀ v ∈ u :: l, ∀ s, I s → on (step v s).1 = true ∧ I (step v s).2) {s : σ} (hs : I s) :
    ∃ m, (∀ v ∈ out, walk.Within succ m v) ∧
      (down succ step on k u s).2 =
        (inTurn (down succ step on m) out ((u :: l).foldl (fun s v => (step v s).2) s)).2 := by
  induction l generalizing u k s with
  | nil =>
    cases k with
    | zero => exact hwithin.elim
    | succ k =>
      obtain ⟨h1, -⟩ := hon u List.mem_cons_self s hs
      have hout : succ u = out := h
      refine ⟨k, hout ▸ hwithin, ?_⟩
      rw [down_on h1, hout]
      rfl
  | cons v l ih =>
    cases k with
    | zero => exact hwithin.elim
    | succ k =>
      obtain ⟨h1, h2⟩ := hon u List.mem_cons_self s hs
      obtain ⟨hsucc, hrest⟩ : succ u = [v] ∧ Path succ (v :: l) out := h
      obtain ⟨m, hm, hdown⟩ := ih hrest (hwithin v (by simp [hsucc]))
        (fun w hw => hon w (List.mem_cons_of_mem _ hw)) h2
      refine ⟨m, hm, ?_⟩
      rw [down_on h1, hsucc]
      exact hdown

theorem Path.leads {l out : List V} (h : Path succ l out) {u v : V} (hu : u ∈ l) (hv : v ∈ out) :
    Relation.TransGen (walk.Edge succ) u v := by
  induction l generalizing u with
  | nil => cases hu
  | cons w l ih =>
    cases l with
    | nil =>
      obtain rfl := List.mem_singleton.mp hu
      have hout : succ u = out := h
      exact .single (by rwa [walk.Edge, hout])
    | cons x l =>
      obtain ⟨hsucc, hrest⟩ : succ w = [x] ∧ Path succ (x :: l) out := h
      rcases List.mem_cons.mp hu with rfl | hu
      · exact .head (by simp [walk.Edge, hsucc]) (ih hrest List.mem_cons_self)
      · exact ih hrest hu

/-- Each vertex of a path leads to all the later ones. -/
theorem Path.pairwise {l out : List V} (h : Path succ l out) :
    l.Pairwise (Relation.TransGen (walk.Edge succ)) := by
  induction l with
  | nil => exact .nil
  | cons u l ih =>
    cases l with
    | nil => exact List.pairwise_singleton _ _
    | cons v l =>
      obtain ⟨hsucc, hrest⟩ : succ u = [v] ∧ Path succ (v :: l) out := h
      have hpair := ih hrest
      have hedge : walk.Edge succ u v := by simp [walk.Edge, hsucc]
      refine List.pairwise_cons.mpr ⟨?_, hpair⟩
      intro w hw
      rcases List.mem_cons.mp hw with rfl | hw
      · exact .single hedge
      · exact .head hedge ((List.pairwise_cons.mp hpair).1 w hw)

/-! ## How often a vertex is visited -/

section counts

variable [DecidableEq V]

/-- The visits of the vertex. -/
def visitsOf (u : V) (es : List (V × β)) : Nat := es.countP fun e => e.1 = u

/-- The visits of the vertex that go on. -/
def passesOf (on : β → Bool) (u : V) (es : List (V × β)) : Nat :=
  es.countP fun e => e.1 = u && on e.2

/-- The edges to the vertex that the visits which go on lead down. -/
def inflow (succ : V → List V) (on : β → Bool) (u : V) (es : List (V × β)) : Nat :=
  (((es.filter fun e => on e.2).map Prod.fst).map fun v => (succ v).count u).sum

theorem visitsOf_append (u : V) (es fs : List (V × β)) :
    visitsOf u (es ++ fs) = visitsOf u es + visitsOf u fs := List.countP_append

theorem inflow_append (u : V) (es fs : List (V × β)) :
    inflow succ on u (es ++ fs) = inflow succ on u es + inflow succ on u fs := by
  simp [inflow]

/-- A vertex is visited once for each root that it is, and once for each edge
to it from a visit that goes on. -/
theorem visitsOf_inTurn {f : V → σ → List (V × β) × σ} {vs : List V} {u : V}
    (h : ∀ v ∈ vs, ∀ s,
      visitsOf u (f v s).1 = (if v = u then 1 else 0) + inflow succ on u (f v s).1)
    (s : σ) :
    visitsOf u (inTurn f vs s).1 = vs.count u + inflow succ on u (inTurn f vs s).1 := by
  induction vs generalizing s with
  | nil => rfl
  | cons v vs ih =>
    have hhead := h v List.mem_cons_self s
    have htail := ih (fun w hw => h w (List.mem_cons_of_mem _ hw)) (f v s).2
    simp only [inTurn]
    rw [visitsOf_append, inflow_append, hhead, htail, List.count_cons]
    simp only [beq_iff_eq]
    omega

theorem visitsOf_down {v u : V} (h : walk.Within succ k v) (s : σ) :
    visitsOf u (down succ step on k v s).1 =
      (if v = u then 1 else 0) + inflow succ on u (down succ step on k v s).1 := by
  induction k generalizing v s with
  | zero => exact h.elim
  | succ k ih =>
    have hcons : ∀ (b : β) (es : List (V × β)),
        visitsOf u ((v, b) :: es) = (if v = u then 1 else 0) + visitsOf u es := by
      intro b es
      unfold visitsOf
      rw [List.countP_cons]
      simp only [decide_eq_true_eq]
      omega
    cases hon : on (step v s).1 with
    | false =>
      rw [down_off hon, hcons]
      simp [inflow, visitsOf, hon]
    | true =>
      have hbelow : visitsOf u (inTurn (down succ step on k) (succ v) (step v s).2).1 =
          (succ v).count u +
            inflow succ on u (inTurn (down succ step on k) (succ v) (step v s).2).1 :=
        visitsOf_inTurn (fun w hw s => ih (h w hw) s) _
      rw [down_on hon]
      simp only
      rw [hcons, hbelow]
      simp [inflow, hon]

/-- The inflow is the sum over all vertices. -/
theorem inflow_sum [Fintype V] (u : V) (es : List (V × β)) :
    inflow succ on u es = ∑ v, passesOf on v es * (succ v).count u := by
  have hcount : ∀ v, ((es.filter fun e => on e.2).map Prod.fst).count v = passesOf on v es := by
    intro v
    unfold passesOf
    rw [List.count_eq_countP, List.countP_map, List.countP_filter]
    apply List.countP_congr
    simp
  unfold inflow
  rw [Finset.sum_list_map_count]
  simp only [hcount, smul_eq_mul]
  apply Finset.sum_subset (Finset.subset_univ _)
  intro v _ hv
  rw [← hcount, List.count_eq_zero_of_not_mem (by simpa using hv), Nat.zero_mul]

end counts

end flow
