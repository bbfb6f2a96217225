-- Lines that meet at one point, in the abstract: the point hears of each line
-- in turn whether it is on, and decides whether the whole goes up or down.
-- Nothing here names the program.
import Mathlib.Data.List.Nodup
import Mathlib.Logic.Function.Basic

namespace desk

variable {ι : Type} [DecidableEq ι]

/-- `up` is the state of the whole, `heard` what was last heard of each line,
and `turned` whether this round turns the state over. -/
structure Desk (ι : Type) where
  up : Bool
  heard : ι → Bool
  turned : Bool

/-- One line is heard: on, it turns a desk that is down; off, it turns a desk
that is up when no line is known to be on any more. -/
def Desk.hear (lines : List ι) (on : ι → Bool) (d : Desk ι) (u : ι) : Desk ι :=
  let heard := Function.update d.heard u (on u)
  { d with
    heard := heard
    turned := d.turned || if on u then !d.up else d.up && lines.all fun v => !heard v }

/-- The state turns only after all lines have been heard. -/
def Desk.settle (d : Desk ι) : Desk ι := { d with up := d.up ^^ d.turned, turned := false }

def Desk.round (lines : List ι) (on : ι → Bool) (d : Desk ι) : Desk ι :=
  (lines.foldl (Desk.hear lines on) d).settle

/-- The whole is up exactly when a line is known to be on. -/
def Desk.follows (lines : List ι) (d : Desk ι) : Prop := d.up = true ↔ ∃ u ∈ lines, d.heard u = true

/-- Lines were on and lines are on now, but each that was comes before each that is. -/
def HandsOver (lines : List ι) (before now : ι → Bool) : Prop :=
  (∃ u ∈ lines, before u = true) ∧ (∃ u ∈ lines, now u = true) ∧
    (∀ u ∈ lines, ¬ (now u = true ∧ before u = true)) ∧
    lines.Pairwise fun u v => ¬ (now u = true ∧ before v = true)

/-- There is a line that is heard when all lines heard so far are off, and all
those yet to be heard were. -/
def Falls (before now : ι → Bool) (lines : List ι) : Prop :=
  ∃ pre u post, lines = pre ++ u :: post ∧ (∀ v ∈ pre, now v = false) ∧ now u = false ∧
    ∀ v ∈ post, before v = false

omit [DecidableEq ι] in
theorem falls_all_off {before now : ι → Bool} {lines : List ι} (hsome : lines ≠ [])
    (hoff : ∀ u ∈ lines, now u = false) : Falls before now lines := by
  refine ⟨lines.dropLast, lines.getLast hsome, [], (List.dropLast_append_getLast hsome).symm, ?_,
    hoff _ (List.getLast_mem hsome), fun v hv => absurd hv List.not_mem_nil⟩
  exact fun v hv => hoff v (List.dropLast_subset lines hv)

omit [DecidableEq ι] in
theorem exists_last_on {before : ι → Bool} {lines : List ι} (h : ∃ u ∈ lines, before u = true) :
    ∃ pre u post, lines = pre ++ u :: post ∧ before u = true ∧ ∀ v ∈ post, before v = false := by
  induction lines with
  | nil =>
    obtain ⟨u, hu, -⟩ := h
    exact absurd hu List.not_mem_nil
  | cons x lines ih =>
    by_cases hrest : ∃ u ∈ lines, before u = true
    · obtain ⟨pre, u, post, rfl, hu, hpost⟩ := ih hrest
      exact ⟨x :: pre, u, post, rfl, hu, hpost⟩
    · obtain ⟨u, hu, hon⟩ := h
      have hux : u = x := by
        rcases List.mem_cons.mp hu with hux | hu
        · exact hux
        · exact absurd ⟨u, hu, hon⟩ hrest
      refine ⟨[], x, lines, rfl, hux ▸ hon, fun v hv => ?_⟩
      rw [← Bool.not_eq_true]
      exact fun hv' => hrest ⟨v, hv, hv'⟩

omit [DecidableEq ι] in
/-- Where lines were on and lines are on now, the desk falls just when it is handed over. -/
theorem falls_iff_handsOver {before now : ι → Bool} {lines : List ι}
    (hbefore : ∃ u ∈ lines, before u = true) (hnow : ∃ u ∈ lines, now u = true) :
    Falls before now lines ↔ HandsOver lines before now := by
  constructor
  · rintro ⟨pre, u, post, rfl, hpre, hu, hpost⟩
    -- what is on now comes after `u`, what was on before it comes no later than `u`
    refine ⟨hbefore, hnow, ?_, ?_⟩
    · rintro v hv ⟨h1, h2⟩
      rcases List.mem_append.mp hv with hv | hv
      · rw [hpre v hv] at h1
        cases h1
      · rcases List.mem_cons.mp hv with rfl | hv
        · rw [hu] at h1
          cases h1
        · rw [hpost v hv] at h2
          cases h2
    · rw [List.pairwise_append, List.pairwise_cons]
      refine ⟨?_, ⟨?_, ?_⟩, ?_⟩
      · apply List.pairwise_of_forall_mem_list
        rintro a ha b - ⟨h, -⟩
        rw [hpre a ha] at h
        cases h
      · rintro b - ⟨h, -⟩
        rw [hu] at h
        cases h
      · apply List.pairwise_of_forall_mem_list
        rintro a - b hb ⟨-, h⟩
        rw [hpost b hb] at h
        cases h
      · rintro a ha b - ⟨h, -⟩
        rw [hpre a ha] at h
        cases h
  · rintro ⟨-, -, hnever, horder⟩
    obtain ⟨pre, u, post, rfl, hu, hpost⟩ := exists_last_on hbefore
    rw [List.pairwise_append, List.pairwise_cons] at horder
    refine ⟨pre, u, post, rfl, ?_, ?_, hpost⟩
    · intro v hv
      rw [← Bool.not_eq_true]
      exact fun h => horder.2.2 v hv u List.mem_cons_self ⟨h, hu⟩
    · rw [← Bool.not_eq_true]
      exact fun h => hnever u (List.mem_append_right _ List.mem_cons_self) ⟨h, hu⟩

omit [DecidableEq ι] in
theorem falls_cons {before now : ι → Bool} {u : ι} {lines : List ι} :
    Falls before now (u :: lines) ↔
      now u = false ∧ ((∀ v ∈ lines, before v = false) ∨ Falls before now lines) := by
  constructor
  · rintro ⟨pre, v, post, heq, hpre, hv, hpost⟩
    rcases pre with _ | ⟨x, pre⟩
    · obtain ⟨rfl, rfl⟩ := List.cons.inj heq
      exact ⟨hv, .inl hpost⟩
    · obtain ⟨rfl, rfl⟩ := List.cons.inj heq
      exact ⟨hpre u List.mem_cons_self,
        .inr ⟨pre, v, post, rfl, fun w hw => hpre w (List.mem_cons_of_mem _ hw), hv, hpost⟩⟩
  · rintro ⟨hu, hpost | ⟨pre, v, post, rfl, hpre, hv, hpost⟩⟩
    · exact ⟨[], u, lines, rfl, fun v hv => absurd hv List.not_mem_nil, hu, hpost⟩
    · refine ⟨u :: pre, v, post, rfl, ?_, hv, hpost⟩
      intro w hw
      rcases List.mem_cons.mp hw with rfl | hw
      · exact hu
      · exact hpre w hw

/-! ## A round -/

/-- The lines heard so far are as they are now, the others as they were before. -/
def Heard (before now : ι → Bool) (pre post : List ι) (d : Desk ι) : Prop :=
  (∀ u ∈ pre, d.heard u = now u) ∧ ∀ u ∈ post, d.heard u = before u

theorem heard_hear (lines : List ι) {pre post : List ι} {u : ι} {before now : ι → Bool} {d : Desk ι}
    (hnodup : (pre ++ u :: post).Nodup) (h : Heard before now pre (u :: post) d) :
    Heard before now (pre ++ [u]) post (d.hear lines now u) := by
  rw [List.nodup_append, List.nodup_cons] at hnodup
  constructor
  · intro v hv
    rcases List.mem_append.mp hv with hv | hv
    · have hne : v ≠ u := fun hvu => hnodup.2.2 v hv u List.mem_cons_self hvu
      exact (Function.update_of_ne hne _ _).trans (h.1 v hv)
    · rw [List.mem_singleton.mp hv]
      exact Function.update_self _ _ _
  · intro v hv
    have hne : v ≠ u := by
      rintro rfl
      exact hnodup.2.1.1 hv
    exact (Function.update_of_ne hne _ _).trans (h.2 v (List.mem_cons_of_mem _ hv))

theorem hear_turned {pre post : List ι} {u : ι} {before now : ι → Bool} {d : Desk ι}
    (h : Heard before now (pre ++ [u]) post (d.hear (pre ++ u :: post) now u)) :
    (d.hear (pre ++ u :: post) now u).turned = true ↔ d.turned = true ∨
      (d.up = false ∧ now u = true) ∨
      (d.up = true ∧ (∀ v ∈ pre, now v = false) ∧ now u = false ∧
        ∀ v ∈ post, before v = false) := by
  have hall : ((pre ++ u :: post).all fun v => !(Function.update d.heard u (now u)) v) = true ↔
      (∀ v ∈ pre, now v = false) ∧ now u = false ∧ ∀ v ∈ post, before v = false := by
    have hpre : ∀ v ∈ pre, Function.update d.heard u (now u) v = now v :=
      fun v hv => h.1 v (List.mem_append_left _ hv)
    have hpost : ∀ v ∈ post, Function.update d.heard u (now u) v = before v := h.2
    simp only [List.all_append, List.all_cons, Bool.and_eq_true, List.all_eq_true,
      Bool.not_eq_true', Function.update_self]
    apply and_congr
    · exact forall₂_congr fun v hv => by rw [hpre v hv]
    · apply and_congr Iff.rfl
      exact forall₂_congr fun v hv => by rw [hpost v hv]
  unfold Desk.hear
  simp only [Bool.or_eq_true]
  apply or_congr Iff.rfl
  cases hu : now u with
  | true => simp
  | false =>
    rw [hu] at hall
    simp only [Bool.false_eq_true, if_false, Bool.and_eq_true, hall, and_false, false_or]

/-- When a desk that was down, or up, turns as the rest of the lines are heard. -/
theorem foldl_hear {before now : ι → Bool} (pre : List ι) {post : List ι} {d : Desk ι}
    (hnodup : (pre ++ post).Nodup) (h : Heard before now pre post d) :
    let d' := post.foldl (Desk.hear (pre ++ post) now) d
    Heard before now (pre ++ post) [] d' ∧ d'.up = d.up ∧
    (d'.turned = true ↔ d.turned = true ∨
      (d.up = false ∧ ∃ u ∈ post, now u = true) ∨
      (d.up = true ∧ (∀ v ∈ pre, now v = false) ∧ Falls before now post)) := by
  induction post generalizing pre d with
  | nil =>
    refine ⟨by rwa [List.append_nil], rfl, ?_⟩
    simp [Falls]
  | cons u post ih =>
    have hassoc : pre ++ u :: post = (pre ++ [u]) ++ post := by simp
    have hstep := heard_hear (pre ++ u :: post) hnodup h
    have hrest := ih (pre ++ [u]) (hassoc ▸ hnodup) hstep
    rw [← hassoc] at hrest
    obtain ⟨h1, h2, h3⟩ := hrest
    refine ⟨h1, h2, h3.trans ?_⟩
    rw [hear_turned hstep, falls_cons]
    change ((_ ∨ _ ∨ _) ∨ (d.up = false ∧ _) ∨ (d.up = true ∧ _)) ↔ _
    have hpre : (∀ v ∈ pre ++ [u], now v = false) ↔ (∀ v ∈ pre, now v = false) ∧ now u = false := by
      simp [or_imp, forall_and]
    rw [hpre, List.exists_mem_cons_iff]
    cases d.up with
    | false => simp [or_assoc]
    | true => cases now u <;> simp [or_assoc, and_or_left]

/-- After a round the whole is up exactly when a line is on, unless the desk
was handed over. -/
theorem round_follows {lines : List ι} (now : ι → Bool) {d : Desk ι} (hsome : lines ≠ [])
    (hnodup : lines.Nodup) (hfresh : d.turned = false) (h : d.follows lines) :
    (∀ u ∈ lines, (d.round lines now).heard u = now u) ∧
      ((d.round lines now).follows lines ↔ ¬ HandsOver lines d.heard now) := by
  have hstart : Heard d.heard now [] lines d :=
    ⟨fun u hu => absurd hu List.not_mem_nil, fun _ _ => rfl⟩
  obtain ⟨⟨hheard, -⟩, hup, hturned⟩ := foldl_hear [] hnodup hstart
  simp only [List.nil_append] at hheard hup hturned
  refine ⟨hheard, ?_⟩
  have hround : (d.round lines now).up =
      (d.up ^^ (lines.foldl (Desk.hear lines now) d).turned) := congrArg (· ^^ _) hup
  have hsame : (∃ u ∈ lines, (d.round lines now).heard u = true) ↔ ∃ u ∈ lines, now u = true :=
    exists_congr fun u => and_congr_right fun hu =>
      by rw [show (d.round lines now).heard u = now u from hheard u hu]
  unfold Desk.follows at h ⊢
  rw [hsame, hround]
  generalize (lines.foldl (Desk.hear lines now) d).turned = turned at hturned
  rw [hfresh] at hturned
  cases hd : d.up with
  | false =>
    -- a desk that is down turns just when some line is on, and no line was on before
    have hoff : ¬ ∃ u ∈ lines, d.heard u = true := fun hon => by simp [h.mpr hon] at hd
    have hnot : ¬ HandsOver lines d.heard now := fun ho => hoff ho.1
    simp only [hd, Bool.false_eq_true, false_and, or_false, false_or, true_and] at hturned
    simp [hturned, hnot]
  | true =>
    have hon := h.mp hd
    simp only [hd, Bool.true_eq_false, Bool.false_eq_true, false_and, false_or, true_and,
      List.not_mem_nil, false_imp_iff, implies_true] at hturned
    by_cases hnow : ∃ u ∈ lines, now u = true
    · rw [falls_iff_handsOver hon hnow] at hturned
      simp [hnow, ← hturned]
    · have hall : ∀ u ∈ lines, now u = false := fun u hu => by
        rw [← Bool.not_eq_true]
        exact fun hu' => hnow ⟨u, hu, hu'⟩
      have hnot : ¬ HandsOver lines d.heard now := fun ho => hnow ho.2.1
      simp [hturned.mpr (falls_all_off hsome hall), hnow, hnot]

end desk
