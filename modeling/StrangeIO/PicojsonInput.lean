-- How picojson reads its input (picojson/picojson.h): what is left of the text
-- after each call, and that a character is only put back right after it was read.
import Mathlib.Data.List.DropRight
import Mathlib.Logic.Relation
import StrangeIO.Picojson

namespace picojson.input

/-! ## One character -/

def step (inp next : input) : Prop := next = inp.getc.2 ∨ inp.ungetc = .ok next

/-- Characters are read and put back. -/
def Moves : input → input → Prop := Relation.ReflTransGen step

theorem Moves.refl (inp : input) : Moves inp inp := Relation.ReflTransGen.refl

theorem Moves.trans {inp mid next : input} (h : Moves inp mid) (g : Moves mid next) :
    Moves inp next := Relation.ReflTransGen.trans h g

/-- What every step keeps, the moves keep. -/
theorem Moves.keeps {P : input → Prop} (hstep : ∀ inp next, P inp → step inp next → P next)
    {inp next : input} (h : Moves inp next) (hp : P inp) : P next := by
  induction h with
  | refl => exact hp
  | tail _ hs ih => exact hstep _ _ ih hs

/-- At the end of the text nothing is read, and nothing is put back. In front of it the
next character is, and it can be put back. -/
theorem getc_cases (inp : input) :
    (∃ next, inp.getc = (none, next) ∧ inp.left = [] ∧ next.left = [] ∧ next.ungetc = .ok next ∧
      Moves inp next) ∨
    ∃ ch rest next back, inp.getc = (some ch, next) ∧ inp.left = ch :: rest ∧ next.left = rest ∧
      next.ungetc = .ok back ∧ back.left = ch :: rest ∧ Moves inp next ∧ Moves inp back := by
  have hstep : Moves inp inp.getc.2 := Relation.ReflTransGen.single (.inl rfl)
  have hback : ∀ back, inp.getc.2.ungetc = .ok back → Moves inp back :=
    fun back h => Relation.ReflTransGen.tail hstep (.inr h)
  obtain ⟨cur, last, ungot, line, hu⟩ := inp
  cases ungot with
  | true =>
    obtain ⟨ch, rfl⟩ := Option.ne_none_iff_exists'.mp (hu rfl)
    exact .inr ⟨ch, cur, _, _, rfl, rfl, rfl, rfl, rfl, hstep, hback _ rfl⟩
  | false =>
    cases cur with
    | nil => exact .inl ⟨_, rfl, rfl, rfl, rfl, hstep⟩
    | cons ch rest => exact .inr ⟨ch, rest, _, _, rfl, rfl, rfl, rfl, rfl, hstep, hback _ rfl⟩

theorem getc_cons {inp : input} {ch : UInt8} {rest : bytes} (h : inp.left = ch :: rest) :
    ∃ next back, inp.getc = (some ch, next) ∧ next.left = rest ∧ next.ungetc = .ok back ∧
      back.left = ch :: rest := by
  rcases getc_cases inp with ⟨next, -, hleft, -⟩
    | ⟨ch', rest', next, back, hget, hleft, hnext, hun, hback, -⟩
  · rw [h] at hleft
    cases hleft
  · rw [h] at hleft
    cases hleft
    exact ⟨next, back, hget, hnext, hun, hback⟩

/-! ## White space and single characters -/

/-- The text without the white space that it begins with. -/
def skipped (s : bytes) : bytes := s.dropWhile is_ws

theorem skipped_cons (ch : UInt8) (rest : bytes) :
    skipped (ch :: rest) = if is_ws ch then skipped rest else ch :: rest := by
  unfold skipped
  rw [List.dropWhile_cons]

theorem skipped_length_le (s : bytes) : (skipped s).length ≤ s.length :=
  (List.dropWhile_sublist _).length_le

theorem skipped_skipped (s : bytes) : skipped (skipped s) = skipped s :=
  List.dropWhile_idempotent is_ws s

theorem skip_ws_loop_spec {fuel : Nat} {inp : input} (h : inp.left.length < fuel) :
    ∃ next, skip_ws_loop fuel inp = .ok next ∧ next.left = skipped inp.left ∧ Moves inp next := by
  induction fuel generalizing inp with
  | zero => exact absurd h (Nat.not_lt_zero _)
  | succ fuel ih =>
    unfold skip_ws_loop
    rcases getc_cases inp with ⟨next, hget, hleft, hnext, hun, hmoves⟩ |
      ⟨ch, rest, next, back, hget, hleft, hnext, hun, hback, hmoves, hmoves'⟩
    · rw [hget]
      exact ⟨next, hun, by rw [hleft, hnext]; rfl, hmoves⟩
    · rw [hget]
      simp only [Option.any_some]
      rw [hleft, skipped_cons]
      split
      · rw [hleft, List.length_cons] at h
        have hshort : next.left.length < fuel := by
          rw [hnext]
          omega
        obtain ⟨last, hlast, hskip, hm⟩ := ih hshort
        exact ⟨last, hlast, by rw [hskip, hnext], hmoves.trans hm⟩
      · exact ⟨back, hun, hback, hmoves'⟩

theorem skip_ws_spec (inp : input) :
    ∃ next, inp.skip_ws = .ok next ∧ next.left = skipped inp.left ∧ Moves inp next :=
  skip_ws_loop_spec (Nat.lt_succ_self _)

/-- The character is expected after white space, which is gone also where it does not come. -/
theorem expect_spec (expected : UInt8) (inp : input) :
    ∃ next, Moves inp next ∧
      ((inp.expect expected = .ok (true, next) ∧ skipped inp.left = expected :: next.left) ∨
        inp.expect expected = .ok (false, next) ∧ next.left = skipped inp.left ∧
          (skipped inp.left).head? ≠ some expected) := by
  obtain ⟨mid, hskip, hmid, hm⟩ := skip_ws_spec inp
  unfold expect
  simp only [hskip, fallible.ok_bind]
  rcases getc_cases mid with ⟨next, hget, hleft, hnext, hun, hmoves⟩ |
    ⟨ch, rest, next, back, hget, hleft, hnext, hun, hback, hmoves, hmoves'⟩
  · refine ⟨next, hm.trans hmoves, .inr ?_⟩
    rw [hmid] at hleft
    simp [hget, hun, hleft, hnext]
  · rw [hmid] at hleft
    by_cases hch : ch = expected
    · subst hch
      refine ⟨next, hm.trans hmoves, .inl ?_⟩
      simp [hget, hleft, hnext]
    · refine ⟨back, hm.trans hmoves', .inr ?_⟩
      simp [hget, hun, hleft, hback, hch]

theorem expect_true {expected : UInt8} {inp : input} {rest : bytes}
    (h : skipped inp.left = expected :: rest) :
    ∃ next, inp.expect expected = .ok (true, next) ∧ next.left = rest := by
  obtain ⟨next, -, ⟨hexp, hleft⟩ | ⟨-, -, hne⟩⟩ := expect_spec expected inp
  · rw [h] at hleft
    cases hleft
    exact ⟨next, hexp, rfl⟩
  · rw [h] at hne
    exact absurd rfl hne

theorem expect_false {expected : UInt8} {inp : input}
    (h : (skipped inp.left).head? ≠ some expected) :
    ∃ next, inp.expect expected = .ok (false, next) ∧ next.left = skipped inp.left := by
  obtain ⟨next, -, ⟨-, hleft⟩ | ⟨hexp, hleft, -⟩⟩ := expect_spec expected inp
  · rw [hleft] at h
    exact absurd rfl h
  · exact ⟨next, hexp, hleft⟩

theorem match_pattern_spec (pattern : bytes) (inp : input) :
    ∃ ok next, inp.match_pattern pattern = .ok (ok, next) ∧ Moves inp next ∧
      next.left.length ≤ inp.left.length ∧ (ok = true → inp.left = pattern ++ next.left) := by
  induction pattern generalizing inp with
  | nil => exact ⟨true, inp, rfl, Moves.refl _, Nat.le_refl _, by simp⟩
  | cons pi pattern ih =>
    unfold match_pattern
    rcases getc_cases inp with ⟨next, hget, hleft, hnext, hun, hmoves⟩ |
      ⟨ch, rest, next, back, hget, hleft, hnext, hun, hback, hmoves, hmoves'⟩
    · exact ⟨false, next, by simp [hget, hun], hmoves, by simp [hnext], by simp⟩
    · by_cases hch : ch = pi
      · subst hch
        obtain ⟨ok, last, hlast, hm, hle, hok⟩ := ih next
        refine ⟨ok, last, by simp [hget, hlast], hmoves.trans hm, ?_, ?_⟩
        · rw [hleft, List.length_cons, ← hnext]
          omega
        · intro h
          rw [hleft, ← hnext, hok h]
          rfl
      · exact ⟨false, back, by simp [hget, hun, hch], hmoves', by rw [hback, hleft], by simp⟩

theorem match_pattern_of {pattern r : bytes} {inp : input} (h : inp.left = pattern ++ r) :
    ∃ next, inp.match_pattern pattern = .ok (true, next) ∧ next.left = r := by
  induction pattern generalizing inp with
  | nil => exact ⟨inp, rfl, h⟩
  | cons pi pattern ih =>
    obtain ⟨n1, -, hget, hn1, -⟩ := getc_cons h
    obtain ⟨next, hmatch, hnext⟩ := ih hn1
    unfold match_pattern
    exact ⟨next, by simp [hget, hmatch], hnext⟩

end picojson.input
