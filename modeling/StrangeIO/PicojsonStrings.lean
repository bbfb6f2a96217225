-- The strings that picojson reads (picojson/picojson.h): their grammar, in which an
-- escaped code point stands for its UTF-8, and that the parser reads just these.
import StrangeIO.PicojsonInput

namespace picojson

open input

/-! ## Code points -/

theorem or_eq_add {a b : Nat} (i k : Nat) (ha : a = 2 ^ i * k) (hb : b < 2 ^ i) :
    a ||| b = b + a := by
  rw [ha, ← Nat.two_pow_add_eq_or_of_lt hb, Nat.add_comm]

theorem and_mod (a : Nat) : a &&& 0x3f = a % 64 := Nat.and_two_pow_sub_one_eq_mod a 6

theorem tail_byte (a : Nat) : 0x80 ||| a % 64 = a % 64 + 128 :=
  or_eq_add 7 1 rfl (Nat.lt_trans (Nat.mod_lt _ (by decide)) (by decide))

/-- What is pushed back for a code point is its UTF-8. -/
theorem push_code_point_eq (c : Char) : push_code_point c.toNat = String.utf8EncodeChar c := by
  have hlt : c.toNat < 0x110000 := by
    have h := c.valid
    simp only [UInt32.isValidChar, Nat.isValidChar] at h
    change c.val.toNat < _
    omega
  unfold push_code_point String.utf8EncodeChar
  have hv : c.val.toNat = c.toNat := rfl
  simp only [Nat.shiftRight_eq_div_pow, and_mod, tail_byte, hv]
  generalize c.toNat = v at hlt ⊢
  have hle (m : Nat) : v ≤ m ↔ v < m + 1 := Nat.lt_succ_iff.symm
  simp only [hle]
  by_cases h1 : v < 0x80
  · rw [if_pos h1, if_pos h1]
  rw [if_neg h1, if_neg h1]
  by_cases h2 : v < 0x800
  · have hlead : 0xc0 ||| v / 2 ^ 6 = v / 64 % 32 + 192 := by
      refine (or_eq_add 6 3 rfl (by omega)).trans ?_
      omega
    rw [if_pos h2, if_pos h2, hlead]
    rfl
  rw [if_neg h2, if_neg h2]
  by_cases h3 : v < 0x10000
  · have hlead : 0xe0 ||| v / 2 ^ 12 = v / 4096 % 16 + 224 := by
      refine (or_eq_add 5 7 rfl (by omega)).trans ?_
      omega
    rw [if_pos h3, if_pos h3, hlead]
    rfl
  · have hlead : 0xf0 ||| v / 2 ^ 18 = v / 262144 % 8 + 240 := by
      refine (or_eq_add 4 15 rfl (by omega)).trans ?_
      omega
    rw [if_neg h3, if_neg h3, hlead]
    rfl

/-! ## Hexadecimal digits -/

/-- The number that the digits go on to, from the number before them. -/
def hex_from (n : Nat) (h : bytes) : Option Nat :=
  h.foldlM (fun n hex => (hex_digit hex).map fun digit => n * 16 + digit) n

/-- Four digits, and the number that they stand for. -/
def Quad (h : bytes) (n : Nat) : Prop := h.length = 4 ∧ hex_from 0 h = some n

theorem hex_digit_lt {hex : UInt8} {digit : Nat} (h : hex_digit hex = some digit) : digit < 16 := by
  simp only [hex_digit, UInt8.le_iff_toNat_le] at h
  have h0 : '0'.toUInt8.toNat = 48 := rfl
  have h9 : '9'.toUInt8.toNat = 57 := rfl
  have hA : 'A'.toUInt8.toNat = 65 := rfl
  have hF : 'F'.toUInt8.toNat = 70 := rfl
  have ha : 'a'.toUInt8.toNat = 97 := rfl
  have hf : 'f'.toUInt8.toNat = 102 := rfl
  have h0' : '0'.toNat = 48 := rfl
  have hA' : 'A'.toNat = 65 := rfl
  have ha' : 'a'.toNat = 97 := rfl
  rw [h0, h9, hA, hF, ha, hf, h0', hA', ha'] at h
  split at h
  · cases h
    omega
  · split at h
    · cases h
      omega
    · split at h
      · cases h
        omega
      · cases h

theorem hex_from_cons (n : Nat) (hex : UInt8) (h : bytes) :
    hex_from n (hex :: h) = (hex_digit hex).bind fun digit => hex_from (n * 16 + digit) h := by
  unfold hex_from
  rw [List.foldlM_cons]
  cases hex_digit hex <;> rfl

theorem hex_from_lt {h : bytes} {n m k : Nat} (hn : n < k) (hm : hex_from n h = some m) :
    m < k * 16 ^ h.length := by
  induction h generalizing n k with
  | nil =>
    cases hm
    simpa using hn
  | cons hex h ih =>
    rw [hex_from_cons] at hm
    obtain ⟨digit, hdigit, hrest⟩ := Option.bind_eq_some_iff.mp hm
    have hlt := hex_digit_lt hdigit
    have hnext := ih (n := n * 16 + digit) (k := k * 16) (by omega) hrest
    rwa [List.length_cons, Nat.pow_succ', ← Nat.mul_assoc]

theorem Quad.lt {h : bytes} {n : Nat} (hq : Quad h n) : n < 0x10000 := by
  have hlt := hex_from_lt (Nat.zero_lt_one) hq.2
  rw [hq.1] at hlt
  exact hlt

theorem quadhex_loop_spec (i n : Nat) (inp : input) :
    ∃ uni_ch next, quadhex_loop i n inp = .ok (uni_ch, next) ∧ Moves inp next ∧
      next.left.length ≤ inp.left.length ∧
      ∀ m, uni_ch = some m → ∃ h, h.length = i ∧ hex_from n h = some m ∧
        inp.left = h ++ next.left := by
  induction i generalizing n inp with
  | zero =>
    refine ⟨some n, inp, rfl, Moves.refl _, Nat.le_refl _, ?_⟩
    rintro m ⟨⟩
    exact ⟨[], rfl, rfl, rfl⟩
  | succ i ih =>
    unfold quadhex_loop
    rcases getc_cases inp with ⟨next, hget, hleft, hnext, hun, hmoves⟩ |
      ⟨hex, rest, next, back, hget, hleft, hnext, hun, hback, hmoves, hmoves'⟩
    · exact ⟨none, next, by simp [hget], hmoves, by simp [hnext], by simp⟩
    · cases hdigit : hex_digit hex with
      | none =>
        exact ⟨none, back, by simp [hget, hdigit, hun], hmoves', by rw [hback, hleft], by simp⟩
      | some digit =>
        obtain ⟨uni_ch, last, hlast, hm, hle, hsome⟩ := ih (n * 16 + digit) next
        refine ⟨uni_ch, last, by simp [hget, hdigit, hlast], hmoves.trans hm, ?_, ?_⟩
        · rw [hleft, List.length_cons, ← hnext]
          omega
        · intro m hm
          obtain ⟨h, hlen, hfrom, heq⟩ := hsome m hm
          refine ⟨hex :: h, by rw [List.length_cons, hlen], ?_, ?_⟩
          · rw [hex_from_cons, hdigit]
            exact hfrom
          · rw [hleft, ← hnext, heq]
            rfl

theorem quadhex_loop_of {h : bytes} {n m : Nat} {inp : input} {r : bytes}
    (hm : hex_from n h = some m) (hleft : inp.left = h ++ r) :
    ∃ next, quadhex_loop h.length n inp = .ok (some m, next) ∧ next.left = r := by
  induction h generalizing n inp with
  | nil =>
    cases hm
    exact ⟨inp, rfl, hleft⟩
  | cons hex h ih =>
    rw [hex_from_cons] at hm
    obtain ⟨digit, hdigit, hrest⟩ := Option.bind_eq_some_iff.mp hm
    obtain ⟨next, -, hget, hnext, -⟩ := getc_cons hleft
    obtain ⟨last, hlast, hr⟩ := ih hrest hnext
    refine ⟨last, ?_, hr⟩
    rw [List.length_cons]
    unfold quadhex_loop
    simp [hget, hdigit, hlast]

/-! ## Escaped code points -/

/-- The text after `\u` that stands for a character: four digits, or two numbers for a
pair of surrogates. A surrogate by itself stands for nothing. -/
inductive CodePoint : bytes → Char → bytes → Prop
  | one {h r : bytes} {n : Nat} (hq : Quad h n) (hn : n < 0xd800 ∨ 0xdfff < n) :
      CodePoint (h ++ r) (Char.ofNat n) r
  | pair {h l r : bytes} {hi lo : Nat} (hh : Quad h hi) (hhi : 0xd800 ≤ hi ∧ hi < 0xdc00)
      (hl : Quad l lo) (hlo : 0xdc00 ≤ lo ∧ lo ≤ 0xdfff) :
      CodePoint (h ++ '\\'.toUInt8 :: 'u'.toUInt8 :: (l ++ r))
        (Char.ofNat (0x10000 + (hi - 0xd800) * 0x400 + (lo - 0xdc00))) r

theorem join_surrogates_eq {hi lo : Nat} (hlo : 0xdc00 ≤ lo ∧ lo ≤ 0xdfff) :
    join_surrogates hi lo = 0x10000 + (hi - 0xd800) * 0x400 + (lo - 0xdc00) := by
  unfold join_surrogates
  have hmask : (lo - 0xdc00) &&& 0x3ff = lo - 0xdc00 := by
    rw [Nat.and_two_pow_sub_one_eq_mod _ 10]
    omega
  have hor : (hi - 0xd800) <<< 10 ||| (lo - 0xdc00) = (lo - 0xdc00) + (hi - 0xd800) <<< 10 :=
    or_eq_add 10 (hi - 0xd800) (by rw [Nat.shiftLeft_eq, Nat.mul_comm]) (by omega)
  rw [hmask, hor, Nat.shiftLeft_eq]
  omega

theorem toNat_ofNat {n : Nat} (h : n.isValidChar) : (Char.ofNat n).toNat = n := by
  unfold Char.ofNat
  rw [dif_pos h]
  rfl

theorem push_valid {n : Nat} (h : n.isValidChar) :
    push_code_point n = String.utf8EncodeChar (Char.ofNat n) := by
  rw [← push_code_point_eq, toNat_ofNat h]

theorem parse_codepoint_spec (out : bytes) (inp : input) :
    ∃ ok out' next, _parse_codepoint out inp = .ok (ok, out', next) ∧ Moves inp next ∧
      next.left.length ≤ inp.left.length ∧
      (ok = true → ∃ c, out' = out ++ String.utf8EncodeChar c ∧
        CodePoint inp.left c next.left) := by
  obtain ⟨uni_ch, next, hquad, hm, hle, hsome⟩ := quadhex_loop_spec 4 0 inp
  unfold _parse_codepoint _parse_quadhex
  simp only [hquad, fallible.ok_bind]
  rcases uni_ch with _ | hi
  · exact ⟨false, out, next, rfl, hm, hle, by simp⟩
  obtain ⟨h, hlen, hfrom, hleft⟩ := hsome hi rfl
  have hhi := Quad.lt ⟨hlen, hfrom⟩
  by_cases hsur : 0xd800 ≤ hi ∧ hi ≤ 0xdfff
  · simp only [hsur, and_self, if_true]
    by_cases hsecond : 0xdc00 ≤ hi
    · exact ⟨false, out, next, by simp [hsecond], hm, hle, by simp⟩
    simp only [hsecond, if_false]
    rcases getc_cases next with ⟨n1, hget1, -, hn1, hun1, hm1⟩ |
      ⟨ch, r1, n1, b1, hget1, hleft1, hn1, hun1, hb1, hm1, hm1'⟩
    · exact ⟨false, out, n1, by simp [hget1, hun1], hm.trans hm1, by simp [hn1], by simp⟩
    have hle1 : r1.length + 1 ≤ inp.left.length := by rw [hleft1] at hle; exact hle
    by_cases hch : ch = '\\'.toUInt8
    swap
    · exact ⟨false, out, b1, by simp [hget1, hun1, hch], hm.trans hm1', by simpa [hb1] using hle1,
        by simp⟩
    subst hch
    rcases getc_cases n1 with ⟨n2, hget2, -, hn2, hun2, hm2⟩ |
      ⟨ch, r2, n2, b2, hget2, hleft2, hn2, hun2, hb2, hm2, hm2'⟩
    · exact ⟨false, out, n2, by simp [hget1, hget2, hun2], (hm.trans hm1).trans hm2, by simp [hn2],
        by simp⟩
    have hle2 : r2.length + 1 ≤ r1.length := by rw [← hn1, hleft2]; exact Nat.le_refl _
    by_cases hu : ch = 'u'.toUInt8
    swap
    · refine ⟨false, out, b2, by simp [hget1, hget2, hun2, hu],
        (hm.trans hm1).trans hm2', ?_, by simp⟩
      rw [hb2, List.length_cons]
      omega
    subst hu
    obtain ⟨second, n3, hquad3, hm3, hle3, hsome3⟩ := quadhex_loop_spec 4 0 n2
    have hmoves : Moves inp n3 := ((hm.trans hm1).trans hm2).trans hm3
    have hshort : n3.left.length ≤ inp.left.length := by rw [hn2] at hle3; omega
    rcases second with _ | lo
    · exact ⟨false, out, n3, by simp [hget1, hget2, hquad3], hmoves, hshort, by simp⟩
    obtain ⟨l, hlenl, hfroml, hleft3⟩ := hsome3 lo rfl
    by_cases hlo : 0xdc00 ≤ lo ∧ lo ≤ 0xdfff
    · refine ⟨true, out ++ push_code_point (join_surrogates hi lo), n3,
        by simp [hget1, hget2, hquad3, hlo], hmoves, hshort, ?_⟩
      intro _
      have hvalid : (0x10000 + (hi - 0xd800) * 0x400 + (lo - 0xdc00)).isValidChar := by
        simp only [Nat.isValidChar]
        omega
      refine ⟨_, by rw [join_surrogates_eq hlo, push_valid hvalid], ?_⟩
      have htext : inp.left = h ++ '\\'.toUInt8 :: 'u'.toUInt8 :: (l ++ n3.left) := by
        rw [hleft, hleft1, ← hn1, hleft2, ← hn2, hleft3]
      rw [htext]
      exact .pair ⟨hlen, hfrom⟩ ⟨hsur.1, by omega⟩ ⟨hlenl, hfroml⟩ hlo
    · exact ⟨false, out, n3, by simp [hget1, hget2, hquad3, hlo], hmoves, hshort, by simp⟩
  · refine ⟨true, out ++ push_code_point hi, next, by simp [hsur], hm, hle, ?_⟩
    intro _
    have hone : hi < 0xd800 ∨ 0xdfff < hi := by omega
    have hvalid : hi.isValidChar := by
      simp only [Nat.isValidChar]
      omega
    refine ⟨_, by rw [push_valid hvalid], ?_⟩
    rw [hleft]
    exact .one ⟨hlen, hfrom⟩ hone

theorem parse_codepoint_of {s r : bytes} {c : Char} (h : CodePoint s c r)
    (out : bytes) {inp : input}
    (hleft : inp.left = s) :
    ∃ next, _parse_codepoint out inp = .ok (true, out ++ String.utf8EncodeChar c, next) ∧
      next.left = r := by
  unfold _parse_codepoint _parse_quadhex
  cases h with
  | @one h r n hq hn =>
    obtain ⟨next, hquad, hnext⟩ := quadhex_loop_of hq.2 hleft
    have hlt := hq.lt
    have hvalid : n.isValidChar := by
      simp only [Nat.isValidChar]
      omega
    rw [hq.1] at hquad
    refine ⟨next, ?_, hnext⟩
    simp only [hquad, fallible.ok_bind]
    rw [if_neg (by omega), push_valid hvalid]
  | @pair h l r hi lo hh hhi hl hlo =>
    obtain ⟨n0, hquad, hn0⟩ := quadhex_loop_of hh.2 hleft
    obtain ⟨n1, -, hget1, hn1, -⟩ := getc_cons hn0
    obtain ⟨n2, -, hget2, hn2, -⟩ := getc_cons hn1
    obtain ⟨n3, hquad3, hn3⟩ := quadhex_loop_of hl.2 hn2
    have hvalid : (0x10000 + (hi - 0xd800) * 0x400 + (lo - 0xdc00)).isValidChar := by
      simp only [Nat.isValidChar]
      omega
    rw [hh.1] at hquad
    rw [hl.1] at hquad3
    refine ⟨n3, ?_, hn3⟩
    simp only [hquad, fallible.ok_bind]
    rw [if_pos (by omega), if_neg (by omega)]
    simp [hget1, hget2, hquad3, hlo, join_surrogates_eq hlo, push_valid hvalid]

/-! ## Strings -/

/-- The text of a string after its first quote, and the bytes that it stands for. -/
inductive Chars : bytes → bytes → bytes → Prop
  | done {r : bytes} : Chars ('"'.toUInt8 :: r) [] r
  | plain {ch : UInt8} {s cs r : bytes} (hch : ¬ ch < ' '.toUInt8) (hquote : ch ≠ '"'.toUInt8)
      (hslash : ch ≠ '\\'.toUInt8) : Chars s cs r → Chars (ch :: s) (ch :: cs) r
  | escape {ch val : UInt8} {s cs r : bytes} (hval : escaped ch = some val) :
      Chars s cs r → Chars ('\\'.toUInt8 :: ch :: s) (val :: cs) r
  | code_point {c : Char} {s t cs r : bytes} (hc : CodePoint s c t) :
      Chars t cs r → Chars ('\\'.toUInt8 :: 'u'.toUInt8 :: s) (String.utf8EncodeChar c ++ cs) r

theorem parse_string_loop_spec {fuel : Nat} (out : bytes) {inp : input}
    (hfuel : inp.left.length < fuel) :
    ∃ ok out' next, parse_string_loop fuel out inp = .ok (ok, out', next) ∧ Moves inp next ∧
      next.left.length ≤ inp.left.length ∧
      (ok = true → ∃ cs, out' = out ++ cs ∧ Chars inp.left cs next.left) := by
  induction fuel generalizing out inp with
  | zero => exact absurd hfuel (Nat.not_lt_zero _)
  | succ fuel ih =>
    unfold parse_string_loop
    rcases getc_cases inp with ⟨n1, hget, hleft, hn1, hun, hm⟩ |
      ⟨ch, r1, n1, b1, hget, hleft, hn1, hun, hb1, hm, hm'⟩
    · exact ⟨false, out, n1, by simp [hget, hun], hm, by simp [hn1], by simp⟩
    rw [hleft, List.length_cons] at hfuel
    by_cases hctl : ch < ' '.toUInt8
    · exact ⟨false, out, b1, by simp [hget, hun, hctl], hm', by rw [hb1, hleft], by simp⟩
    by_cases hquote : ch = '"'.toUInt8
    · subst hquote
      refine ⟨true, out, n1, by simp [hget, hctl], hm,
        by rw [hn1, hleft, List.length_cons]; omega, ?_⟩
      intro _
      refine ⟨[], by simp, ?_⟩
      rw [hleft, hn1]
      exact .done
    -- what the loop goes on with after one character of the string
    have hgo : ∀ (out1 : bytes) (n2 : input), n2.left.length < fuel → ∃ ok out' next,
        parse_string_loop fuel out1 n2 = .ok (ok, out', next) ∧ Moves n2 next ∧
          next.left.length ≤ n2.left.length ∧
          (ok = true → ∃ cs, out' = out1 ++ cs ∧ Chars n2.left cs next.left) :=
      fun out1 n2 h => ih out1 h
    by_cases hslash : ch = '\\'.toUInt8
    swap
    · obtain ⟨ok, out', next, hloop, hml, hle, hok⟩ := hgo (out ++ [ch]) n1 (by rw [hn1]; omega)
      refine ⟨ok, out', next, by simp [hget, hctl, hquote, hslash, hloop], hm.trans hml, ?_, ?_⟩
      · rw [hleft, List.length_cons, ← hn1]
        omega
      · intro h
        obtain ⟨cs, hout, hchars⟩ := hok h
        refine ⟨ch :: cs, by rw [hout, List.append_assoc]; rfl, ?_⟩
        rw [hleft, ← hn1]
        exact .plain hctl hquote hslash hchars
    subst hslash
    rcases getc_cases n1 with ⟨n2, hget2, -, hn2, -, hm2⟩ |
      ⟨ch, r2, n2, b2, hget2, hleft2, hn2, -, -, hm2, -⟩
    · exact ⟨false, out, n2, by simp [hget, hctl, hquote, hget2], hm.trans hm2,
        by simp [hn2], by simp⟩
    have hr1 : r1.length = n2.left.length + 1 := by rw [hn2, ← hn1, hleft2, List.length_cons]
    have hlen : n2.left.length + 2 = inp.left.length := by rw [hleft, List.length_cons, hr1]
    by_cases hu : ch = 'u'.toUInt8
    · subst hu
      obtain ⟨ok, out1, n3, hcode, hm3, hle3, hok3⟩ := parse_codepoint_spec out n2
      cases ok with
      | false =>
        exact ⟨false, out1, n3, by simp [hget, hctl, hquote, hget2, hcode],
          (hm.trans hm2).trans hm3, by omega, by simp⟩
      | true =>
        obtain ⟨c, hout1, hpoint⟩ := hok3 rfl
        obtain ⟨ok, out', next, hloop, hml, hle, hok⟩ := hgo out1 n3 (by omega)
        refine ⟨ok, out', next, by simp [hget, hctl, hquote, hget2, hcode, hloop],
          ((hm.trans hm2).trans hm3).trans hml, by omega, ?_⟩
        intro h
        obtain ⟨cs, hout, hchars⟩ := hok h
        refine ⟨String.utf8EncodeChar c ++ cs, by rw [hout, hout1, List.append_assoc], ?_⟩
        rw [hleft, ← hn1, hleft2, ← hn2]
        exact .code_point hpoint hchars
    · cases hval : escaped ch with
      | none =>
        exact ⟨false, out, n2, by simp [hget, hctl, hquote, hget2, hu, hval],
          hm.trans hm2, by omega,
          by simp⟩
      | some val =>
        obtain ⟨ok, out', next, hloop, hml, hle, hok⟩ := hgo (out ++ [val]) n2 (by omega)
        refine ⟨ok, out', next, by simp [hget, hctl, hquote, hget2, hu, hval, hloop],
          (hm.trans hm2).trans hml, by omega, ?_⟩
        intro h
        obtain ⟨cs, hout, hchars⟩ := hok h
        refine ⟨val :: cs, by rw [hout, List.append_assoc]; rfl, ?_⟩
        rw [hleft, ← hn1, hleft2, ← hn2]
        exact .escape hval hchars

theorem CodePoint.length_lt {s r : bytes} {c : Char} (h : CodePoint s c r) :
    r.length < s.length := by
  cases h with
  | one hq _ =>
    rw [List.length_append, hq.1]
    omega
  | pair _ _ _ _ =>
    simp only [List.length_append, List.length_cons]
    omega

theorem Chars.length_lt {s cs r : bytes} (h : Chars s cs r) : r.length < s.length := by
  induction h with
  | done => exact Nat.lt_succ_self _
  | plain _ _ _ _ ih => exact Nat.lt_succ_of_lt ih
  | escape _ _ ih =>
    simp only [List.length_cons]
    omega
  | code_point hc _ ih =>
    have := hc.length_lt
    simp only [List.length_cons]
    omega

theorem parse_string_loop_of {s cs r : bytes} (h : Chars s cs r) {fuel : Nat} (out : bytes)
    {inp : input} (hleft : inp.left = s) (hfuel : s.length < fuel) :
    ∃ next, parse_string_loop fuel out inp = .ok (true, out ++ cs, next) ∧ next.left = r := by
  have hslash : ¬ '\\'.toUInt8 < ' '.toUInt8 := by decide
  have hslash' : '\\'.toUInt8 ≠ '"'.toUInt8 := by decide
  have hquote : ¬ '"'.toUInt8 < ' '.toUInt8 := by decide
  induction h generalizing fuel out inp with
  | done =>
    obtain ⟨fuel, rfl⟩ := Nat.exists_eq_succ_of_ne_zero (Nat.ne_zero_of_lt hfuel)
    obtain ⟨next, -, hget, hnext, -⟩ := getc_cons hleft
    unfold parse_string_loop
    exact ⟨next, by simp [hget, hquote], hnext⟩
  | @plain ch s cs r hch hq hs _ ih =>
    obtain ⟨fuel, rfl⟩ := Nat.exists_eq_succ_of_ne_zero (Nat.ne_zero_of_lt hfuel)
    obtain ⟨n1, -, hget, hn1, -⟩ := getc_cons hleft
    obtain ⟨next, hloop, hnext⟩ := ih (out ++ [ch]) hn1 (Nat.lt_of_succ_lt_succ hfuel)
    unfold parse_string_loop
    exact ⟨next, by simp [hget, hch, hq, hs, hloop], hnext⟩
  | @escape ch val s cs r hval _ ih =>
    obtain ⟨fuel, rfl⟩ := Nat.exists_eq_succ_of_ne_zero (Nat.ne_zero_of_lt hfuel)
    obtain ⟨n1, -, hget, hn1, -⟩ := getc_cons hleft
    obtain ⟨n2, -, hget2, hn2, -⟩ := getc_cons hn1
    have hshort : s.length < fuel := by
      simp only [List.length_cons] at hfuel
      omega
    obtain ⟨next, hloop, hnext⟩ := ih (out ++ [val]) hn2 hshort
    have hu : ch ≠ 'u'.toUInt8 := by
      rintro rfl
      have hnone : escaped 'u'.toUInt8 = none := by decide
      rw [hnone] at hval
      cases hval
    unfold parse_string_loop
    exact ⟨next, by simp [hget, hslash, hslash', hget2, hu, hval, hloop], hnext⟩
  | @code_point c s t cs r hc _ ih =>
    obtain ⟨fuel, rfl⟩ := Nat.exists_eq_succ_of_ne_zero (Nat.ne_zero_of_lt hfuel)
    obtain ⟨n1, -, hget, hn1, -⟩ := getc_cons hleft
    obtain ⟨n2, -, hget2, hn2, -⟩ := getc_cons hn1
    obtain ⟨n3, hcode, hn3⟩ := parse_codepoint_of hc out hn2
    have hshort : t.length < fuel := by
      have := hc.length_lt
      simp only [List.length_cons] at hfuel
      omega
    obtain ⟨next, hloop, hnext⟩ := ih (out ++ String.utf8EncodeChar c) hn3 hshort
    unfold parse_string_loop
    exact ⟨next, by simp [hget, hslash, hslash', hget2, hcode, hloop], hnext⟩

theorem parse_string_spec (inp : input) :
    ∃ ok cs next, _parse_string inp = .ok (ok, cs, next) ∧ Moves inp next ∧
      next.left.length ≤ inp.left.length ∧ (ok = true → Chars inp.left cs next.left) := by
  obtain ⟨ok, cs, next, hloop, hm, hle, hok⟩ := parse_string_loop_spec []
    (Nat.lt_succ_self inp.left.length)
  refine ⟨ok, cs, next, hloop, hm, hle, ?_⟩
  intro h
  obtain ⟨cs', rfl, hchars⟩ := hok h
  exact hchars

theorem parse_string_of {inp : input} {cs r : bytes} (h : Chars inp.left cs r) :
    ∃ next, _parse_string inp = .ok (true, cs, next) ∧ next.left = r :=
  parse_string_loop_of h [] rfl (Nat.lt_succ_self _)

end picojson
