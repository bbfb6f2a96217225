-- What picojson makes of a whole text (picojson/picojson.h): the texts it takes, the
-- line that it names where it takes none, and the escapes that stand for a string.
import StrangeIO.PicojsonValues

namespace picojson

open input strangeio.config

section
variable {N : Type} {t : number_text N}

/-! ## Where the reading stands -/

/-- So much of the text has been read, counting the character that may be put back. -/
structure Stands (s : bytes) (inp : input) (read : bytes) : Prop where
  split : s = read ++ inp.cur_
  line : inp.line_ = 1 + read.dropLast.count newline
  last : inp.last_ch_ = read.getLast? ∨ inp.last_ch_ = none ∧ inp.cur_ = []

theorem count_dropLast (read : bytes) :
    read.count newline =
      read.dropLast.count newline + if read.getLast? = some newline then 1 else 0 := by
  rcases List.eq_nil_or_concat read with rfl | ⟨init, ch, rfl⟩
  · rfl
  · by_cases hch : ch = newline
    · simp [hch]
    · simp [hch]

theorem Stands.step {s read : bytes} {inp next : input} (h : Stands s inp read)
    (hstep : input.step inp next) : ∃ read', Stands s next read' := by
  obtain ⟨cur, last, ungot, line, hu⟩ := inp
  obtain ⟨hsplit, hline, hlast⟩ := h
  simp only at hsplit hline hlast
  rcases hstep with rfl | hun
  · cases ungot with
    | true => exact ⟨read, hsplit, hline, hlast⟩
    | false =>
      cases cur with
      | nil => exact ⟨read, hsplit, hline, .inr ⟨rfl, rfl⟩⟩
      | cons ch rest =>
        refine ⟨read ++ [ch], by simp [hsplit, getc], ?_, .inl (by simp [getc])⟩
        have hgot : last = read.getLast? := by simpa using hlast
        simp only [getc, Bool.false_eq_true, if_false, List.dropLast_concat]
        rw [count_dropLast, hgot, hline]
        split
        · omega
        · rfl
  · unfold ungetc at hun
    split at hun
    · cases hun
      exact ⟨read, hsplit, hline, hlast⟩
    · split at hun
      · cases hun
      · cases hun
        exact ⟨read, hsplit, hline, hlast⟩

theorem Stands.left {s read : bytes} {inp : input} (h : Stands s inp read) :
    ∃ p k, k ≤ 1 ∧ s = p ++ inp.left ∧ read = p ++ inp.left.take k := by
  obtain ⟨cur, last, ungot, line, hu⟩ := inp
  obtain ⟨hsplit, -, hlast⟩ := h
  simp only at hsplit hlast
  cases ungot with
  | false => exact ⟨read, 0, Nat.zero_le _, hsplit, by simp⟩
  | true =>
    obtain ⟨ch, rfl⟩ := Option.ne_none_iff_exists'.mp (hu rfl)
    have hgot : read.getLast? = some ch := by simpa [eq_comm] using hlast
    obtain ⟨init, rfl⟩ := List.getLast?_eq_some_iff.mp hgot
    exact ⟨init, 1, Nat.le_refl _, by simp [hsplit, input.left], by simp [input.left]⟩

/-! ## The error -/

/-- The rest of the line, without its control characters. -/
def rest_of_line (s : bytes) : bytes :=
  (s.takeWhile (· ≠ newline)).filter (' '.toUInt8 ≤ ·)

theorem near_loop_spec {fuel : Nat} (near : bytes) {inp : input} (hfuel : inp.left.length < fuel) :
    near_loop fuel near inp = .ok (near ++ rest_of_line inp.left) := by
  induction fuel generalizing near inp with
  | zero => exact absurd hfuel (Nat.not_lt_zero _)
  | succ fuel ih =>
    unfold near_loop
    rcases getc_cases inp with ⟨n1, hget, hleft, -⟩ | ⟨ch, rest, n1, back, hget, hleft, hn1, -⟩
    · simp [hget, hleft, rest_of_line]
    · have hshort : n1.left.length < fuel := by
        rw [hleft, List.length_cons] at hfuel
        rw [hn1]
        omega
      have hgo (near : bytes) := ih near hshort
      by_cases hline : ch = newline
      · simp [hget, hleft, hline, rest_of_line]
      · by_cases hch : ' '.toUInt8 ≤ ch
        · simp [hget, hleft, hline, hch, hgo, hn1, rest_of_line]
        · simp [hget, hleft, hline, hch, hgo, hn1, rest_of_line]

theorem append_ne_empty {a : String} (h : a ≠ "") (b c d : String) : a ++ b ++ c ++ d ≠ "" := by
  simp [h]

theorem syntax_error_ne (line : Nat) (near : bytes) : syntax_error line near ≠ "" :=
  append_ne_empty (by simp) _ _ _

/-! ## What is made of a text -/

theorem parse_outcome (t : number_text N) (s : bytes) :
    Outcome (input.new s) (reads_value t (input.new s))
    (_parse t (2 * s.length + 1) .null (input.new s)) :=
  (parts_end (2 * s.length + 1)).1 .null (input.new s) .null (Nat.le_refl _)

theorem parse_of_reads {s r : bytes} {v : value N} (h : Reads t (.value v) s r) :
    parse t s = .ok ("", v) := by
  obtain ⟨next, hparse, -⟩ := h.accepts (2 * s.length + 1) .null (input.new s) rfl (Nat.le_refl _)
  unfold parse
  simp [hparse]

theorem reads_of_parse {s : bytes} {v : value N} (h : parse t s = .ok ("", v)) :
    ∃ r, Reads t (.value v) s r := by
  unfold parse at h
  rcases parse_outcome t s with hover | ⟨ok, w, next, hparse, -, -, -, hok⟩
  · rw [hover] at h
    cases h
  · rw [hparse] at h
    cases ok with
    | true =>
      cases h
      exact ⟨next.left, hok rfl⟩
    | false =>
      simp only [fallible.ok_bind, Bool.false_eq_true, if_false] at h
      rw [near_loop_spec _ (Nat.lt_succ_self _)] at h
      simp only [fallible.ok_bind, Except.ok.injEq, Prod.mk.injEq] at h
      exact absurd h.1 (syntax_error_ne _ _)

/-- The parser reports no error and gives a value just where the text begins, after white
space, with a text of that value. -/
theorem the_parser_takes_the_grammar (t : number_text N) (s : bytes) (v : value N) :
    parse t s = .ok ("", v) ↔ ∃ r, Reads t (.value v) s r := by
  constructor
  · exact reads_of_parse
  · rintro ⟨r, h⟩
    exact parse_of_reads h

/-- The four digits of a number. -/
def hex4 (n : Nat) : bytes :=
  [hex_of (n / 4096 % 16), hex_of (n / 256 % 16), hex_of (n / 16 % 16), hex_of (n % 16)]

def escape_unit (n : Nat) : bytes := '\\'.toUInt8 :: 'u'.toUInt8 :: hex4 n

/-- The UTF-16 of a character. -/
def utf16 (c : Char) : List Nat :=
  if c.toNat < 0x10000 then [c.toNat]
  else [0xd800 + (c.toNat - 0x10000) / 0x400, 0xdc00 + (c.toNat - 0x10000) % 0x400]

theorem hex_digit_hex_of : ∀ digit < 16, hex_digit (hex_of digit) = some digit := by decide

theorem quad_hex4 {n : Nat} (hn : n < 0x10000) : Quad (hex4 n) n := by
  have hdigit (k : Nat) : hex_digit (hex_of (k % 16)) = some (k % 16) :=
    hex_digit_hex_of _ (Nat.mod_lt _ (by decide))
  refine ⟨rfl, ?_⟩
  unfold hex4
  simp only [hex_from_cons, hdigit, Option.bind_some]
  simp only [hex_from, List.foldlM_nil, pure, Option.some.injEq]
  omega

/-- Four digits that a text begins with are the ones that were written there. -/
theorem Quad.of_hex4 {h r s : bytes} {n m : Nat} (hq : Quad h m) (hn : n < 0x10000)
    (heq : hex4 n ++ s = h ++ r) : m = n ∧ s = r := by
  obtain ⟨rfl, rfl⟩ := List.append_inj heq hq.1.symm
  have hsame := hq.2.symm.trans (quad_hex4 hn).2
  simp only [Option.some.injEq] at hsame
  exact ⟨hsame, rfl⟩

/-- A code point after the escape of a unit is that unit, or the first one of a pair. -/
theorem CodePoint.units {n : Nat} {us : List Nat} {r : bytes} {c : Char} (hn : n < 0x10000)
    (hus : ∀ m ∈ us, m < 0x10000)
    (h : CodePoint (hex4 n ++ (us.flatMap escape_unit ++ ['"'.toUInt8])) c r) :
    ∃ us', n :: us = utf16 c ++ us' ∧ r = us'.flatMap escape_unit ++ ['"'.toUInt8] := by
  generalize hs : hex4 n ++ (us.flatMap escape_unit ++ ['"'.toUInt8]) = s at h
  cases h with
  | @one h r m hq hm =>
    obtain ⟨rfl, rfl⟩ := hq.of_hex4 hn hs
    have hvalid : m.isValidChar := by
      simp only [Nat.isValidChar]
      omega
    refine ⟨us, ?_, rfl⟩
    unfold utf16
    rw [toNat_ofNat hvalid, if_pos hn]
    rfl
  | @pair h l r hi lo hh hhi hl hlo =>
    obtain ⟨rfl, hrest⟩ := hh.of_hex4 hn hs
    cases us with
    | nil => cases hrest
    | cons k us =>
      have hk : hex4 k ++ (us.flatMap escape_unit ++ ['"'.toUInt8]) = l ++ r := by
        simpa [escape_unit] using hrest
      obtain ⟨rfl, rfl⟩ := hl.of_hex4 (hus k List.mem_cons_self) hk
      have hvalid : (0x10000 + (hi - 0xd800) * 0x400 + (lo - 0xdc00)).isValidChar := by
        simp only [Nat.isValidChar]
        omega
      refine ⟨us, ?_, rfl⟩
      unfold utf16
      rw [toNat_ofNat hvalid, if_neg (by omega)]
      have hfirst :
          0xd800 + (0x10000 + (hi - 0xd800) * 0x400 + (lo - 0xdc00) - 0x10000) / 0x400 = hi := by
        omega
      have hsecond :
          0xdc00 + (0x10000 + (hi - 0xd800) * 0x400 + (lo - 0xdc00) - 0x10000) % 0x400 = lo := by
        omega
      rw [hfirst, hsecond]
      rfl

theorem codePoint_utf16 (c : Char) (s : bytes) :
    ∃ t, CodePoint t c s ∧
      (utf16 c).flatMap escape_unit ++ s = '\\'.toUInt8 :: 'u'.toUInt8 :: t := by
  have hvalid := c.valid
  simp only [UInt32.isValidChar, Nat.isValidChar] at hvalid
  change c.toNat < _ ∨ _ < c.toNat ∧ c.toNat < _ at hvalid
  have hsame : Char.ofNat c.toNat = c := Char.ofNat_toNat c
  unfold utf16
  by_cases hc : c.toNat < 0x10000
  · rw [if_pos hc]
    refine ⟨hex4 c.toNat ++ s, ?_, by simp [escape_unit]⟩
    have hone := CodePoint.one (r := s) (quad_hex4 hc) (by omega)
    rwa [hsame] at hone
  · rw [if_neg hc]
    have hpair := CodePoint.pair (r := s)
      (quad_hex4 (n := 0xd800 + (c.toNat - 0x10000) / 0x400) (by omega)) (by omega)
      (quad_hex4 (n := 0xdc00 + (c.toNat - 0x10000) % 0x400) (by omega)) (by omega)
    have hcode : 0x10000 + (0xd800 + (c.toNat - 0x10000) / 0x400 - 0xd800) * 0x400 +
        (0xdc00 + (c.toNat - 0x10000) % 0x400 - 0xdc00) = c.toNat := by
      omega
    rw [hcode, hsame] at hpair
    exact ⟨_, hpair, by simp [escape_unit]⟩

/-- A string of escapes is the UTF-8 of the characters whose UTF-16 the escapes are. -/
theorem chars_units {us : List Nat} (hus : ∀ n ∈ us, n < 0x10000) (bs : bytes) :
    (∃ r, Chars (us.flatMap escape_unit ++ ['"'.toUInt8]) bs r) ↔
      ∃ cs : List Char, us = cs.flatMap utf16 ∧ bs = cs.flatMap String.utf8EncodeChar := by
  constructor
  · rintro ⟨r, h⟩
    generalize hs : us.flatMap escape_unit ++ ['"'.toUInt8] = s at h
    induction h generalizing us with
    | done =>
      cases us with
      | nil => exact ⟨[], rfl, rfl⟩
      | cons n us => cases hs
    | plain hch hquote hslash =>
      cases us with
      | nil => exact absurd (List.cons.inj hs).1.symm hquote
      | cons n us => exact absurd (List.cons.inj hs).1.symm hslash
    | escape hval =>
      cases us with
      | nil => cases hs
      | cons n us =>
        have hu := (List.cons.inj (List.cons.inj hs).2).1
        subst hu
        cases hval
    | @code_point c s t bs r hc _ ih =>
      cases us with
      | nil => cases hs
      | cons n us =>
        have hrest : hex4 n ++ (us.flatMap escape_unit ++ ['"'.toUInt8]) = s := by
          simpa [escape_unit] using hs
        subst hrest
        obtain ⟨us', hsplit, rfl⟩ := hc.units (hus n List.mem_cons_self)
          fun m hm => hus m (List.mem_cons_of_mem _ hm)
        have hus' : ∀ m ∈ us', m < 0x10000 := by
          intro m hm
          refine hus m ?_
          rw [hsplit]
          exact List.mem_append_right _ hm
        obtain ⟨cs, rfl, rfl⟩ := ih hus' rfl
        exact ⟨c :: cs, by rw [hsplit, List.flatMap_cons], by rw [List.flatMap_cons]⟩
  · rintro ⟨cs, rfl, rfl⟩
    refine ⟨[], ?_⟩
    clear hus
    induction cs with
    | nil => exact .done
    | cons c cs ih =>
      obtain ⟨t, hc, ht⟩ :=
        codePoint_utf16 c ((cs.flatMap utf16).flatMap escape_unit ++ ['"'.toUInt8])
      rw [List.flatMap_cons, List.flatMap_append, List.append_assoc, ht, List.flatMap_cons]
      exact .code_point hc ih

theorem skipped_quote (s : bytes) : skipped ('"'.toUInt8 :: s) = '"'.toUInt8 :: s := by
  rw [skipped_cons, if_neg (by decide)]

/-- What is read from a quote on is a string. -/
theorem Reads.quoted {s r : bytes} {v : value N} (h : Reads t (.value v) ('"'.toUInt8 :: s) r) :
    ∃ cs, v = .string (text cs) ∧ Chars s cs r := by
  have hother {ch : UInt8} {u : bytes} (hne : '"'.toUInt8 ≠ ch)
      (hs : skipped ('"'.toUInt8 :: s) = ch :: u) : False := by
    rw [skipped_quote] at hs
    exact hne (List.cons.inj hs).1
  cases h with
  | null h => exact (hother (by decide) h).elim
  | no h => exact (hother (by decide) h).elim
  | yes h => exact (hother (by decide) h).elim
  | string h hc =>
    rw [skipped_quote] at h
    obtain ⟨-, rfl⟩ := List.cons.inj h
    exact ⟨_, rfl, hc⟩
  | number h hu _ =>
    obtain ⟨ch, hch, hfirst⟩ := hu.head
    obtain ⟨u', rfl⟩ := List.head?_eq_some_iff.mp hch
    refine (hother ?_ h).elim
    rintro rfl
    exact absurd hfirst (by decide)
  | empty_array h _ => exact (hother (by decide) h).elim
  | array h _ => exact (hother (by decide) h).elim
  | empty_object h _ => exact (hother (by decide) h).elim
  | object h _ => exact (hother (by decide) h).elim

/-- A string of `\u` escapes is read just where they are the UTF-16 of some characters,
and then as the UTF-8 of these: surrogates that do not pair are an error. -/
theorem escapes_are_utf16 (t : number_text N) {us : List Nat} (hus : ∀ n ∈ us, n < 0x10000)
    (v : value N) :
    parse t ('"'.toUInt8 :: (us.flatMap escape_unit ++ ['"'.toUInt8])) = .ok ("", v) ↔
      ∃ cs : List Char, us = cs.flatMap utf16 ∧
        v = .string (text (cs.flatMap String.utf8EncodeChar)) := by
  constructor
  · intro h
    obtain ⟨r, hreads⟩ := reads_of_parse h
    obtain ⟨bs, rfl, hchars⟩ := hreads.quoted
    obtain ⟨cs, hus, rfl⟩ := (chars_units hus bs).mp ⟨r, hchars⟩
    exact ⟨cs, hus, rfl⟩
  · rintro ⟨cs, rfl, rfl⟩
    obtain ⟨r, h⟩ := (chars_units hus _).mpr ⟨cs, rfl, rfl⟩
    exact parse_of_reads (.string (skipped_quote _) h)

/-- Numbers of one digit. -/
def one_digit : number_text (Fin 10) where
  strtod bs := if bs.head?.any is_digit then (Fin.ofNat 10 (bs.headD 0).toNat - 8, 1) else (0, 0)
  finite _ := true
  snprintf x := [hex_of x]

theorem escapes_are_utf16_pair :
    parse one_digit ('"'.toUInt8 :: ([0xd83d, 0xde00].flatMap escape_unit ++ ['"'.toUInt8])) =
      .ok ("", .string (text (String.utf8EncodeChar (Char.ofNat 0x1f600)))) :=
  (escapes_are_utf16 one_digit (show ∀ n ∈ [0xd83d, 0xde00], n < 0x10000 by decide) _).mpr
    ⟨[Char.ofNat 0x1f600], by decide, by simp⟩

end

end picojson
