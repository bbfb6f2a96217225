-- The texts that picojson writes (picojson/picojson.h): a text that was written is
-- read back as its value, and so is what the parser makes of any text.
import StrangeIO.PicojsonText

namespace picojson

open input strangeio.config

/-! ## Strings -/

/-- The escape of a character stands for it. -/
theorem escaped_escape_of {ch e : UInt8} (h : escape_of ch = some e) : escaped e = some ch := by
  unfold escape_of at h
  split_ifs at h
  all_goals
    cases h
    subst ch
    decide

theorem chars_control {ch : UInt8} {s cs r : bytes} (hch : ch < 0x20 ∨ ch = 0x7f)
    (h : Chars s cs r) : Chars (escape_unit ch.toNat ++ s) (ch :: cs) r := by
  have hlt : ch.toNat < 0x80 := by
    rcases hch with hch | rfl
    · have := UInt8.lt_iff_toNat_lt.mp hch
      have h20 : (0x20 : UInt8).toNat = 32 := rfl
      omega
    · decide
  have hvalid : ch.toNat.isValidChar := by
    simp only [Nat.isValidChar]
    omega
  have hone := CodePoint.one (r := s) (quad_hex4 (n := ch.toNat) (by omega)) (by omega)
  have hutf : String.utf8EncodeChar (Char.ofNat ch.toNat) = [ch] := by
    rw [← push_valid hvalid]
    unfold push_code_point
    rw [if_pos hlt, UInt8.ofNat_toNat]
  have hpoint := Chars.code_point hone h
  rw [hutf] at hpoint
  exact hpoint

theorem escape_unit_byte (ch : UInt8) :
    escape_unit ch.toNat = ['\\'.toUInt8, 'u'.toUInt8, '0'.toUInt8, '0'.toUInt8,
      hex_of (ch.toNat / 16), hex_of (ch.toNat % 16)] := by
  have hlt := ch.toNat_lt
  have h4096 : ch.toNat / 4096 % 16 = 0 := by omega
  have h256 : ch.toNat / 256 % 16 = 0 := by omega
  have h16 : ch.toNat / 16 % 16 = ch.toNat / 16 := by omega
  unfold escape_unit hex4
  rw [h4096, h256, h16]
  rfl

theorem chars_char (ch : UInt8) {s cs r : bytes} (h : Chars s cs r) :
    Chars (serialize_char ch ++ s) (ch :: cs) r := by
  unfold serialize_char
  cases he : escape_of ch with
  | some e => exact .escape (escaped_escape_of he) h
  | none =>
    by_cases hch : ch < 0x20 ∨ ch = 0x7f
    · rw [if_pos hch]
      rw [← escape_unit_byte]
      exact chars_control hch h
    · rw [if_neg hch]
      rw [not_or] at hch
      have hquote : ch ≠ '"'.toUInt8 := by
        rintro rfl
        cases he
      have hslash : ch ≠ '\\'.toUInt8 := by
        rintro rfl
        cases he
      exact .plain hch.1 hquote hslash h

theorem toUInt8_ofUInt8 (ch : UInt8) : (Char.ofUInt8 ch).toUInt8 = ch :=
  UInt8.toUInt8_toUInt32 ch

theorem text_toList (bs : bytes) : (text bs).toList = bs.map Char.ofUInt8 := by
  simp [text]

/-- What is written of a string is read as the string. -/
theorem chars_text (bs r : bytes) :
    ∃ u, serialize_str (text bs) ++ r = '"'.toUInt8 :: u ∧ Chars u bs r := by
  refine ⟨bs.flatMap serialize_char ++ '"'.toUInt8 :: r, ?_, ?_⟩
  · unfold serialize_str
    rw [text_toList]
    simp [List.flatMap_map, toUInt8_ofUInt8]
  · induction bs with
    | nil => exact .done
    | cons ch bs ih =>
      rw [List.flatMap_cons, List.append_assoc]
      exact chars_char ch ih

/-! ## White space -/

theorem skipped_ws {ws : bytes} (h : ∀ ch ∈ ws, is_ws ch = true) (s : bytes) :
    skipped (ws ++ s) = skipped s := by
  unfold skipped
  rw [List.dropWhile_append_of_pos h]

theorem skipped_indent (indent : Option Nat) (s : bytes) :
    skipped (_indent indent ++ s) = skipped s := by
  refine skipped_ws ?_ s
  intro ch hch
  cases indent with
  | none => cases hch
  | some indent =>
    rcases List.mem_cons.mp hch with rfl | hch
    · decide
    · rw [List.eq_of_mem_replicate hch]
      decide

theorem skipped_line_end (indent : Option Nat) (s : bytes) :
    skipped (line_end indent ++ s) = skipped s := by
  refine skipped_ws ?_ s
  intro ch hch
  unfold line_end at hch
  split at hch
  · rw [List.mem_singleton.mp hch]
    decide
  · cases hch

theorem skipped_char {ch : UInt8} (h : is_ws ch = false) (s : bytes) :
    skipped (ch :: s) = ch :: s := by
  rw [skipped_cons, if_neg (by simp [h])]

/-! ## Values -/

section
variable {N : Type} {t : number_text N}

/-- A value that can be written: the text of each number is read as the number, the
strings are of bytes, and the keys of each object are in order. -/
inductive Written (t : number_text N) : value N → Prop
  | null : Written t .null
  | boolean (b : Bool) : Written t (.boolean b)
  | number {x : N} (hx : Numeral t (t.snprintf x) x) : Written t (.number x)
  | string (bs : bytes) : Written t (.string (text bs))
  | array {vs : List (value N)} : (∀ v ∈ vs, Written t v) → Written t (.array vs)
  | object {o : List (String × value N)} (ho : key_order.Ordered o)
      (hkeys : ∀ e ∈ o, ∃ bs, e.1 = text bs) : (∀ e ∈ o, Written t e.2) → Written t (.object o)

/-- What does not go on with a number. -/
def Apart (r : bytes) : Prop := ∀ ch, r.head? = some ch → in_number ch = false

/-- The text of the value is read as the value, whatever stands behind it. -/
def ReadBack (t : number_text N) (v : value N) : Prop :=
  ∀ (indent : Option Nat) (r : bytes), Apart r →
    Reads t (.value v) (_serialize t v indent ++ r) (line_end indent ++ r)

theorem apart_cons {ch : UInt8} (h : in_number ch = false) (r : bytes) : Apart (ch :: r) := by
  intro ch' hch
  cases hch
  exact h

theorem apart_line_end (indent : Option Nat) {r : bytes} (h : Apart r) :
    Apart (line_end indent ++ r) := by
  unfold line_end
  split
  · exact apart_cons (by decide) r
  · exact h

theorem apart_indent (indent : Option Nat) {r : bytes} (h : Apart r) :
    Apart (_indent indent ++ r) := by
  cases indent with
  | none => exact h
  | some indent => exact apart_cons (by decide) _

/-- The items behind the first one have a comma before them. -/
theorem items_false (t : number_text N) (v : value N) (vs : List (value N)) (indent : Option Nat) :
    serialize_items t false (v :: vs) indent =
      ','.toUInt8 :: serialize_items t true (v :: vs) indent :=
  rfl

theorem members_false (t : number_text N) (e : String × value N) (o : List (String × value N))
    (indent : Option Nat) :
    serialize_members t false (e :: o) indent =
      ','.toUInt8 :: serialize_members t true (e :: o) indent :=
  rfl

theorem items_true (t : number_text N) (v : value N) (vs : List (value N)) (indent : Option Nat) :
    serialize_items t true (v :: vs) indent =
      _indent indent ++ (_serialize t v indent ++ serialize_items t false vs indent) := by
  rw [serialize_items, List.append_assoc, List.append_assoc]
  rfl

theorem members_true (t : number_text N) (e : String × value N) (o : List (String × value N))
    (indent : Option Nat) : serialize_members t true (e :: o) indent =
      _indent indent ++ (serialize_member t e indent ++ serialize_members t false o indent) := by
  rw [serialize_members, List.append_assoc, List.append_assoc]
  rfl

theorem apart_items (t : number_text N) (vs : List (value N)) (indent : Option Nat) {r : bytes}
    (h : Apart r) : Apart (serialize_items t false vs indent ++ r) := by
  cases vs with
  | nil => exact h
  | cons v vs => exact apart_cons (by decide) _

theorem apart_members (t : number_text N) (o : List (String × value N)) (indent : Option Nat)
    {r : bytes} (h : Apart r) : Apart (serialize_members t false o indent ++ r) := by
  cases o with
  | nil => exact h
  | cons e o => exact apart_cons (by decide) _

theorem elements_read_back {v : value N} {vs : List (value N)} (indent : Option Nat)
    {close r : bytes} (h : ∀ w ∈ v :: vs, ReadBack t w) (happart : Apart close)
    (hclose : skipped close = ']'.toUInt8 :: r) :
    Reads t (.elements (v :: vs)) (serialize_items t true (v :: vs) indent ++ close) r := by
  induction vs generalizing v with
  | nil =>
    have hv := h v List.mem_cons_self indent close happart
    rw [items_true, List.append_assoc, List.append_assoc]
    refine (Reads.last_element hv ?_).congr (skipped_indent indent _)
    rw [skipped_line_end, hclose]
  | cons w ws ih =>
    have hv := h v List.mem_cons_self indent _ (apart_items t (w :: ws) indent happart)
    have hrest := ih fun x hx => h x (List.mem_cons_of_mem _ hx)
    rw [items_true, List.append_assoc, List.append_assoc]
    refine (Reads.element hv ?_ hrest).congr (skipped_indent indent _)
    rw [skipped_line_end, items_false]
    exact skipped_char (by decide) _

/-- The text of a member begins with its key. -/
theorem key_member (bs : bytes) (v : value N) (indent : Option Nat) (r : bytes) :
    ∃ u, Key (serialize_member t (text bs, v) indent ++ r) (text bs) u ∧
      skipped u = skipped (_serialize t v indent ++ r) := by
  have hspace : ∀ ch ∈ (if indent.isSome then [' '.toUInt8] else []), is_ws ch = true := by
    intro ch hch
    split at hch
    · rw [List.mem_singleton.mp hch]
      decide
    · cases hch
  obtain ⟨u, hu, hchars⟩ := chars_text bs (':'.toUInt8 ::
    ((if indent.isSome then [' '.toUInt8] else []) ++ (_serialize t v indent ++ r)))
  refine ⟨_, ⟨bs, u, _, ?_, hchars, skipped_char (by decide) _, rfl⟩, skipped_ws hspace _⟩
  rw [serialize_member, List.append_assoc, List.append_assoc, List.cons_append, hu, skipped_quote]

theorem members_read_back (before : List (String × value N)) {e : String × value N}
    {o : List (String × value N)} (indent : Option Nat) {close r : bytes}
    (hord : key_order.Ordered (before ++ e :: o))
    (hkeys : ∀ e' ∈ e :: o, ∃ bs, e'.1 = text bs) (h : ∀ e' ∈ e :: o, ReadBack t e'.2)
    (happart : Apart close) (hclose : skipped close = '}'.toUInt8 :: r) :
    Reads t (.members before (before ++ e :: o))
      (serialize_members t true (e :: o) indent ++ close) r := by
  induction o generalizing e before with
  | nil =>
    obtain ⟨key, v⟩ := e
    obtain ⟨bs, rfl⟩ := hkeys _ List.mem_cons_self
    have hv := h _ List.mem_cons_self indent close happart
    obtain ⟨u, hkey, hu⟩ := key_member (t := t) bs v indent close
    have hlast : ∀ e ∈ before, e.1 < text bs := by
      intro e he
      exact (List.pairwise_append.mp hord).2.2 e he _ List.mem_cons_self
    rw [members_true, List.append_assoc, List.append_assoc, ← key_order.set_last v hlast]
    refine (Reads.last_member hkey (hv.congr hu) ?_).congr (skipped_indent indent _)
    rw [skipped_line_end, hclose]
  | cons e' o ih =>
    obtain ⟨key, v⟩ := e
    obtain ⟨bs, rfl⟩ := hkeys _ List.mem_cons_self
    have hv := h _ List.mem_cons_self indent _ (apart_members t (e' :: o) indent happart)
    obtain ⟨u, hkey, hu⟩ := key_member (t := t) bs v indent
      (serialize_members t false (e' :: o) indent ++ close)
    have hlast : ∀ e ∈ before, e.1 < text bs := by
      intro e he
      exact (List.pairwise_append.mp hord).2.2 e he _ List.mem_cons_self
    have hsplit : before ++ (text bs, v) :: e' :: o =
        key_order.set (text bs) v before ++ e' :: o := by
      rw [key_order.set_last v hlast, List.append_assoc]
      rfl
    rw [hsplit] at hord ⊢
    have hrest := ih _ hord (fun x hx => hkeys x (List.mem_cons_of_mem _ hx))
      fun x hx => h x (List.mem_cons_of_mem _ hx)
    rw [members_true, List.append_assoc, List.append_assoc]
    refine (Reads.member hkey (hv.congr hu) ?_ hrest).congr (skipped_indent indent _)
    rw [skipped_line_end, members_false]
    exact skipped_char (by decide) _

theorem Written.read_back {v : value N} (h : Written t v) : ReadBack t v := by
  induction h with
  | null =>
    intro indent r hr
    refine .null ?_
    rw [_serialize, List.append_assoc]
    exact skipped_char (by decide) _
  | boolean b =>
    intro indent r hr
    rw [_serialize, List.append_assoc]
    cases b with
    | false => exact .no (skipped_char (by decide) _)
    | true => exact .yes (skipped_char (by decide) _)
  | @number x hx =>
    intro indent r hr
    rw [_serialize, List.append_assoc]
    obtain ⟨ch, hch, hfirst⟩ := hx.head
    obtain ⟨u, hu⟩ := List.head?_eq_some_iff.mp hch
    have hws : is_ws ch = false := by
      refine Bool.eq_false_iff.mpr ?_
      intro hws
      simp only [is_ws, Bool.or_eq_true, decide_eq_true_eq] at hws
      rcases hws with ((rfl | rfl) | rfl) | rfl <;> exact absurd hfirst (by decide)
    refine .number ?_ hx (apart_line_end indent hr)
    rw [hu]
    exact skipped_char hws _
  | string bs =>
    intro indent r hr
    obtain ⟨u, hu, hchars⟩ := chars_text bs (line_end indent ++ r)
    rw [_serialize, List.append_assoc, hu]
    exact .string (skipped_quote u) hchars
  | @array vs _ ih =>
    intro indent r hr
    rw [_serialize, List.append_assoc, List.append_assoc, List.cons_append]
    cases vs with
    | nil => exact .empty_array (skipped_char (by decide) _) (skipped_char (by decide) _)
    | cons v vs =>
      have hclose : skipped (_indent indent ++ ([']'.toUInt8] ++ (line_end indent ++ r))) =
          ']'.toUInt8 :: (line_end indent ++ r) := by
        rw [skipped_indent]
        exact skipped_char (by decide) _
      have hitems := elements_read_back (indent.map (· + 1)) ih
        (apart_indent indent (apart_cons (by decide) _)) hclose
      refine .array (skipped_char (by decide) _) ?_
      simpa using hitems
  | @object o ho hkeys _ ih =>
    intro indent r hr
    rw [_serialize, List.append_assoc, List.append_assoc, List.cons_append]
    cases o with
    | nil => exact .empty_object (skipped_char (by decide) _) (skipped_char (by decide) _)
    | cons e o =>
      have hclose : skipped (_indent indent ++ (['}'.toUInt8] ++ (line_end indent ++ r))) =
          '}'.toUInt8 :: (line_end indent ++ r) := by
        rw [skipped_indent]
        exact skipped_char (by decide) _
      have hmembers := members_read_back [] (indent.map (· + 1)) ho hkeys ih
        (apart_indent indent (apart_cons (by decide) _)) hclose
      refine .object (skipped_char (by decide) _) ?_
      simpa using hmembers

theorem Written.reads {v : value N} (h : Written t v) (prettify : Bool) :
    ∃ r, Reads t (.value v) (serialize t v prettify) r := by
  have hend : Apart [] := by
    intro ch hch
    cases hch
  have hreads := h.read_back (if prettify then some 0 else none) [] hend
  rw [List.append_nil] at hreads
  exact ⟨_, hreads⟩

/-- Whatever can be written is read back from its text, with line breaks or without. -/
theorem what_is_written_is_read_back {v : value N} (h : Written t v) (prettify : Bool) :
    parse t (serialize t v prettify) = .ok ("", v) := by
  obtain ⟨r, hreads⟩ := h.reads prettify
  exact parse_of_reads hreads

/-- What a part of a text is read as. -/
def part.Good (t : number_text N) : part N → Prop
  | .value v => Written t v
  | .elements vs => ∀ v ∈ vs, Written t v
  | .members o o' => Written t (.object o) → Written t (.object o')

theorem written_set {o : List (String × value N)} {v : value N} (ho : Written t (.object o))
    (bs : bytes) (hv : Written t v) : Written t (.object (key_order.set (text bs) v o)) := by
  cases ho with
  | object hord hkeys hvs =>
    refine .object (hord.set _ v) ?_ ?_
    · intro e he
      rcases key_order.mem_set he with rfl | he
      · exact ⟨bs, rfl⟩
      · exact hkeys e he
    · intro e he
      rcases key_order.mem_set he with rfl | he
      · exact hv
      · exact hvs e he

/-- What is read can be written, if the numbers can. -/
theorem Reads.written (hnumber : ∀ x, t.finite x = true → Numeral t (t.snprintf x) x)
    {p : part N} {s r : bytes} (h : Reads t p s r) : p.Good t := by
  induction h with
  | null => exact .null
  | no => exact .boolean false
  | yes => exact .boolean true
  | string => exact .string _
  | number _ hu => exact .number (hnumber _ hu.finite)
  | empty_array => exact .array (by simp)
  | array _ _ ih => exact .array ih
  | empty_object => exact .object List.Pairwise.nil (by simp) (by simp)
  | object _ _ ih => exact ih (.object List.Pairwise.nil (by simp) (by simp))
  | last_element _ _ ih => exact List.forall_mem_singleton.mpr ih
  | element _ _ _ ih ihs => exact List.forall_mem_cons.mpr ⟨ih, ihs⟩
  | last_member hkey _ _ ih =>
    obtain ⟨cs, -, -, -, -, -, rfl⟩ := hkey
    intro ho
    exact written_set ho cs ih
  | member hkey _ _ _ ih ihs =>
    obtain ⟨cs, -, -, -, -, -, rfl⟩ := hkey
    intro ho
    exact ihs (written_set ho cs ih)

/-- A text that is read without an error, and written again, is read as the same value,
where the C library reads the text that it prints of a number as the number. -/
theorem a_text_is_kept_by_writing_it (hnumber : ∀ x, t.finite x = true → Numeral t (t.snprintf x) x)
    {s : bytes} {v : value N} (h : parse t s = .ok ("", v)) (prettify : Bool) :
    parse t (serialize t v prettify) = .ok ("", v) := by
  obtain ⟨r, hreads⟩ := reads_of_parse h
  have hwritten : Written t v := hreads.written hnumber
  obtain ⟨r', hback⟩ := hwritten.reads prettify
  exact parse_of_reads hback

end

/-! ## Single digits -/

theorem one_digit_printed (x : Fin 10) : Numeral one_digit (one_digit.snprintf x) x := by
  refine ⟨?_, ?_, ?_, rfl⟩
  · intro ch hch
    rw [List.mem_singleton.mp hch]
    clear hch
    revert x
    decide
  · refine ⟨hex_of x, rfl, .inl ?_⟩
    revert x
    decide
  · revert x
    decide

theorem written_object_is_read_back :
    parse one_digit (serialize one_digit
        (.object [("", .array [.number 7, .null]), ("k", .string (text [10, 34, 0x7f]))]) true) =
      .ok ("", .object
        [("", .array [.number 7, .null]), ("k", .string (text [10, 34, 0x7f]))]) := by
  refine what_is_written_is_read_back (.object ?_ ?_ ?_) true
  · refine List.pairwise_pair.mpr (String.lt_iff_toList_lt.mpr ?_)
    decide
  · simp
    exact ⟨⟨[], rfl⟩, ⟨['k'.toUInt8], rfl⟩⟩
  · simp
    refine ⟨.array ?_, .string _⟩
    simp
    exact ⟨.number (one_digit_printed 7), .null⟩

/-- The text is read to its bracket: `[ 7 ,"\/"] 7`. -/
theorem spaced_array_read :
    parse one_digit (['['.toUInt8, ' '.toUInt8, '7'.toUInt8, ' '.toUInt8, ','.toUInt8, '"'.toUInt8,
      '\\'.toUInt8, '/'.toUInt8, '"'.toUInt8, ']'.toUInt8, ' '.toUInt8, '7'.toUInt8]) =
      .ok ("", .array [.number 7, .string (text ['/'.toUInt8])]) := by
  have hnumber : Numeral one_digit ['7'.toUInt8] 7 := one_digit_printed 7
  have hstring := Reads.string (t := one_digit) (s := ['"'.toUInt8, '\\'.toUInt8, '/'.toUInt8,
    '"'.toUInt8, ']'.toUInt8, ' '.toUInt8, '7'.toUInt8]) rfl (.escape rfl .done)
  refine parse_of_reads
    (.array rfl (.element (.number rfl hnumber ?_) rfl (.last_element hstring rfl)))
  exact apart_cons (by decide) _

theorem spaced_array_is_kept : parse one_digit (serialize one_digit
    (.array [.number 7, .string (text ['/'.toUInt8])]) false) =
      .ok ("", .array [.number 7, .string (text ['/'.toUInt8])]) :=
  a_text_is_kept_by_writing_it (fun x _ => one_digit_printed x) spaced_array_read false

end picojson
