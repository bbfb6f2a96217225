-- The values that picojson reads (picojson/picojson.h): their grammar, and that the
-- parser accepts just the texts of it, gives their values and always ends.
import StrangeIO.PicojsonStrings

namespace picojson

open input strangeio.config

/-! ## The grammar -/

section
variable {N : Type} (t : number_text N)

/-- The text of a number that `strtod` takes as a whole. -/
structure Numeral (u : bytes) (x : N) : Prop where
  in_number : ∀ ch ∈ u, in_number ch = true
  head : ∃ ch, u.head? = some ch ∧ (is_digit ch = true ∨ ch = '-'.toUInt8)
  strtod : t.strtod u = (x, u.length)
  finite : t.finite x = true

/-- A key and the colon after it. -/
def Key (s : bytes) (key : String) (r : bytes) : Prop :=
  ∃ cs u v, skipped s = '"'.toUInt8 :: u ∧ Chars u cs v ∧ skipped v = ':'.toUInt8 :: r ∧
    key = text cs

/-- A value, the elements of an array after its bracket, or the members of an object
after its brace or a comma, which go into the entries of those before them. -/
inductive part (N : Type) where
  | value (v : value N)
  | elements (vs : List (value N))
  | members (before after : List (String × value N))

/-- The part is read from the beginning of the first text, and the second one is left. -/
inductive Reads : part N → bytes → bytes → Prop
  | null {s r : bytes} (h : skipped s = ['n', 'u', 'l', 'l'].map Char.toUInt8 ++ r) :
      Reads (.value .null) s r
  | no {s r : bytes} (h : skipped s = ['f', 'a', 'l', 's', 'e'].map Char.toUInt8 ++ r) :
      Reads (.value (.boolean false)) s r
  | yes {s r : bytes} (h : skipped s = ['t', 'r', 'u', 'e'].map Char.toUInt8 ++ r) :
      Reads (.value (.boolean true)) s r
  | string {s u cs r : bytes} (h : skipped s = '"'.toUInt8 :: u) (hc : Chars u cs r) :
      Reads (.value (.string (text cs))) s r
  | number {s u r : bytes} {x : N} (h : skipped s = u ++ r) (hu : Numeral t u x)
      (hr : ∀ ch, r.head? = some ch → in_number ch = false) : Reads (.value (.number x)) s r
  | empty_array {s u r : bytes} (h : skipped s = '['.toUInt8 :: u)
      (hu : skipped u = ']'.toUInt8 :: r) : Reads (.value (.array [])) s r
  | array {s u r : bytes} {vs : List (value N)} (h : skipped s = '['.toUInt8 :: u) :
      Reads (.elements vs) u r → Reads (.value (.array vs)) s r
  | empty_object {s u r : bytes} (h : skipped s = '{'.toUInt8 :: u)
      (hu : skipped u = '}'.toUInt8 :: r) : Reads (.value (.object [])) s r
  | object {s u r : bytes} {o : List (String × value N)} (h : skipped s = '{'.toUInt8 :: u) :
      Reads (.members [] o) u r → Reads (.value (.object o)) s r
  | last_element {s u r : bytes} {v : value N} : Reads (.value v) s u →
      skipped u = ']'.toUInt8 :: r → Reads (.elements [v]) s r
  | element {s u w r : bytes} {v : value N} {vs : List (value N)} : Reads (.value v) s u →
      skipped u = ','.toUInt8 :: w → Reads (.elements vs) w r → Reads (.elements (v :: vs)) s r
  | last_member {s u w r : bytes} {key : String} {v : value N} {o : List (String × value N)}
      (hkey : Key s key u) : Reads (.value v) u w → skipped w = '}'.toUInt8 :: r →
        Reads (.members o (key_order.set key v o)) s r
  | member {s u w w' r : bytes} {key : String} {v : value N} {o o' : List (String × value N)}
      (hkey : Key s key u) : Reads (.value v) u w → skipped w = ','.toUInt8 :: w' →
        Reads (.members (key_order.set key v o) o') w' r → Reads (.members o o') s r

variable {t}

/-- The white space before a part makes no difference to it. -/
theorem Reads.congr {p : part N} {s s' r : bytes} (h : Reads t p s r)
    (hs : skipped s' = skipped s) :
    Reads t p s' r := by
  have hkey {key : String} {s s' u : bytes} (hs : skipped s' = skipped s) :
      Key s key u → Key s' key u := by
    rintro ⟨cs, u, v, h, hc, hv, rfl⟩
    exact ⟨cs, u, v, hs.trans h, hc, hv, rfl⟩
  induction h with
  | null h => exact .null (hs.trans h)
  | no h => exact .no (hs.trans h)
  | yes h => exact .yes (hs.trans h)
  | string h hc => exact .string (hs.trans h) hc
  | number h hu hr => exact .number (hs.trans h) hu hr
  | empty_array h hu => exact .empty_array (hs.trans h) hu
  | array h hvs => exact .array (hs.trans h) hvs
  | empty_object h hu => exact .empty_object (hs.trans h) hu
  | object h ho => exact .object (hs.trans h) ho
  | last_element _ hu ih => exact .last_element (ih hs) hu
  | element _ hu hvs ih => exact .element (ih hs) hu hvs
  | last_member hk hv hu => exact .last_member (hkey hs hk) hv hu
  | member hk hv hu ho => exact .member (hkey hs hk) hv hu ho

variable (t)

/-! ## Numbers -/

theorem parse_number_loop_spec {fuel : Nat} (num_str : bytes) {inp : input}
    (hfuel : inp.left.length < fuel) :
    ∃ next, parse_number_loop fuel num_str inp =
        .ok (num_str ++ inp.left.takeWhile in_number, next) ∧ Moves inp next ∧
      next.left = inp.left.dropWhile in_number := by
  induction fuel generalizing num_str inp with
  | zero => exact absurd hfuel (Nat.not_lt_zero _)
  | succ fuel ih =>
    unfold parse_number_loop
    rcases getc_cases inp with ⟨n1, hget, hleft, hn1, hun, hm⟩ |
      ⟨ch, r1, n1, b1, hget, hleft, hn1, hun, hb1, hm, hm'⟩
    · exact ⟨n1, by simp [hget, hun, hleft], hm, by simp [hleft, hn1]⟩
    · cases hch : in_number ch with
      | false =>
        exact ⟨b1, by simp [hget, hun, hleft, hch], hm', by simp [hleft, hb1, hch]⟩
      | true =>
        rw [hleft, List.length_cons] at hfuel
        have hshort : n1.left.length < fuel := by
          rw [hn1]
          omega
        obtain ⟨next, hloop, hml, hnext⟩ := ih (num_str ++ [ch]) hshort
        refine ⟨next, ?_, hm.trans hml, ?_⟩
        · simp [hget, hch, hloop, hleft, hn1]
        · rw [hnext, hn1, hleft, List.dropWhile_cons_of_pos hch]

theorem parse_number_spec (inp : input) :
    ∃ next, _parse_number inp = .ok (inp.left.takeWhile in_number, next) ∧ Moves inp next ∧
      next.left = inp.left.dropWhile in_number :=
  parse_number_loop_spec [] (Nat.lt_succ_self _)

/-- A numeral is all of the characters of a number that the text begins with. -/
theorem Numeral.takeWhile {u r : bytes} {x : N} (hu : Numeral t u x)
    (hr : ∀ ch, r.head? = some ch → picojson.in_number ch = false) :
    (u ++ r).takeWhile picojson.in_number = u ∧ (u ++ r).dropWhile picojson.in_number = r := by
  have hfirst : r.takeWhile picojson.in_number = [] ∧ r.dropWhile picojson.in_number = r := by
    cases r with
    | nil => exact ⟨rfl, rfl⟩
    | cons ch r =>
      have hch : ¬ picojson.in_number ch = true := by simp [hr ch rfl]
      exact ⟨List.takeWhile_cons_of_neg hch, List.dropWhile_cons_of_neg hch⟩
  rw [List.takeWhile_append_of_pos hu.in_number, List.dropWhile_append_of_pos hu.in_number,
    hfirst.1, hfirst.2, List.append_nil]
  exact ⟨rfl, rfl⟩

/-! ## What a call gives -/

/-- The call throws for a number that is too large, or ends: its value has the keys of
its objects in order, and where the result is true, that is `good`. -/
def Outcome (inp : input) (good : value N → bytes → Prop)
    (result : Except stop (Bool × value N × input)) : Prop :=
  result = .error .overflow_error ∨ ∃ ok v next, result = .ok (ok, v, next) ∧ Moves inp next ∧
    next.left.length ≤ inp.left.length ∧ v.Ordered ∧ (ok = true → good v next.left)

variable {t} {inp mid : input} {good : value N → bytes → Prop}
  {result : Except stop (Bool × value N × input)}

theorem Outcome.fails {v : value N} {next : input} (hm : Moves inp next)
    (hle : next.left.length ≤ inp.left.length) (hv : v.Ordered) :
    Outcome inp good (.ok (false, v, next)) :=
  .inr ⟨false, v, next, rfl, hm, hle, hv, by simp⟩

theorem Outcome.gives {v : value N} {next : input} (hm : Moves inp next)
    (hle : next.left.length ≤ inp.left.length) (hv : v.Ordered) (hgood : good v next.left) :
    Outcome inp good (.ok (true, v, next)) :=
  .inr ⟨true, v, next, rfl, hm, hle, hv, fun _ => hgood⟩

/-- A call goes on where another one has stopped. -/
theorem Outcome.goes_on {good' : value N → bytes → Prop} (h : Outcome mid good' result)
    (hm : Moves inp mid) (hle : mid.left.length ≤ inp.left.length)
    (hgood : ∀ v r, good' v r → good v r) : Outcome inp good result := by
  rcases h with h | ⟨ok, v, next, h, hmoves, hshort, hv, hok⟩
  · exact .inl h
  · exact .inr ⟨ok, v, next, h, hm.trans hmoves, hshort.trans hle, hv, fun ht => hgood _ _ (hok ht)⟩

theorem literal_spec {pattern : List Char} {v out : value N} (hm : Moves inp mid)
    (hle : mid.left.length ≤ inp.left.length) (hv : v.Ordered) (hout : out.Ordered)
    (hgood : ∀ r, mid.left = pattern.map Char.toUInt8 ++ r → good v r) :
    Outcome inp good (literal pattern v out mid) := by
  obtain ⟨ok, next, hmatch, hmoves, hshort, hok⟩ :=
    match_pattern_spec (pattern.map Char.toUInt8) mid
  unfold literal
  cases ok with
  | false =>
    simp only [hmatch, fallible.ok_bind]
    exact .fails (hm.trans hmoves) (hshort.trans hle) hout
  | true =>
    simp only [hmatch, fallible.ok_bind]
    exact .gives (hm.trans hmoves) (hshort.trans hle) hv (hgood _ (hok rfl))

theorem in_number_of_first {ch : UInt8} (h : is_digit ch = true ∨ ch = '-'.toUInt8) :
    in_number ch = true := by
  rcases h with h | rfl
  · simp [in_number, h]
  · decide

/-- The first character of a number is read, and it is put back and read again. -/
theorem number_spec {ch : UInt8} {back : input} {out : value N} {rest : bytes} (hout : out.Ordered)
    (hback : mid.ungetc = .ok back) (hm : Moves inp back) (hleft : back.left = ch :: rest)
    (hle : back.left.length ≤ inp.left.length) (hch : is_digit ch = true ∨ ch = '-'.toUInt8)
    (hgood : ∀ u r x, ch :: rest = u ++ r → Numeral t u x →
      (∀ c, r.head? = some c → in_number c = false) → good (.number x) r) :
    Outcome inp good (number t out mid) := by
  obtain ⟨next, hnumber, hmoves, hnext⟩ := parse_number_spec back
  have hcons : (ch :: rest).takeWhile in_number = ch :: rest.takeWhile in_number :=
    List.takeWhile_cons_of_pos (in_number_of_first hch)
  have hshort : next.left.length ≤ inp.left.length := by
    rw [hnext]
    exact (List.dropWhile_sublist _).length_le.trans hle
  have hall : Moves inp next := hm.trans hmoves
  unfold number
  simp only [hback, fallible.ok_bind, hnumber]
  rw [hleft] at hnext ⊢
  rw [hcons, if_neg (List.cons_ne_nil _ _), ← hcons]
  have hgrammar (htaken : (t.strtod ((ch :: rest).takeWhile in_number)).2 =
      ((ch :: rest).takeWhile in_number).length)
      (hfinite : t.finite (t.strtod ((ch :: rest).takeWhile in_number)).1 = true) :
      good (.number (t.strtod ((ch :: rest).takeWhile in_number)).1) next.left := by
    apply hgood ((ch :: rest).takeWhile in_number)
    · rw [hnext, List.takeWhile_append_dropWhile]
    · exact ⟨fun c hc => List.mem_takeWhile_imp hc, ⟨ch, by rw [hcons]; rfl, hch⟩,
        Prod.ext rfl htaken, hfinite⟩
    · intro c hc
      rw [hnext] at hc
      have hnot := List.head?_dropWhile_not in_number (ch :: rest)
      rw [hc] at hnot
      simpa using hnot
  split
  · rename_i htaken
    split
    · rename_i hfinite
      exact .gives hall hshort (.number _) (hgrammar htaken hfinite)
    · exact .inl rfl
  · exact .fails hall hshort hout

/-! ## What the parser accepts -/

/-- What is good of a value that is read after `inp`. -/
def reads_value (t : number_text N) (inp : input) (v : value N) (r : bytes) : Prop :=
  Reads t (.value v) inp.left r

def reads_elements (t : number_text N) (inp : input) (a : List (value N))
    (v : value N) (r : bytes) :
    Prop := ∃ vs, v = .array (a ++ vs) ∧ Reads t (.elements vs) inp.left r

def reads_members (t : number_text N) (inp : input) (o : List (String × value N)) (v : value N)
    (r : bytes) : Prop := ∃ o', v = .object o' ∧ Reads t (.members o o') inp.left r

/-- The parser ends on every text that is no longer than its fuel allows. -/
def EndsWithin (t : number_text N) (fuel : Nat) : Prop :=
  ∀ (out : value N) (inp : input), out.Ordered → 2 * inp.left.length + 1 ≤ fuel →
    Outcome inp (reads_value t inp) (_parse t fuel out inp)

theorem ordered_snoc {a : List (value N)} {v : value N} (ha : (value.array a).Ordered)
    (hv : v.Ordered) : (value.array (a ++ [v])).Ordered := by
  cases ha with
  | array ha =>
    refine .array fun x hx => ?_
    rcases List.mem_append.mp hx with hx | hx
    · exact ha x hx
    · rw [List.mem_singleton.mp hx]
      exact hv

theorem array_items_step {fuel : Nat} (hparse : EndsWithin t fuel)
    (hitems : ∀ (a : List (value N)) (inp : input), (value.array a).Ordered →
      2 * inp.left.length + 2 ≤ fuel → Outcome inp (reads_elements t inp a)
      (array_items t fuel a inp))
    {a : List (value N)} {inp : input} (ha : (value.array a).Ordered)
    (hfuel : 2 * inp.left.length + 2 ≤ fuel + 1) :
    Outcome inp (reads_elements t inp a) (array_items t (fuel + 1) a inp) := by
  unfold array_items
  rcases hparse .null inp .null (by omega) with hover | ⟨ok, v, n1, hv, hm1, hle1, hord, hok⟩
  · rw [hover]
    exact .inl rfl
  simp only [hv, fallible.ok_bind]
  have ha' := ordered_snoc ha hord
  cases ok with
  | false => exact .fails hm1 hle1 ha'
  | true =>
    have hread := hok rfl
    simp only [if_true]
    obtain ⟨n2, hm2, ⟨hcomma, hleft2⟩ | ⟨hcomma, hleft2, -⟩⟩ := expect_spec ','.toUInt8 n1
    · simp only [hcomma, fallible.ok_bind, if_true]
      have hshort : n2.left.length < n1.left.length := by
        have := skipped_length_le n1.left
        rw [hleft2, List.length_cons] at this
        omega
      refine (hitems (a ++ [v]) n2 ha' (by omega)).goes_on (hm1.trans hm2) (by omega) ?_
      rintro w r ⟨vs, rfl, hvs⟩
      exact ⟨v :: vs, by rw [List.append_assoc]; rfl, .element hread hleft2 hvs⟩
    · simp only [hcomma, fallible.ok_bind, Bool.false_eq_true, if_false]
      have hshort2 : n2.left.length ≤ n1.left.length := by
        rw [hleft2]
        exact skipped_length_le _
      obtain ⟨n3, hm3, ⟨hclose, hleft3⟩ | ⟨hclose, hleft3, -⟩⟩ := expect_spec ']'.toUInt8 n2
      · simp only [hclose, fallible.ok_bind]
        rw [hleft2, skipped_skipped] at hleft3
        have hshort3 : n3.left.length < n1.left.length := by
          have := skipped_length_le n1.left
          rw [hleft3, List.length_cons] at this
          omega
        exact .gives ((hm1.trans hm2).trans hm3) (by omega) ha'
          ⟨[v], rfl, .last_element hread hleft3⟩
      · simp only [hclose, fallible.ok_bind]
        refine .fails ((hm1.trans hm2).trans hm3) ?_ ha'
        rw [hleft3]
        exact (skipped_length_le _).trans (hshort2.trans hle1)

theorem ordered_set {o : List (String × value N)} {v : value N} (ho : (value.object o).Ordered)
    (key : String) (hv : v.Ordered) : (value.object (key_order.set key v o)).Ordered := by
  cases ho with
  | object ho hvalues =>
    refine .object (ho.set key v) fun e he => ?_
    rcases key_order.mem_set he with rfl | he
    · exact hv
    · exact hvalues e he

theorem ordered_lookup {o : List (String × value N)} (ho : (value.object o).Ordered)
    (key : String) : ((o.lookup key).getD .null).Ordered := by
  cases ho with
  | object ho hvalues =>
    cases hlookup : o.lookup key with
    | none => exact .null
    | some v => exact hvalues _ (ho.lookup_iff.mp hlookup)

theorem object_items_step {fuel : Nat} (hparse : EndsWithin t fuel)
    (hitems : ∀ (o : List (String × value N)) (inp : input), (value.object o).Ordered →
      2 * inp.left.length + 2 ≤ fuel →
        Outcome inp (reads_members t inp o) (object_items t fuel o inp))
    {o : List (String × value N)} {inp : input} (ho : (value.object o).Ordered)
    (hfuel : 2 * inp.left.length + 2 ≤ fuel + 1) :
    Outcome inp (reads_members t inp o) (object_items t (fuel + 1) o inp) := by
  unfold object_items
  have hskip := skipped_length_le inp.left
  obtain ⟨n1, hm1, ⟨hquote, hleft1⟩ | ⟨hquote, hleft1, -⟩⟩ := expect_spec '"'.toUInt8 inp
  swap
  · simp only [hquote, fallible.ok_bind]
    exact .fails hm1 (by rw [hleft1]; exact hskip) ho
  have hle1 : n1.left.length < inp.left.length := by
    rw [hleft1, List.length_cons] at hskip
    omega
  simp only [hquote, fallible.ok_bind, if_true]
  obtain ⟨ok, cs, n2, hstring, hm2, hle2, hchars⟩ := parse_string_spec n1
  have hmoves2 := hm1.trans hm2
  cases ok with
  | false =>
    simp only [hstring, fallible.ok_bind]
    exact .fails hmoves2 (by omega) ho
  | true =>
    simp only [hstring, fallible.ok_bind, if_true]
    have hskip2 := skipped_length_le n2.left
    obtain ⟨n3, hm3, ⟨hcolon, hleft3⟩ | ⟨hcolon, hleft3, -⟩⟩ := expect_spec ':'.toUInt8 n2
    swap
    · simp only [hcolon, fallible.ok_bind]
      exact .fails (hmoves2.trans hm3) (by rw [hleft3]; omega) ho
    have hle3 : n3.left.length < n2.left.length := by
      rw [hleft3, List.length_cons] at hskip2
      omega
    have hkey : Key inp.left (text cs) n3.left := ⟨cs, _, _, hleft1, hchars rfl, hleft3, rfl⟩
    have hmoves3 := hmoves2.trans hm3
    simp only [hcolon, fallible.ok_bind, if_true]
    rcases hparse ((o.lookup (text cs)).getD .null) n3 (ordered_lookup ho _) (by omega) with
      hover | ⟨ok, v, n4, hv, hm4, hle4, hord, hok⟩
    · rw [hover]
      exact .inl rfl
    simp only [hv, fallible.ok_bind]
    have ho' := ordered_set ho (text cs) hord
    have hmoves4 := hmoves3.trans hm4
    cases ok with
    | false => exact .fails hmoves4 (by omega) ho'
    | true =>
      have hread := hok rfl
      simp only [if_true]
      have hskip4 := skipped_length_le n4.left
      obtain ⟨n5, hm5, ⟨hcomma, hleft5⟩ | ⟨hcomma, hleft5, -⟩⟩ := expect_spec ','.toUInt8 n4
      · simp only [hcomma, fallible.ok_bind, if_true]
        have hle5 : n5.left.length < n4.left.length := by
          rw [hleft5, List.length_cons] at hskip4
          omega
        refine (hitems _ n5 ho' (by omega)).goes_on (hmoves4.trans hm5) (by omega) ?_
        rintro w r ⟨o', rfl, ho'⟩
        exact ⟨o', rfl, .member hkey hread hleft5 ho'⟩
      · simp only [hcomma, fallible.ok_bind, Bool.false_eq_true, if_false]
        have hskip5 := skipped_length_le n5.left
        rw [hleft5, skipped_skipped] at hskip5
        have hmoves5 := hmoves4.trans hm5
        obtain ⟨n6, hm6, ⟨hclose, hleft6⟩ | ⟨hclose, hleft6, -⟩⟩ := expect_spec '}'.toUInt8 n5
        · simp only [hclose, fallible.ok_bind]
          rw [hleft5, skipped_skipped] at hleft6
          rw [hleft6, List.length_cons] at hskip4
          exact .gives (hmoves5.trans hm6) (by omega) ho' ⟨_, rfl, .last_member hkey hread hleft6⟩
        · simp only [hclose, fallible.ok_bind]
          refine .fails (hmoves5.trans hm6) ?_ ho'
          rw [hleft6, hleft5, skipped_skipped]
          omega

theorem parse_step {fuel : Nat}
    (harray : ∀ (a : List (value N)) (inp : input), (value.array a).Ordered →
      2 * inp.left.length + 2 ≤ fuel → Outcome inp (reads_elements t inp a)
      (array_items t fuel a inp))
    (hobject : ∀ (o : List (String × value N)) (inp : input), (value.object o).Ordered →
      2 * inp.left.length + 2 ≤ fuel →
        Outcome inp (reads_members t inp o) (object_items t fuel o inp)) :
    EndsWithin t (fuel + 1) := by
  intro out inp hout hfuel
  unfold _parse
  obtain ⟨n0, hws, hleft0, hm0⟩ := skip_ws_spec inp
  have hskip := skipped_length_le inp.left
  simp only [hws, fallible.ok_bind]
  rcases getc_cases n0 with ⟨n1, hget, hleft, hn1, hun, hm1⟩ |
    ⟨ch, rest, n1, back, hget, hleft, hn1, hun, hback, hm1, hm1'⟩
  · simp only [hget, hun, fallible.ok_bind]
    exact .fails (hm0.trans hm1) (by rw [hn1]; exact Nat.zero_le _) hout
  have htext : skipped inp.left = ch :: rest := by rw [← hleft0, hleft]
  have hle1 : n1.left.length < inp.left.length := by
    rw [htext, List.length_cons] at hskip
    rw [hn1]
    omega
  have hmoves := hm0.trans hm1
  simp only [hget]
  by_cases hnull : ch = 'n'.toUInt8
  · rw [if_pos hnull]
    subst hnull
    refine literal_spec hmoves (Nat.le_of_lt hle1) .null hout fun r hr => ?_
    exact .null (by rw [htext, ← hn1, hr]; rfl)
  rw [if_neg hnull]
  by_cases hno : ch = 'f'.toUInt8
  · rw [if_pos hno]
    subst hno
    refine literal_spec hmoves (Nat.le_of_lt hle1) (.boolean false) hout fun r hr => ?_
    exact .no (by rw [htext, ← hn1, hr]; rfl)
  rw [if_neg hno]
  by_cases hyes : ch = 't'.toUInt8
  · rw [if_pos hyes]
    subst hyes
    refine literal_spec hmoves (Nat.le_of_lt hle1) (.boolean true) hout fun r hr => ?_
    exact .yes (by rw [htext, ← hn1, hr]; rfl)
  rw [if_neg hyes]
  by_cases hquote : ch = '"'.toUInt8
  · rw [if_pos hquote]
    subst hquote
    obtain ⟨ok, cs, n2, hstring, hm2, hle2, hchars⟩ := parse_string_spec n1
    simp only [hstring, fallible.ok_bind]
    refine .inr ⟨ok, _, n2, rfl, hmoves.trans hm2, by omega, .string _, fun hok => ?_⟩
    exact .string (by rw [htext, ← hn1]) (hchars hok)
  rw [if_neg hquote]
  by_cases hopen : ch = '['.toUInt8
  · rw [if_pos hopen]
    subst hopen
    have hnil : (value.array ([] : List (value N))).Ordered := .array (by simp)
    obtain ⟨n2, hm2, ⟨hempty, hleft2⟩ | ⟨hempty, hleft2, -⟩⟩ := expect_spec ']'.toUInt8 n1
    · simp only [hempty, fallible.ok_bind, if_true]
      have hskip1 := skipped_length_le n1.left
      rw [hleft2, List.length_cons] at hskip1
      rw [hn1] at hleft2
      exact .gives (hmoves.trans hm2) (by omega) hnil (.empty_array htext hleft2)
    · simp only [hempty, fallible.ok_bind, Bool.false_eq_true, if_false]
      have hskip1 := skipped_length_le n1.left
      rw [← hleft2] at hskip1
      refine (harray [] n2 hnil (by omega)).goes_on (hmoves.trans hm2) (by omega) ?_
      rintro v r ⟨vs, rfl, hvs⟩
      rw [hleft2, hn1] at hvs
      exact .array htext (hvs.congr (skipped_skipped _).symm)
  rw [if_neg hopen]
  by_cases hbrace : ch = '{'.toUInt8
  · rw [if_pos hbrace]
    subst hbrace
    have hnil : (value.object ([] : List (String × value N))).Ordered :=
      .object List.Pairwise.nil (by simp)
    obtain ⟨n2, hm2, ⟨hempty, hleft2⟩ | ⟨hempty, hleft2, -⟩⟩ := expect_spec '}'.toUInt8 n1
    · simp only [hempty, fallible.ok_bind, if_true]
      have hskip1 := skipped_length_le n1.left
      rw [hleft2, List.length_cons] at hskip1
      rw [hn1] at hleft2
      exact .gives (hmoves.trans hm2) (by omega) hnil (.empty_object htext hleft2)
    · simp only [hempty, fallible.ok_bind, Bool.false_eq_true, if_false]
      have hskip1 := skipped_length_le n1.left
      rw [← hleft2] at hskip1
      refine (hobject [] n2 hnil (by omega)).goes_on (hmoves.trans hm2) (by omega) ?_
      rintro v r ⟨o, rfl, ho⟩
      rw [hleft2, hn1] at ho
      exact .object htext (ho.congr (skipped_skipped _).symm)
  rw [if_neg hbrace]
  split
  · rename_i hch
    refine number_spec hout hun (hm0.trans hm1') hback ?_ ?_ ?_
    · rw [hback, ← htext]
      exact hskip
    · simpa using hch
    · intro u r x hu hnumeral hr
      exact .number (htext.trans hu) hnumeral hr
  · simp only [hun, fallible.ok_bind]
    refine .fails (hm0.trans hm1') ?_ hout
    rw [hback, ← htext]
    exact hskip

theorem parts_end (fuel : Nat) : EndsWithin t fuel ∧
    (∀ (a : List (value N)) (inp : input), (value.array a).Ordered →
      2 * inp.left.length + 2 ≤ fuel →
        Outcome inp (reads_elements t inp a) (array_items t fuel a inp)) ∧
    ∀ (o : List (String × value N)) (inp : input), (value.object o).Ordered →
      2 * inp.left.length + 2 ≤ fuel →
        Outcome inp (reads_members t inp o) (object_items t fuel o inp) := by
  induction fuel with
  | zero => exact ⟨fun _ _ _ h => by omega, fun _ _ _ h => by omega, fun _ _ _ h => by omega⟩
  | succ fuel ih =>
    obtain ⟨hparse, harray, hobject⟩ := ih
    exact ⟨parse_step harray hobject, fun _ _ => array_items_step hparse harray,
      fun _ _ => object_items_step hparse hobject⟩

/-! ## What the parser accepts of the grammar -/

theorem Reads.length_lt {p : part N} {s r : bytes} (h : Reads t p s r) : r.length < s.length := by
  have hcons {s u : bytes} {ch : UInt8} (h : skipped s = ch :: u) : u.length < s.length := by
    have := skipped_length_le s
    rw [h, List.length_cons] at this
    omega
  have hpattern {s r : bytes} {pattern : List Char} (hne : pattern ≠ [])
      (h : skipped s = pattern.map Char.toUInt8 ++ r) : r.length < s.length := by
    have := skipped_length_le s
    rw [h, List.length_append, List.length_map] at this
    have := List.length_pos_of_ne_nil hne
    omega
  have hkey {s u : bytes} {key : String} : Key s key u → u.length < s.length := by
    rintro ⟨cs, u, v, h, hc, hv, -⟩
    have h1 := hcons h
    have h2 := hc.length_lt
    have h3 := hcons hv
    omega
  induction h with
  | null h => exact hpattern (by simp) h
  | no h => exact hpattern (by simp) h
  | yes h => exact hpattern (by simp) h
  | string h hc => exact hc.length_lt.trans (hcons h)
  | @number s u r x h hu _ =>
    obtain ⟨ch, hch, -⟩ := hu.head
    have := skipped_length_le s
    rw [h, List.length_append] at this
    have := List.length_pos_of_mem (List.mem_of_head? hch)
    omega
  | empty_array h hu => exact (hcons hu).trans (hcons h)
  | array h _ ih => exact ih.trans (hcons h)
  | empty_object h hu => exact (hcons hu).trans (hcons h)
  | object h _ ih => exact ih.trans (hcons h)
  | last_element _ hu ih => exact (hcons hu).trans ih
  | element _ hu _ ih ih' => exact ih'.trans ((hcons hu).trans ih)
  | last_member hk _ hu ih => exact (hcons hu).trans (ih.trans (hkey hk))
  | member hk _ hu _ ih ih' => exact ih'.trans ((hcons hu).trans (ih.trans (hkey hk)))

/-- No part starts as an array or an object ends. -/
theorem Reads.head {p : part N} {s r : bytes} (h : Reads t p s r) :
    (skipped s).head? ≠ some ']'.toUInt8 ∧ (skipped s).head? ≠ some '}'.toUInt8 := by
  have hcons {s u : bytes} {ch : UInt8} (h : skipped s = ch :: u) (h1 : ch ≠ ']'.toUInt8)
      (h2 : ch ≠ '}'.toUInt8) :
      (skipped s).head? ≠ some ']'.toUInt8 ∧ (skipped s).head? ≠ some '}'.toUInt8 := by
    rw [h]
    exact ⟨fun he => h1 (Option.some.inj he), fun he => h2 (Option.some.inj he)⟩
  induction h with
  | null h => exact hcons h (by decide) (by decide)
  | no h => exact hcons h (by decide) (by decide)
  | yes h => exact hcons h (by decide) (by decide)
  | string h _ => exact hcons h (by decide) (by decide)
  | number h hu _ =>
    obtain ⟨ch, hch, hfirst⟩ := hu.head
    rw [h, List.head?_append, hch]
    refine ⟨fun he => ?_, fun he => ?_⟩
    · obtain rfl := Option.some.inj he
      revert hfirst
      decide
    · obtain rfl := Option.some.inj he
      revert hfirst
      decide
  | empty_array h _ => exact hcons h (by decide) (by decide)
  | array h _ _ => exact hcons h (by decide) (by decide)
  | empty_object h _ => exact hcons h (by decide) (by decide)
  | object h _ _ => exact hcons h (by decide) (by decide)
  | last_element _ _ ih => exact ih
  | element _ _ _ ih _ => exact ih
  | last_member hk _ _ _ =>
    obtain ⟨cs, u, v, h, -⟩ := hk
    exact hcons h (by decide) (by decide)
  | member hk _ _ _ _ _ =>
    obtain ⟨cs, u, v, h, -⟩ := hk
    exact hcons h (by decide) (by decide)

/-- The parser reads the part after any white space, and stops where it ends. -/
def Accepts (t : number_text N) (p : part N) (s r : bytes) : Prop :=
  match p with
  | .value v => ∀ (fuel : Nat) (out : value N) (inp : input), skipped inp.left = skipped s →
      2 * inp.left.length + 1 ≤ fuel →
        ∃ next, _parse t fuel out inp = .ok (true, v, next) ∧ next.left = r
  | .elements vs =>
    ∀ (fuel : Nat) (a : List (value N)) (inp : input), skipped inp.left = skipped s →
      2 * inp.left.length + 2 ≤ fuel →
        ∃ next, array_items t fuel a inp = .ok (true, .array (a ++ vs), next) ∧ next.left = r
  | .members o o' => ∀ (fuel : Nat) (inp : input), skipped inp.left = skipped s →
      2 * inp.left.length + 2 ≤ fuel →
        ∃ next, object_items t fuel o inp = .ok (true, .object o', next) ∧ next.left = r

/-- The first character after the white space is read, and could be put back. -/
theorem first_cons {inp : input} {ch : UInt8} {rest : bytes} (h : skipped inp.left = ch :: rest) :
    rest.length < inp.left.length ∧ ∃ n0 n1 back, inp.skip_ws = .ok n0 ∧
      n0.getc = (some ch, n1) ∧ n1.left = rest ∧ n1.ungetc = .ok back ∧ back.left = ch :: rest := by
  obtain ⟨n0, hws, hleft, -⟩ := skip_ws_spec inp
  obtain ⟨n1, back, hget, hn1, hun, hback⟩ := getc_cons (hleft.trans h)
  refine ⟨?_, n0, n1, back, hws, hget, hn1, hun, hback⟩
  have := skipped_length_le inp.left
  rw [h, List.length_cons] at this
  omega

theorem literal_of {inp : input} (pattern : List Char) {r : bytes} (v out : value N)
    (h : inp.left = pattern.map Char.toUInt8 ++ r) :
    ∃ next, literal pattern v out inp = .ok (true, v, next) ∧ next.left = r := by
  obtain ⟨next, hmatch, hnext⟩ := match_pattern_of h
  unfold literal
  exact ⟨next, by simp [hmatch], hnext⟩

theorem number_of {mid back : input} {u r : bytes} {x : N} (out : value N)
    (hback : mid.ungetc = .ok back) (hleft : back.left = u ++ r) (hu : Numeral t u x)
    (hr : ∀ ch, r.head? = some ch → in_number ch = false) :
    ∃ next, number t out mid = .ok (true, .number x, next) ∧ next.left = r := by
  obtain ⟨next, hnumber, -, hnext⟩ := parse_number_spec back
  obtain ⟨htake, hdrop⟩ := hu.takeWhile t hr
  obtain ⟨ch, hch, -⟩ := hu.head
  have hne : u ≠ [] := by
    rintro rfl
    cases hch
  rw [hleft, htake] at hnumber
  rw [hleft, hdrop] at hnext
  unfold number
  refine ⟨next, ?_, hnext⟩
  simp [hback, hnumber, hne, hu.strtod, hu.finite]

theorem key_of {s u : bytes} {key : String} (h : Key s key u) {inp : input}
    (hs : skipped inp.left = skipped s) :
    ∃ cs n1 n2 n3, inp.expect '"'.toUInt8 = .ok (true, n1) ∧ _parse_string n1 = .ok (true, cs, n2) ∧
      n2.expect ':'.toUInt8 = .ok (true, n3) ∧ n3.left = u ∧ u.length < inp.left.length ∧
      text cs = key := by
  obtain ⟨cs, v, w, hquote, hchars, hcolon, rfl⟩ := h
  obtain ⟨hv, -⟩ := first_cons (hs.trans hquote)
  obtain ⟨n1, h1, hn1⟩ := expect_true (hs.trans hquote)
  obtain ⟨n2, h2, hn2⟩ := parse_string_of (hn1 ▸ hchars)
  obtain ⟨n3, h3, hn3⟩ := expect_true (hn2 ▸ hcolon)
  have hw := hchars.length_lt
  have hu := skipped_length_le w
  rw [hcolon, List.length_cons] at hu
  exact ⟨cs, n1, n2, n3, h1, h2, h3, hn3, by omega, rfl⟩

/-- No comma comes, and then the closing character does. -/
theorem close_of {inp : input} {close : UInt8} {r : bytes} (h : skipped inp.left = close :: r)
    (hne : close ≠ ','.toUInt8) : ∃ n1 n2, inp.expect ','.toUInt8 = .ok (false, n1) ∧
      n1.expect close = .ok (true, n2) ∧ n2.left = r := by
  have hhead : (skipped inp.left).head? ≠ some ','.toUInt8 := by
    rw [h]
    exact fun he => hne (Option.some.inj he)
  obtain ⟨n1, hcomma, hn1⟩ := expect_false hhead
  have hskip : skipped n1.left = close :: r := by rw [hn1, skipped_skipped, h]
  obtain ⟨n2, hclose, hn2⟩ := expect_true hskip
  exact ⟨n1, n2, hcomma, hclose, hn2⟩

theorem Reads.accepts {p : part N} {s r : bytes} (h : Reads t p s r) : Accepts t p s r := by
  have hfuel {fuel n k : Nat} (h : n + (k + 1) ≤ fuel) : ∃ f, fuel = f + 1 :=
    ⟨fuel - 1, by omega⟩
  induction h with
  | null h =>
    intro fuel out inp hs hle
    obtain ⟨fuel, rfl⟩ := hfuel hle
    obtain ⟨-, n0, n1, back, hws, hget, hn1, -⟩ := first_cons (hs.trans h)
    obtain ⟨next, hlit, hnext⟩ := literal_of ['u', 'l', 'l'] .null out hn1
    unfold _parse
    exact ⟨next, by simp +decide [hws, hget, hlit], hnext⟩
  | no h =>
    intro fuel out inp hs hle
    obtain ⟨fuel, rfl⟩ := hfuel hle
    obtain ⟨-, n0, n1, back, hws, hget, hn1, -⟩ := first_cons (hs.trans h)
    obtain ⟨next, hlit, hnext⟩ := literal_of ['a', 'l', 's', 'e'] (.boolean false) out hn1
    unfold _parse
    exact ⟨next, by simp +decide [hws, hget, hlit], hnext⟩
  | yes h =>
    intro fuel out inp hs hle
    obtain ⟨fuel, rfl⟩ := hfuel hle
    obtain ⟨-, n0, n1, back, hws, hget, hn1, -⟩ := first_cons (hs.trans h)
    obtain ⟨next, hlit, hnext⟩ := literal_of ['r', 'u', 'e'] (.boolean true) out hn1
    unfold _parse
    exact ⟨next, by simp +decide [hws, hget, hlit], hnext⟩
  | string h hc =>
    intro fuel out inp hs hle
    obtain ⟨fuel, rfl⟩ := hfuel hle
    obtain ⟨-, n0, n1, back, hws, hget, hn1, -⟩ := first_cons (hs.trans h)
    obtain ⟨next, hstring, hnext⟩ := parse_string_of (hn1 ▸ hc)
    unfold _parse
    exact ⟨next, by simp +decide [hws, hget, hstring], hnext⟩
  | number h hu hr =>
    intro fuel out inp hs hle
    obtain ⟨fuel, rfl⟩ := hfuel hle
    obtain ⟨ch, hch, hfirst⟩ := hu.head
    obtain ⟨u', rfl⟩ := List.head?_eq_some_iff.mp hch
    obtain ⟨-, n0, n1, back, hws, hget, -, hun, hback⟩ := first_cons (hs.trans h)
    obtain ⟨next, hnumber, hnext⟩ := number_of out hun hback hu hr
    have hother (c : UInt8) (hc : ¬ (is_digit c = true ∨ c = '-'.toUInt8)) : ch ≠ c := by
      rintro rfl
      exact hc hfirst
    unfold _parse
    refine ⟨next, ?_, hnext⟩
    simp only [hws, hget, fallible.ok_bind]
    rw [if_neg (hother _ (by decide)), if_neg (hother _ (by decide)), if_neg (hother _ (by decide)),
      if_neg (hother _ (by decide)), if_neg (hother _ (by decide)), if_neg (hother _ (by decide)),
      if_pos (by simpa using hfirst)]
    exact hnumber
  | empty_array h hu =>
    intro fuel out inp hs hle
    obtain ⟨fuel, rfl⟩ := hfuel hle
    obtain ⟨-, n0, n1, back, hws, hget, hn1, -⟩ := first_cons (hs.trans h)
    obtain ⟨next, hempty, hnext⟩ := expect_true (hn1 ▸ hu)
    unfold _parse
    exact ⟨next, by simp +decide [hws, hget, hempty], hnext⟩
  | @array s u r vs h hvs ih =>
    intro fuel out inp hs hle
    obtain ⟨fuel, rfl⟩ := hfuel hle
    obtain ⟨hlt, n0, n1, back, hws, hget, hn1, -⟩ := first_cons (hs.trans h)
    obtain ⟨n2, hempty, hn2⟩ := expect_false (hn1 ▸ hvs.head.1)
    rw [hn1] at hn2
    have hshort : n2.left.length ≤ u.length := hn2 ▸ skipped_length_le u
    obtain ⟨next, hitems, hnext⟩ := ih fuel [] n2 (by rw [hn2, skipped_skipped]) (by omega)
    unfold _parse
    exact ⟨next, by simp +decide [hws, hget, hempty, hitems], hnext⟩
  | empty_object h hu =>
    intro fuel out inp hs hle
    obtain ⟨fuel, rfl⟩ := hfuel hle
    obtain ⟨-, n0, n1, back, hws, hget, hn1, -⟩ := first_cons (hs.trans h)
    obtain ⟨next, hempty, hnext⟩ := expect_true (hn1 ▸ hu)
    unfold _parse
    exact ⟨next, by simp +decide [hws, hget, hempty], hnext⟩
  | @object s u r o h ho ih =>
    intro fuel out inp hs hle
    obtain ⟨fuel, rfl⟩ := hfuel hle
    obtain ⟨hlt, n0, n1, back, hws, hget, hn1, -⟩ := first_cons (hs.trans h)
    obtain ⟨n2, hempty, hn2⟩ := expect_false (hn1 ▸ ho.head.2)
    rw [hn1] at hn2
    have hshort : n2.left.length ≤ u.length := hn2 ▸ skipped_length_le u
    obtain ⟨next, hitems, hnext⟩ := ih fuel n2 (by rw [hn2, skipped_skipped]) (by omega)
    unfold _parse
    exact ⟨next, by simp +decide [hws, hget, hempty, hitems], hnext⟩
  | last_element _ hu ih =>
    intro fuel a inp hs hle
    obtain ⟨fuel, rfl⟩ := hfuel hle
    obtain ⟨n1, hparse, hn1⟩ := ih fuel .null inp hs (by omega)
    obtain ⟨n2, next, hcomma, hclose, hnext⟩ := close_of (hn1 ▸ hu) (by decide)
    unfold array_items
    exact ⟨next, by simp [hparse, hcomma, hclose], hnext⟩
  | @element s u w r v vs hv hu _ ih ih' =>
    intro fuel a inp hs hle
    obtain ⟨fuel, rfl⟩ := hfuel hle
    obtain ⟨n1, hparse, hn1⟩ := ih fuel .null inp hs (by omega)
    obtain ⟨n2, hcomma, hn2⟩ := expect_true (hn1 ▸ hu)
    have hlt := (hv.congr hs).length_lt
    have hshort := (first_cons (hn1 ▸ hu)).1
    rw [hn1] at hshort
    obtain ⟨next, hitems, hnext⟩ := ih' fuel (a ++ [v]) n2 (by rw [hn2]) (by rw [hn2]; omega)
    unfold array_items
    exact ⟨next, by simp [hparse, hcomma, hitems], hnext⟩
  | @last_member s u w r key v o hk _ hu ih =>
    intro fuel inp hs hle
    obtain ⟨fuel, rfl⟩ := hfuel hle
    obtain ⟨cs, n1, n2, n3, h1, h2, h3, hn3, hlt, rfl⟩ := key_of hk hs
    obtain ⟨n4, hparse, hn4⟩ := ih fuel ((o.lookup (text cs)).getD .null) n3 (by rw [hn3])
      (by rw [hn3]; omega)
    obtain ⟨n5, next, hcomma, hclose, hnext⟩ := close_of (hn4 ▸ hu) (by decide)
    unfold object_items
    exact ⟨next, by simp [h1, h2, h3, hparse, hcomma, hclose], hnext⟩
  | @member s u w w' r key v o o' hk hv hu _ ih ih' =>
    intro fuel inp hs hle
    obtain ⟨fuel, rfl⟩ := hfuel hle
    obtain ⟨cs, n1, n2, n3, h1, h2, h3, hn3, hlt, rfl⟩ := key_of hk hs
    obtain ⟨n4, hparse, hn4⟩ := ih fuel ((o.lookup (text cs)).getD .null) n3 (by rw [hn3])
      (by rw [hn3]; omega)
    obtain ⟨n5, hcomma, hn5⟩ := expect_true (hn4 ▸ hu)
    have hlt' := hv.length_lt
    have hshort := (first_cons (hn4 ▸ hu)).1
    rw [hn4] at hshort
    obtain ⟨next, hitems, hnext⟩ := ih' fuel n5 (by rw [hn5]) (by rw [hn5]; omega)
    unfold object_items
    exact ⟨next, by simp [h1, h2, h3, hparse, hcomma, hitems], hnext⟩

end

end picojson
