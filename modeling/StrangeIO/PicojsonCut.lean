-- What picojson makes of a text with an error (picojson/picojson.h), and what the loading of
-- a document (config/document.cpp), which goes on with it, makes of that: the text is taken
-- as if it ended before the error and all that is open there were closed.
import StrangeIO.PicojsonWriter

namespace picojson

open input strangeio.config

/-! ## What is read does not depend on what stands behind it -/

/-- The text begins with what the relation is about, whatever stands behind that. -/
def Begins (P : bytes → bytes → Prop) (s r : bytes) : Prop :=
  ∃ u, s = u ++ r ∧ ∀ r', P (u ++ r') r'

/-- The same, but for what would go on with a number. -/
def BeginsApart (P : bytes → bytes → Prop) (s r : bytes) : Prop :=
  ∃ u, s = u ++ r ∧ ∀ r', Apart r' → P (u ++ r') r'

theorem Begins.apart {P : bytes → bytes → Prop} {s r : bytes} (h : Begins P s r) :
    BeginsApart P s r := by
  obtain ⟨u, hs, hu⟩ := h
  exact ⟨u, hs, fun r' _ => hu r'⟩

theorem Begins.trans {P Q : bytes → bytes → Prop} {s u r : bytes} (h : Begins P s u)
    (g : Begins Q u r) : Begins (fun s r => ∃ u, P s u ∧ Q u r) s r := by
  obtain ⟨u1, rfl, h1⟩ := h
  obtain ⟨u2, rfl, h2⟩ := g
  refine ⟨u1 ++ u2, by simp, fun r' => ⟨u2 ++ r', ?_, h2 r'⟩⟩
  rw [List.append_assoc]
  exact h1 _

theorem skipped_begins {a : bytes} (ha : a ≠ []) {s r : bytes} (h : skipped s = a ++ r) :
    Begins (fun s r => skipped s = a ++ r) s r := by
  refine ⟨s.takeWhile is_ws ++ a, ?_, fun r' => ?_⟩
  · rw [List.append_assoc, ← h]
    exact (List.takeWhile_append_dropWhile).symm
  · obtain ⟨ch, a, rfl⟩ := List.exists_cons_of_ne_nil ha
    have hch : is_ws ch = false := by
      have hhead := List.head?_dropWhile_not is_ws s
      unfold skipped at h
      rw [h] at hhead
      exact hhead
    rw [List.append_assoc, skipped_ws (fun c hc => List.mem_takeWhile_imp hc)]
    exact skipped_char hch _

theorem CodePoint.begins {s r : bytes} {c : Char} (h : CodePoint s c r) :
    Begins (fun s r => CodePoint s c r) s r := by
  cases h with
  | @one h r n hq hn => exact ⟨h, rfl, fun r' => .one hq hn⟩
  | @pair h l r hi lo hh hhi hl hlo =>
    refine ⟨h ++ '\\'.toUInt8 :: 'u'.toUInt8 :: l, by simp, fun r' => ?_⟩
    have hpair := CodePoint.pair (r := r') hh hhi hl hlo
    simpa using hpair

theorem Chars.begins {s cs r : bytes} (h : Chars s cs r) :
    Begins (fun s r => Chars s cs r) s r := by
  induction h with
  | done => exact ⟨['"'.toUInt8], rfl, fun r' => .done⟩
  | @plain ch s cs r hch hquote hslash _ ih =>
    obtain ⟨u, rfl, hu⟩ := ih
    exact ⟨ch :: u, rfl, fun r' => .plain hch hquote hslash (hu r')⟩
  | @escape ch val s cs r hval _ ih =>
    obtain ⟨u, rfl, hu⟩ := ih
    exact ⟨'\\'.toUInt8 :: ch :: u, rfl, fun r' => .escape hval (hu r')⟩
  | @code_point c s t cs r hc _ ih =>
    obtain ⟨u, rfl, hu⟩ := ih
    obtain ⟨u', rfl, hu'⟩ := hc.begins
    refine ⟨'\\'.toUInt8 :: 'u'.toUInt8 :: (u' ++ u), by simp, fun r' => ?_⟩
    have hpoint := hu' (u ++ r')
    rw [← List.append_assoc] at hpoint
    exact .code_point hpoint (hu r')

theorem Key.begins {s r : bytes} {key : String} (h : Key s key r) :
    Begins (fun s r => Key s key r) s r := by
  obtain ⟨cs, u, v, hquote, hchars, hcolon, rfl⟩ := h
  obtain ⟨u1, rfl, h1⟩ := skipped_begins (a := ['"'.toUInt8]) (List.cons_ne_nil _ _) hquote
  obtain ⟨u2, rfl, h2⟩ := hchars.begins
  obtain ⟨u3, rfl, h3⟩ := skipped_begins (a := [':'.toUInt8]) (List.cons_ne_nil _ _) hcolon
  refine ⟨u1 ++ u2 ++ u3, by simp, fun r' => ⟨cs, u2 ++ (u3 ++ r'), u3 ++ r', ?_, h2 _, h3 r', rfl⟩⟩
  have hfirst := h1 (u2 ++ (u3 ++ r'))
  simpa using hfirst

theorem ws_apart {ch : UInt8} (h : is_ws ch = true) : in_number ch = false := by
  simp only [is_ws, Bool.or_eq_true, decide_eq_true_eq] at h
  rcases h with ((rfl | rfl) | rfl) | rfl
  all_goals decide

theorem apart_of_skipped {s r : bytes} {ch : UInt8} (h : skipped s = ch :: r)
    (hch : in_number ch = false) : Apart s := by
  cases s with
  | nil => cases h
  | cons ch' s =>
    rw [skipped_cons] at h
    split at h
    · rename_i hws
      exact apart_cons (ws_apart hws) s
    · obtain ⟨rfl, rfl⟩ := List.cons.inj h
      exact apart_cons hch s

section
variable {N : Type} {t : number_text N}

/-- What stands behind a part may be another text, but for what would go on with a number. -/
theorem Reads.begins {p : part N} {s r : bytes} (h : Reads t p s r) :
    BeginsApart (Reads t p) s r := by
  have hone {ch : UInt8} {s r : bytes} (h : skipped s = ch :: r) :
      Begins (fun s r => skipped s = [ch] ++ r) s r := skipped_begins (List.cons_ne_nil _ _) h
  induction h with
  | null h =>
    obtain ⟨u, rfl, hu⟩ := skipped_begins (by simp) h
    exact ⟨u, rfl, fun r' _ => .null (hu r')⟩
  | no h =>
    obtain ⟨u, rfl, hu⟩ := skipped_begins (by simp) h
    exact ⟨u, rfl, fun r' _ => .no (hu r')⟩
  | yes h =>
    obtain ⟨u, rfl, hu⟩ := skipped_begins (by simp) h
    exact ⟨u, rfl, fun r' _ => .yes (hu r')⟩
  | string h hc =>
    obtain ⟨u, rfl, hu⟩ := hone h
    obtain ⟨u', rfl, hu'⟩ := hc.begins
    refine ⟨u ++ u', by simp, fun r' _ => .string ?_ (hu' r')⟩
    rw [List.append_assoc]
    exact hu (u' ++ r')
  | number h hu _ =>
    obtain ⟨ch, hch, -⟩ := hu.head
    obtain ⟨u', rfl, hu'⟩ := skipped_begins (by rintro rfl; cases hch) h
    exact ⟨u', rfl, fun r' hr' => .number (hu' r') hu hr'⟩
  | empty_array h hu =>
    obtain ⟨u, rfl, h1⟩ := hone h
    obtain ⟨u', rfl, h2⟩ := hone hu
    refine ⟨u ++ u', by simp, fun r' _ => .empty_array ?_ (h2 r')⟩
    rw [List.append_assoc]
    exact h1 (u' ++ r')
  | array h _ ih =>
    obtain ⟨u, rfl, h1⟩ := hone h
    obtain ⟨u', rfl, h2⟩ := ih
    refine ⟨u ++ u', by simp, fun r' hr' => .array ?_ (h2 r' hr')⟩
    rw [List.append_assoc]
    exact h1 (u' ++ r')
  | empty_object h hu =>
    obtain ⟨u, rfl, h1⟩ := hone h
    obtain ⟨u', rfl, h2⟩ := hone hu
    refine ⟨u ++ u', by simp, fun r' _ => .empty_object ?_ (h2 r')⟩
    rw [List.append_assoc]
    exact h1 (u' ++ r')
  | object h _ ih =>
    obtain ⟨u, rfl, h1⟩ := hone h
    obtain ⟨u', rfl, h2⟩ := ih
    refine ⟨u ++ u', by simp, fun r' hr' => .object ?_ (h2 r' hr')⟩
    rw [List.append_assoc]
    exact h1 (u' ++ r')
  | last_element _ hu ih =>
    obtain ⟨u1, rfl, h1⟩ := ih
    obtain ⟨u2, rfl, h2⟩ := hone hu
    refine ⟨u1 ++ u2, by simp, fun r' _ => ?_⟩
    rw [List.append_assoc]
    exact .last_element (h1 _ (apart_of_skipped (h2 r') (by decide))) (h2 r')
  | element _ hu _ ih ihs =>
    obtain ⟨u1, rfl, h1⟩ := ih
    obtain ⟨u2, rfl, h2⟩ := hone hu
    obtain ⟨u3, rfl, h3⟩ := ihs
    refine ⟨u1 ++ u2 ++ u3, by simp, fun r' hr' => ?_⟩
    rw [List.append_assoc, List.append_assoc]
    exact .element (h1 _ (apart_of_skipped (h2 (u3 ++ r')) (by decide))) (h2 (u3 ++ r')) (h3 r' hr')
  | last_member hkey _ hu ih =>
    obtain ⟨u0, rfl, h0⟩ := hkey.begins
    obtain ⟨u1, rfl, h1⟩ := ih
    obtain ⟨u2, rfl, h2⟩ := hone hu
    refine ⟨u0 ++ u1 ++ u2, by simp, fun r' _ => ?_⟩
    rw [List.append_assoc, List.append_assoc]
    exact .last_member (h0 _) (h1 _ (apart_of_skipped (h2 r') (by decide))) (h2 r')
  | member hkey _ hu _ ih ihs =>
    obtain ⟨u0, rfl, h0⟩ := hkey.begins
    obtain ⟨u1, rfl, h1⟩ := ih
    obtain ⟨u2, rfl, h2⟩ := hone hu
    obtain ⟨u3, rfl, h3⟩ := ihs
    refine ⟨u0 ++ u1 ++ u2 ++ u3, by simp, fun r' hr' => ?_⟩
    rw [List.append_assoc, List.append_assoc, List.append_assoc]
    exact .member (h0 _) (h1 _ (apart_of_skipped (h2 (u3 ++ r')) (by decide))) (h2 (u3 ++ r'))
      (h3 r' hr')

end

/-! ## Strings that break off -/

/-- The bytes of null. -/
def null_bytes : bytes := ['n', 'u', 'l', 'l'].map Char.toUInt8

/-- What closes all that is open: the quote of a string, or null for a value that is
missing, and brackets. -/
def Closing (cl : bytes) : Prop :=
  ∃ item brackets, cl = item ++ brackets ∧ (item = [] ∨ item = ['"'.toUInt8] ∨ item = null_bytes) ∧
    ∀ ch ∈ brackets, ch = ']'.toUInt8 ∨ ch = '}'.toUInt8

theorem Closing.snoc {cl : bytes} (h : Closing cl) {ch : UInt8}
    (hch : ch = ']'.toUInt8 ∨ ch = '}'.toUInt8) : Closing (cl ++ [ch]) := by
  obtain ⟨item, brackets, rfl, hitem, hbrackets⟩ := h
  refine ⟨item, brackets ++ [ch], by simp, hitem, fun x hx => ?_⟩
  rcases List.mem_append.mp hx with hx | hx
  · exact hbrackets x hx
  · rw [List.mem_singleton.mp hx]
    exact hch

/-- The relation is about a beginning of the text that is closed, whatever stands behind. -/
def Cut (P : bytes → bytes → Prop) (s : bytes) : Prop :=
  ∃ u cl, u <+: s ∧ Closing cl ∧ ∀ r, P (u ++ (cl ++ r)) r

section
variable {P Q R : bytes → bytes → Prop}

/-- What stands in front of a text that is cut is kept. -/
theorem Cut.behind {s r : bytes} (h : Cut Q r) (hb : Begins P s r)
    (hq : ∀ s r r', P s r → Q r r' → R s r') : Cut R s := by
  obtain ⟨w, rfl, hw⟩ := hb
  obtain ⟨u, cl, hu, hcl, hcut⟩ := h
  refine ⟨w ++ u, cl, (List.prefix_append_right_inj w).mpr hu, hcl, fun r' => ?_⟩
  rw [List.append_assoc]
  exact hq _ _ _ (hw _) (hcut r')

theorem bracket_apart {ch : UInt8} (hch : ch = ']'.toUInt8 ∨ ch = '}'.toUInt8) :
    is_ws ch = false ∧ in_number ch = false := by
  rcases hch with rfl | rfl
  all_goals decide

/-- What is closed already may be closed by one more bracket. -/
theorem Cut.closed {s : bytes} {ch : UInt8} (h : Cut P s)
    (hch : ch = ']'.toUInt8 ∨ ch = '}'.toUInt8)
    (hq : ∀ s r r', P s r → skipped r = ch :: r' → Q s r') : Cut Q s := by
  obtain ⟨u, cl, hu, hcl, hcut⟩ := h
  refine ⟨u, cl ++ [ch], hu, hcl.snoc hch, fun r => ?_⟩
  have hclosed := hq _ _ r (hcut (ch :: r)) (skipped_char (bracket_apart hch).1 r)
  simpa using hclosed

end

theorem ws_begins (s : bytes) : Begins (fun s r => skipped s = skipped r) s (skipped s) :=
  ⟨s.takeWhile is_ws, (List.takeWhile_append_dropWhile).symm, fun r =>
    skipped_ws (fun _ hc => List.mem_takeWhile_imp hc) r⟩

section
variable {N : Type} {t : number_text N}

theorem Cut.skipped {p : part N} {s : bytes} (h : Cut (Reads t p) (skipped s)) :
    Cut (Reads t p) s :=
  h.behind (ws_begins s) fun _ _ _ hs hr => hr.congr hs

/-! ## What a call leaves that fails -/

theorem Outcome.ends {inp next : input} {good : value N → bytes → Prop} {ok : Bool} {v : value N}
    (h : Outcome inp good (.ok (ok, v, next))) :
    next.left.length ≤ inp.left.length ∧ v.Ordered ∧ (ok = true → good v next.left) := by
  rcases h with h | ⟨ok', v', next', h, -, hle, hord, hok⟩
  · cases h
  · cases h
    exact ⟨hle, hord, hok⟩

end

end picojson

namespace strangeio.config

open picojson

section
variable {N : Type} (t : number_text N) (c : casts N)

/-- What ends the loading of a document. -/
inductive load_error where
  | parse (e : stop)
  | type (e : type_error)
deriving DecidableEq, Repr

/-- A text, its error, which is printed, and its description, over what the memory has. -/
def document.load (g : contents) (config : bytes) : Except load_error (String × description) :=
  match parse t config with
  | .error e => .error (.parse e)
  | .ok (err, v) =>
    match parse_document c .root v (description.loading g) with
    | .error e => .error (.type e)
    | .ok d => .ok (err, d)

variable {t}

variable (t)

end

end strangeio.config
