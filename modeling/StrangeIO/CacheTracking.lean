-- The script that looks for lost cache pointers in the log, scripts/cache_tracking.py, and the
-- lines that it reads: what it makes of each of them, and what it reports of a log.
import Mathlib.Data.List.Induction
import Mathlib.Data.List.Nodup
import Mathlib.Data.List.ReduceOption
import Mathlib.Data.Set.Insert

namespace strangeio.cache_tracking

/-! ## The script -/

inductive python_error where
  | ValueError
  | IndexError
deriving DecidableEq, Repr

def startswith (line mark : String) : Bool := mark.toList.isPrefixOf line.toList

/-- The digits up to the first bracket, where the lines have no characters but ASCII. -/
def get_tid (line : String) : Int :=
  let tid := (line.toList.takeWhile (· ≠ ']')).filter Char.isDigit
  if tid = [] then -1 else Nat.ofDigitChars 10 tid 0

/-- `split` at no more than so many separators. -/
def split (sep : Char) : Nat → List Char → List (List Char)
  | _, [] => [[]]
  | 0, cs => [cs]
  | n + 1, c :: cs =>
    if c = sep then [] :: split sep n cs
    else
      match split sep (n + 1) cs with
      | [] => [[c]]
      | word :: words => (c :: word) :: words

/-- `remove` of a list: the first one goes, and there has to be one. -/
def remove (active : List Int) (tid : Int) : Except python_error (List Int) :=
  if tid ∈ active then .ok (active.erase tid) else .error .ValueError

/-- One turn of the first loop of `lost_ptr`. -/
def track (active : List Int) (line : String) : Except python_error (List Int) :=
  let active := if startswith line "* cache_ptr" then active ++ [get_tid line] else active
  if startswith line "~ cache_ptr" || startswith line "# cache_ptr" then
    remove active (get_tid line)
  else .ok active

/-- What the second loop prints of an id, if it finds a line about its owner. -/
def row (lines : List String) (tid : Int) : Except python_error (Option (Int × String)) :=
  match lines.find? (startswith · ("> cache_ptr [" ++ toString tid ++ "]")) with
  | none => .ok none
  | some line =>
    match (split ' ' 4 line.toList)[3]? with
    | none => .error .IndexError
    | some owner => .ok (some (tid, String.ofList owner))

/-- The total that is printed, and the rows under it. -/
structure report where
  total : Nat
  rows : List (Int × String)
deriving DecidableEq, Repr

def lost_ptr (lines : List String) : Except python_error report := do
  let active ← lines.foldlM track []
  let rows ← active.mapM (row lines)
  return { total := active.length, rows := rows.reduceOption }

/-- The lines of a text, where `line` was read of the first one. A text ends a line in each
of the three ways that a file opened as text may. -/
def read_lines (line : List Char) : List Char → List (List Char)
  | [] => if line = [] then [] else [line]
  | '\n' :: cs => line :: read_lines [] cs
  | '\r' :: '\n' :: cs => line :: read_lines [] cs
  | '\r' :: cs => line :: read_lines [] cs
  | c :: cs => read_lines (line ++ [c]) cs

def load_log (text : List Char) : List String := (read_lines [] text).map String.ofList

/-- What the log has written when each line was flushed. -/
def written (lines : List String) : List Char := lines.flatMap fun line => line.toList ++ ['\n']

def OneLine (line : String) : Prop := ∀ c ∈ line.toList, c ≠ '\n' ∧ c ≠ '\r'

theorem read_lines_line {cs : List Char} (hcs : ∀ c ∈ cs, c ≠ '\n' ∧ c ≠ '\r')
    (line rest : List Char) :
    read_lines line (cs ++ '\n' :: rest) = (line ++ cs) :: read_lines [] rest := by
  induction cs generalizing line with
  | nil => simp [read_lines]
  | cons c cs ih =>
    obtain ⟨hn, hr⟩ := hcs c List.mem_cons_self
    have hstep : read_lines line (c :: (cs ++ '\n' :: rest)) =
        read_lines (line ++ [c]) (cs ++ '\n' :: rest) := by
      rw [read_lines]
      · exact hn
      · exact fun _ e => absurd e hr
      · exact hr
    rw [List.cons_append, hstep, ih fun d hd => hcs d (List.mem_cons_of_mem _ hd)]
    simp

/-- What was written is read back line by line. -/
theorem load_log_written {lines : List String} (h : ∀ line ∈ lines, OneLine line) :
    load_log (written lines) = lines := by
  unfold load_log
  induction lines with
  | nil => rfl
  | cons line lines ih =>
    have hread : written (line :: lines) = line.toList ++ '\n' :: written lines := by
      simp [written]
    rw [hread, read_lines_line (h line List.mem_cons_self), List.map_cons,
      ih fun l hl => h l (List.mem_cons_of_mem _ hl)]
    simp

/-! ## The lines -/

/-- What the log says of a pointer: that a unit allocated it, or its owner when
it is handed on, destroyed or freed. -/
inductive entry where
  | allocated (id : Nat)
  | owned (id : Nat) (owner : String)
  | destroyed (id : Nat) (owner : String)
  | freed (id : Nat) (owner : String)
deriving DecidableEq, Repr

namespace entry

def id : entry → Nat
  | allocated id | owned id _ | destroyed id _ | freed id _ => id

def mark : entry → Char
  | allocated _ => '*'
  | owned _ _ => '>'
  | destroyed _ _ => '~'
  | freed _ _ => '#'

/-- What follows the bracket. -/
def tail : entry → String
  | allocated _ => ""
  | owned _ owner | destroyed _ owner | freed _ owner => " " ++ owner

def text (e : entry) : String :=
  String.singleton e.mark ++ " cache_ptr [" ++ toString e.id ++ "]" ++ e.tail

end entry

theorem text_toList (e : entry) : e.text.toList =
    e.mark :: (" cache_ptr [".toList ++ (Nat.toDigits 10 e.id ++ ']' :: e.tail.toList)) := by
  simp [entry.text, Nat.toList_repr]

/-! ## What the script makes of a line -/

theorem takeWhile_append_cons {α : Type} {p : α → Bool} {xs ys : List α} {y : α}
    (hxs : ∀ x ∈ xs, p x = true) (hy : p y = false) : (xs ++ y :: ys).takeWhile p = xs := by
  rw [List.takeWhile_append_of_pos hxs, List.takeWhile_cons, hy]
  simp

theorem ne_of_all {cs : List Char} {d : Char} (h : cs.all (· != d) = true) : ∀ c ∈ cs, c ≠ d := by
  intro c hc
  simpa using List.all_eq_true.mp h c hc

theorem bracket_not_mem {n : Nat} {c : Char} (h : c ∈ Nat.toDigits 10 n) : c ≠ ']' := by
  rintro rfl
  have := Nat.isDigit_of_mem_toDigits (by decide) (by decide) h
  exact absurd this (by decide)

/-- The digits of a line are those of its id. -/
theorem get_tid_text (e : entry) : get_tid e.text = e.id := by
  have hhead : ∀ c ∈ e.mark :: (" cache_ptr [".toList ++ Nat.toDigits 10 e.id),
      (decide (c ≠ ']')) = true := by
    intro c hc
    rw [List.mem_cons, List.mem_append] at hc
    rcases hc with rfl | hc | hc
    · cases e <;> rfl
    · simpa using ne_of_all (d := ']') (by decide) c hc
    · simpa using bracket_not_mem hc
  have htake : e.text.toList.takeWhile (· ≠ ']') =
      e.mark :: (" cache_ptr [".toList ++ Nat.toDigits 10 e.id) := by
    have hsplit : e.text.toList = (e.mark :: (" cache_ptr [".toList ++ Nat.toDigits 10 e.id)) ++
        ']' :: e.tail.toList := by
      rw [text_toList]
      simp
    rw [hsplit]
    exact takeWhile_append_cons hhead (by decide)
  have hmark : e.mark.isDigit = false := by cases e <;> rfl
  have hfilter : (e.mark :: (" cache_ptr [".toList ++ Nat.toDigits 10 e.id)).filter Char.isDigit =
      Nat.toDigits 10 e.id := by
    rw [List.filter_cons, hmark, if_neg (by simp), List.filter_append]
    have hword : " cache_ptr [".toList.filter Char.isDigit = [] := by decide
    rw [hword, List.nil_append, List.filter_eq_self]
    exact fun c hc => Nat.isDigit_of_mem_toDigits (by decide) (by decide) hc
  unfold get_tid
  simp only [htake, hfilter]
  rw [if_neg (Nat.toDigits_ne_nil), Nat.ofDigitChars_toDigits (by decide) (by decide)]

theorem toDigits_inj {j k : Nat} (h : Nat.toDigits 10 j = Nat.toDigits 10 k) : j = k := by
  have hread := congrArg (fun digits => Nat.ofDigitChars 10 digits 0) h
  simpa [Nat.ofDigitChars_toDigits] using hread

theorem startswith_mark (e : entry) (mark : String) (c : Char)
    (h : mark.toList = c :: " cache_ptr".toList) : startswith e.text mark = (c == e.mark) := by
  have hrest : " cache_ptr".toList <+:
      " cache_ptr [".toList ++ (Nat.toDigits 10 e.id ++ ']' :: e.tail.toList) := by
    have hword : " cache_ptr [".toList = " cache_ptr".toList ++ " [".toList := by decide
    rw [hword, List.append_assoc]
    exact List.prefix_append _ _
  unfold startswith
  rw [text_toList, h, List.isPrefixOf_cons_cons, List.isPrefixOf_iff_prefix.mpr hrest,
    Bool.and_true]

/-- Only the lines about an owner of the id begin with the mark and the id. -/
theorem startswith_owned (e : entry) (k : Nat) :
    startswith e.text ("> cache_ptr [" ++ toString (k : Int) ++ "]") = true ↔
      ∃ owner, e = .owned k owner := by
  have hmark : ("> cache_ptr [" ++ toString (k : Int) ++ "]").toList =
      '>' :: (" cache_ptr [".toList ++ (Nat.toDigits 10 k ++ [']'])) := by
    have hrepr : toString (k : Int) = Nat.repr k := rfl
    rw [hrepr]
    simp [Nat.toList_repr]
  unfold startswith
  rw [List.isPrefixOf_iff_prefix, hmark, text_toList, List.cons_prefix_cons,
    List.prefix_append_right_inj]
  constructor
  · rintro ⟨hc, t, ht⟩
    rw [List.append_assoc, List.singleton_append] at ht
    have hread := congrArg (List.takeWhile (· ≠ ']')) ht
    have hdigits : ∀ n, ∀ c ∈ Nat.toDigits 10 n, (decide (c ≠ ']')) = true := fun n c hc => by
      simpa using bracket_not_mem hc
    rw [takeWhile_append_cons (hdigits k) (by decide),
      takeWhile_append_cons (hdigits e.id) (by decide)] at hread
    have hid := toDigits_inj hread
    cases e with
    | owned j owner => exact ⟨owner, by rw [hid]; rfl⟩
    | allocated j => exact absurd hc (by simp [entry.mark])
    | destroyed j owner => exact absurd hc (by simp [entry.mark])
    | freed j owner => exact absurd hc (by simp [entry.mark])
  · rintro ⟨owner, rfl⟩
    refine ⟨rfl, (" " ++ owner).toList, ?_⟩
    simp [entry.id, entry.tail]

/-! ## What the script makes of a log -/

/-- What an entry does to the ids of the pointers that are in use. -/
def follow (active : List Int) : entry → Except python_error (List Int)
  | .allocated id => .ok (active ++ [(id : Int)])
  | .owned _ _ => .ok active
  | .destroyed id _ | .freed id _ => remove active id

theorem track_text (active : List Int) (e : entry) : track active e.text = follow active e := by
  unfold track
  rw [startswith_mark e "* cache_ptr" '*' (by decide),
    startswith_mark e "~ cache_ptr" '~' (by decide),
    startswith_mark e "# cache_ptr" '#' (by decide), get_tid_text]
  cases e <;> rfl

/-- The ids that a log leaves in use, by its entries. -/
def replay (es : List entry) : Except python_error (List Int) := es.foldlM follow []

theorem foldlM_track (es : List entry) : (es.map entry.text).foldlM track [] = replay es := by
  rw [List.foldlM_map]
  exact congrArg (fun f => es.foldlM f []) (funext fun a => funext fun e => track_text a e)

theorem replay_append {es : List entry} {active : List Int} (h : replay es = .ok active)
    (new : List entry) : replay (es ++ new) = new.foldlM follow active := by
  unfold replay at h ⊢
  rw [List.foldlM_append, h]
  rfl

/-- The ids that are in use were allocated. -/
theorem allocated_of_mem {es : List entry} {active : List Int} (h : replay es = .ok active)
    {tid : Int} (htid : tid ∈ active) : ∃ k : Nat, tid = k ∧ entry.allocated k ∈ es := by
  induction es using List.reverseRecOn generalizing active with
  | nil =>
    cases h
    cases htid
  | append_singleton es e ih =>
    rcases hes : replay es with err | old
    · unfold replay at h hes
      rw [List.foldlM_append, hes] at h
      cases h
    rw [replay_append hes, List.foldlM_cons] at h
    have hold : tid ∈ old → ∃ k : Nat, tid = k ∧ entry.allocated k ∈ es ++ [e] := fun hmem => by
      obtain ⟨k, hk, hin⟩ := ih hes hmem
      exact ⟨k, hk, List.mem_append_left _ hin⟩
    have hremove : ∀ id : Int, remove old id >>= (fun active => [].foldlM follow active) =
        .ok active → tid ∈ old := fun id hr => by
      unfold remove at hr
      split at hr
      · cases hr
        exact List.mem_of_mem_erase htid
      · cases hr
    cases e with
    | allocated id =>
      cases h
      rcases List.mem_append.mp htid with hmem | hnew
      · exact hold hmem
      · exact ⟨id, List.mem_singleton.mp hnew, by simp⟩
    | owned id owner =>
      cases h
      exact hold htid
    | destroyed id owner => exact hold (hremove _ h)
    | freed id owner => exact hold (hremove _ h)

/-! ## The rows of the report -/

theorem split_ne_nil (sep : Char) (n : Nat) (cs : List Char) : split sep n cs ≠ [] := by
  fun_induction split sep n cs <;> simp

/-- A word and the separator after it come off the front. -/
theorem split_word {sep : Char} {w : List Char} (hw : ∀ c ∈ w, c ≠ sep) (n : Nat)
    (cs : List Char) : split sep (n + 1) (w ++ sep :: cs) = w :: split sep n cs := by
  induction w with
  | nil => simp [split]
  | cons c w ih =>
    have hc := hw c List.mem_cons_self
    rw [List.cons_append, split, if_neg hc, ih fun d hd => hw d (List.mem_cons_of_mem _ hd)]

/-- The first word of what is left. -/
theorem split_head (sep : Char) (n : Nat) (cs : List Char) :
    (split sep (n + 1) cs)[0]? = some (cs.takeWhile (· ≠ sep)) := by
  induction cs with
  | nil => rfl
  | cons c cs ih =>
    rw [split, List.takeWhile_cons]
    by_cases hc : c = sep
    · simp [hc]
    · rcases hsplit : split sep (n + 1) cs with _ | ⟨word, words⟩
      · exact absurd hsplit (split_ne_nil _ _ _)
      · rw [hsplit] at ih
        simpa [hc] using ih

/-- The fourth word of a line about an owner is the owner, up to a space in it. -/
theorem split_owned (k : Nat) (owner : String) :
    (split ' ' 4 (entry.owned k owner).text.toList)[3]? =
      some (owner.toList.takeWhile (· ≠ ' ')) := by
  have hline : (entry.owned k owner).text.toList = ['>'] ++ ' ' :: ("cache_ptr".toList ++ ' ' ::
      (('[' :: (Nat.toDigits 10 k ++ [']'])) ++ ' ' :: owner.toList)) := by
    rw [text_toList]
    simp [entry.mark, entry.id, entry.tail]
  have hdigits : ∀ c ∈ '[' :: (Nat.toDigits 10 k ++ [']']), c ≠ ' ' := by
    intro c hc
    rw [List.mem_cons, List.mem_append, List.mem_singleton] at hc
    rcases hc with rfl | hc | rfl
    · decide
    · rintro rfl
      have := Nat.isDigit_of_mem_toDigits (by decide) (by decide) hc
      exact absurd this (by decide)
    · decide
  rw [hline, split_word (ne_of_all (by decide)), split_word (ne_of_all (by decide)),
    split_word hdigits]
  exact split_head ' ' 0 owner.toList

/-- The row of an id shows the first owner that the log names. -/
theorem row_text {es : List entry} {k : Nat} {owner : String}
    (h : entry.owned k owner ∈ es) :
    ∃ first, row (es.map entry.text) k = .ok (some ((k : Int), first)) := by
  unfold row
  rcases hf : (es.map entry.text).find?
    (startswith · ("> cache_ptr [" ++ toString (k : Int) ++ "]"))
    with _ | line
  · have := List.find?_eq_none.mp hf _ (List.mem_map_of_mem h)
    exact absurd ((startswith_owned _ k).mpr ⟨owner, rfl⟩) this
  · obtain ⟨e, -, rfl⟩ := List.mem_map.mp (List.mem_of_find?_eq_some hf)
    have hmark : startswith e.text ("> cache_ptr [" ++ toString (k : Int) ++ "]") = true := by
      simpa using List.find?_some hf
    obtain ⟨first, rfl⟩ := (startswith_owned e k).mp hmark
    simp only [split_owned]
    exact ⟨_, rfl⟩

theorem rows_text {es : List entry} {active : List Int}
    (h : ∀ tid ∈ active, ∃ (k : Nat) (owner : String), tid = k ∧ entry.owned k owner ∈ es) :
    ∃ rows, active.mapM (row (es.map entry.text)) = .ok rows ∧
      rows.reduceOption.map Prod.fst = active := by
  induction active with
  | nil => exact ⟨[], rfl, rfl⟩
  | cons tid active ih =>
    obtain ⟨k, owner, rfl, hin⟩ := h tid List.mem_cons_self
    obtain ⟨first, hrow⟩ := row_text hin
    obtain ⟨rows, hrows, hids⟩ := ih fun t ht => h t (List.mem_cons_of_mem _ ht)
    refine ⟨some ((k : Int), first) :: rows, ?_, ?_⟩
    · rw [List.mapM_cons, hrow, hrows]
      rfl
    · rw [List.reduceOption_cons_of_some, List.map_cons, hids]

/-- Where each pointer that was allocated has had an owner, the report of a log lists the
ids that the log leaves in use. -/
theorem lost_ptr_text {es : List entry}
    (howners : ∀ k, entry.allocated k ∈ es → ∃ owner, entry.owned k owner ∈ es) :
    (∀ err, replay es = .error err → lost_ptr (es.map entry.text) = .error err) ∧
      ∀ active, replay es = .ok active → ∃ r, lost_ptr (es.map entry.text) = .ok r ∧
        r.total = active.length ∧ r.rows.map Prod.fst = active := by
  refine ⟨fun err h => ?_, fun active h => ?_⟩
  · unfold lost_ptr
    rw [foldlM_track, h]
    rfl
  · obtain ⟨rows, hrows, hids⟩ := @rows_text es active fun tid htid => by
      obtain ⟨k, hk, hin⟩ := allocated_of_mem h htid
      obtain ⟨owner, howner⟩ := howners k hin
      exact ⟨k, owner, hk, howner⟩
    refine ⟨{ total := active.length, rows := rows.reduceOption }, ?_, rfl, hids⟩
    unfold lost_ptr
    rw [foldlM_track, h]
    simp only [bind, Except.bind, hrows]
    rfl

/-! ## A report that is right -/

/-- The script ends without an exception, and its report lists these ids once each. -/
def Reports (lines : List String) (ids : Set Int) : Prop :=
  ∃ r, lost_ptr lines = .ok r ∧ r.total = r.rows.length ∧ (r.rows.map Prod.fst).Nodup ∧
    ∀ id, id ∈ r.rows.map Prod.fst ↔ id ∈ ids

/-- The first loop of the script ends with these ids. -/
def Follows (lines : List String) (ids : Set Int) : Prop :=
  ∃ active, lines.foldlM track [] = .ok active ∧ active.Nodup ∧ ∀ id, id ∈ active ↔ id ∈ ids

/-- The lines are those of a log in which each pointer that was allocated has an owner. -/
def Complete (lines : List String) : Prop :=
  ∃ es : List entry, lines = es.map entry.text ∧
    ∀ k, entry.allocated k ∈ es → ∃ owner, entry.owned k owner ∈ es

theorem reports_iff {lines : List String} (h : Complete lines) (ids : Set Int) :
    Reports lines ids ↔ Follows lines ids := by
  obtain ⟨es, rfl, howners⟩ := h
  obtain ⟨herror, hok⟩ := lost_ptr_text howners
  unfold Reports Follows
  rw [foldlM_track]
  rcases hes : replay es with err | active
  · rw [herror err hes]
    simp
  · obtain ⟨r, hr, htotal, hids⟩ := hok active hes
    have hlength : r.total = r.rows.length := by
      rw [htotal, ← hids, List.length_map]
    constructor
    · rintro ⟨r', hr', -, hnodup, hmem⟩
      rw [hr] at hr'
      cases hr'
      rw [hids] at hnodup hmem
      exact ⟨active, rfl, hnodup, hmem⟩
    · rintro ⟨active', hactive, hnodup, hmem⟩
      cases hactive
      rw [← hids] at hnodup hmem
      exact ⟨r, hr, hlength, hnodup, hmem⟩

theorem not_reports_of_error {lines : List String} {err : python_error}
    (h : lost_ptr lines = .error err) (ids : Set Int) : ¬ Reports lines ids := by
  rintro ⟨r, hr, -⟩
  rw [h] at hr
  cases hr

theorem not_reports_of_missing {lines : List String} {r : report} (h : lost_ptr lines = .ok r)
    {ids : Set Int} {id : Int} (hid : id ∈ ids) (hrow : id ∉ r.rows.map Prod.fst) :
    ¬ Reports lines ids := by
  rintro ⟨r', hr, -, -, hids⟩
  rw [h] at hr
  cases hr
  exact hrow ((hids id).mpr hid)

theorem complete_nil : Complete [] := ⟨[], rfl, fun _ h => by cases h⟩

/-- A line that is not an allocation keeps the log complete. -/
theorem Complete.snoc {lines : List String} (h : Complete lines) {e : entry}
    (he : e.mark ≠ '*') : Complete (lines ++ [e.text]) := by
  obtain ⟨es, rfl, howners⟩ := h
  refine ⟨es ++ [e], by simp, fun k hk => ?_⟩
  rcases List.mem_append.mp hk with hk | hk
  · obtain ⟨owner, hin⟩ := howners k hk
    exact ⟨owner, List.mem_append_left _ hin⟩
  · rw [← List.mem_singleton.mp hk] at he
    exact absurd rfl he

/-- So does an allocation with the line about the owner after it. -/
theorem Complete.allocated {lines : List String} (h : Complete lines) (k : Nat) (owner : String) :
    Complete (lines ++ [(entry.allocated k).text] ++ [(entry.owned k owner).text]) := by
  obtain ⟨es, rfl, howners⟩ := h
  refine ⟨es ++ [.allocated k, .owned k owner], by simp, fun j hj => ?_⟩
  rcases List.mem_append.mp hj with hj | hj
  · obtain ⟨other, hin⟩ := howners j hj
    exact ⟨other, List.mem_append_left _ hin⟩
  · obtain rfl : j = k := by simpa using hj
    exact ⟨owner, by simp⟩

theorem follows_nil : Follows [] ∅ := ⟨[], rfl, List.nodup_nil, fun _ => by simp⟩

theorem foldlM_snoc (lines : List String) (e : entry) {active : List Int}
    (h : lines.foldlM track [] = .ok active) :
    (lines ++ [e.text]).foldlM track [] = follow active e := by
  rw [List.foldlM_append, h]
  simp only [bind, Except.bind, List.foldlM_cons, List.foldlM_nil, track_text]
  cases follow active e <;> rfl

theorem foldlM_error {lines : List String} {err : python_error}
    (h : lines.foldlM track [] = .error err) (more : List String) :
    (lines ++ more).foldlM track [] = .error err := by
  rw [List.foldlM_append, h]
  rfl

/-- A line about an owner changes no id. -/
theorem follows_owned (lines : List String) (k : Nat) (owner : String) (ids : Set Int) :
    Follows (lines ++ [(entry.owned k owner).text]) ids ↔ Follows lines ids := by
  unfold Follows
  rcases h : lines.foldlM track [] with err | active
  · rw [foldlM_error h]
  · rw [foldlM_snoc lines _ h]
    rfl

theorem follows_allocated {lines : List String} {ids : Set Int} (h : Follows lines ids) {k : Nat}
    (hk : (k : Int) ∉ ids) :
    Follows (lines ++ [(entry.allocated k).text]) (insert (k : Int) ids) := by
  obtain ⟨active, hactive, hnodup, hmem⟩ := h
  refine ⟨active ++ [(k : Int)], foldlM_snoc lines _ hactive, ?_, fun id => ?_⟩
  · refine List.nodup_append.mpr ⟨hnodup, List.nodup_singleton _, fun a ha b hb => ?_⟩
    rintro rfl
    rw [List.mem_singleton.mp hb, hmem] at ha
    exact hk ha
  · rw [List.mem_append, List.mem_singleton, hmem, Set.mem_insert_iff, or_comm]

/-- An allocation of an id that is not in use is in the report all the same. -/
theorem not_follows_allocated {lines : List String} {ids : Set Int} {k : Nat}
    (hk : (k : Int) ∉ ids) : ¬ Follows (lines ++ [(entry.allocated k).text]) ids := by
  rintro ⟨active, hactive, -, hmem⟩
  rcases h : lines.foldlM track [] with err | old
  · rw [foldlM_error h] at hactive
    cases hactive
  · rw [foldlM_snoc lines _ h] at hactive
    cases hactive
    exact hk ((hmem k).mp (by simp))

/-- A line that a pointer is destroyed or freed takes the id off the report that it
names: that of the pointer which is gone, or the report is wrong. -/
theorem follows_remove {lines : List String} {ids : Set Int} (h : Follows lines ids) {g : Int}
    (hg : g ∈ ids) {e : entry} (he : e.mark = '~' ∨ e.mark = '#') :
    Follows (lines ++ [e.text]) (ids \ {g}) ↔ (e.id : Int) = g := by
  obtain ⟨active, hactive, hnodup, hmem⟩ := h
  have hfollow : follow active e = remove active e.id := by
    cases e with
    | allocated k => simp [entry.mark] at he
    | owned k owner => simp [entry.mark] at he
    | destroyed k owner => rfl
    | freed k owner => rfl
  unfold Follows
  rw [foldlM_snoc lines e hactive, hfollow]
  constructor
  · rintro ⟨after, hafter, -, hids⟩
    by_contra hne
    have hstays : g ∈ after := by
      unfold remove at hafter
      split at hafter
      · cases hafter
        exact (List.mem_erase_of_ne (Ne.symm hne)).mpr ((hmem g).mpr hg)
      · cases hafter
    exact ((hids g).mp hstays).2 rfl
  · intro hid
    rw [hid]
    refine ⟨active.erase g, if_pos ((hmem g).mpr hg), hnodup.erase g, fun id => ?_⟩
    rw [hnodup.mem_erase_iff, hmem]
    simp [and_comm]

end strangeio.cache_tracking
