-- The text of a document: the parser and the writer of the vendored picojson
-- (picojson/picojson.h), and what the loading of a document makes of them
-- (config/document.cpp). A std::string has one character for each of its bytes.
import StrangeIO.Document
import StrangeIO.Fallible

namespace picojson

open strangeio.config

abbrev bytes := List UInt8

/-- A `std::string` of these bytes. -/
def text (bs : bytes) : String := String.ofList (bs.map Char.ofUInt8)

/-- What ends a call without a result: a number that is too large for a double, an
`ungetc` after another one, or a loop that goes on for ever. -/
inductive stop where
  | overflow_error
  | assertion
  | unending
deriving DecidableEq, Repr

/-- What the C library makes of the text of a number, and the text that it makes of one.
`strtod` says how many characters it has taken. -/
structure number_text (N : Type) where
  strtod : bytes → N × Nat
  finite : N → Bool
  snprintf : N → bytes

/-! ## The input -/

/-- The end of the text is `none`. -/
structure input where
  cur_ : bytes
  last_ch_ : Option UInt8
  ungot_ : Bool
  line_ : Nat
  ungot_some : ungot_ = true → last_ch_ ≠ none

def newline : UInt8 := '\n'.toUInt8

namespace input

def new (s : bytes) : input where
  cur_ := s
  last_ch_ := none
  ungot_ := false
  line_ := 1
  ungot_some := by simp

def getc (inp : input) : Option UInt8 × input :=
  if inp.ungot_ then (inp.last_ch_, { inp with ungot_ := false, ungot_some := by simp })
  else
    match inp.cur_ with
    | [] => (none, { inp with last_ch_ := none, ungot_ := false, ungot_some := by simp })
    | ch :: rest =>
      (some ch,
        { cur_ := rest
          last_ch_ := some ch
          ungot_ := false
          line_ := if inp.last_ch_ = some newline then inp.line_ + 1 else inp.line_
          ungot_some := by simp })

def ungetc (inp : input) : Except stop input :=
  if h : inp.last_ch_ = none then .ok inp
  else if inp.ungot_ then .error .assertion
  else .ok { inp with ungot_ := true, ungot_some := fun _ => h }

/-- What `getc` goes on to give. -/
def left (inp : input) : bytes :=
  if inp.ungot_ then inp.last_ch_.toList ++ inp.cur_ else inp.cur_

def is_ws (ch : UInt8) : Bool :=
  ch = ' '.toUInt8 || ch = '\t'.toUInt8 || ch = newline || ch = '\r'.toUInt8

def skip_ws_loop : Nat → input → Except stop input
  | 0, _ => .error .unending
  | fuel + 1, inp =>
    let (ch, inp) := inp.getc
    if ch.any is_ws then skip_ws_loop fuel inp else inp.ungetc

def skip_ws (inp : input) : Except stop input := skip_ws_loop (inp.left.length + 1) inp

def expect (expected : UInt8) (inp : input) : Except stop (Bool × input) := do
  let inp ← inp.skip_ws
  let (ch, inp) := inp.getc
  if ch = some expected then .ok (true, inp) else .ok (false, ← inp.ungetc)

def match_pattern : bytes → input → Except stop (Bool × input)
  | [], inp => .ok (true, inp)
  | pi :: pattern, inp => do
    let (ch, inp) := inp.getc
    if ch = some pi then match_pattern pattern inp else .ok (false, ← inp.ungetc)

end input

/-! ## Strings -/

/-- The digit of a hexadecimal number. -/
def hex_digit (hex : UInt8) : Option Nat :=
  if '0'.toUInt8 ≤ hex ∧ hex ≤ '9'.toUInt8 then some (hex.toNat - '0'.toNat)
  else if 'A'.toUInt8 ≤ hex ∧ hex ≤ 'F'.toUInt8 then some (hex.toNat - ('A'.toNat - 0xa))
  else if 'a'.toUInt8 ≤ hex ∧ hex ≤ 'f'.toUInt8 then some (hex.toNat - ('a'.toNat - 0xa))
  else none

/-- So many digits of a number. The result -1 is `none`. -/
def quadhex_loop : Nat → Nat → input → Except stop (Option Nat × input)
  | 0, uni_ch, inp => .ok (some uni_ch, inp)
  | i + 1, uni_ch, inp => do
    let (hex, inp) := inp.getc
    match hex with
    | none => .ok (none, inp)
    | some hex =>
      match hex_digit hex with
      | some digit => quadhex_loop i (uni_ch * 16 + digit) inp
      | none => .ok (none, ← inp.ungetc)

def _parse_quadhex (inp : input) : Except stop (Option Nat × input) := quadhex_loop 4 0 inp

/-- The bytes that a code point is pushed back as. -/
def push_code_point (uni_ch : Nat) : bytes :=
  if uni_ch < 0x80 then [UInt8.ofNat uni_ch]
  else
    (if uni_ch < 0x800 then [UInt8.ofNat (0xc0 ||| uni_ch >>> 6)]
      else
        (if uni_ch < 0x10000 then [UInt8.ofNat (0xe0 ||| uni_ch >>> 12)]
          else
            [UInt8.ofNat (0xf0 ||| uni_ch >>> 18),
              UInt8.ofNat (0x80 ||| uni_ch >>> 12 &&& 0x3f)]) ++
          [UInt8.ofNat (0x80 ||| uni_ch >>> 6 &&& 0x3f)]) ++
      [UInt8.ofNat (0x80 ||| uni_ch &&& 0x3f)]

/-- The number that two surrogates stand for. -/
def join_surrogates (uni_ch second : Nat) : Nat :=
  ((uni_ch - 0xd800) <<< 10 ||| (second - 0xdc00) &&& 0x3ff) + 0x10000

def _parse_codepoint (out : bytes) (inp : input) : Except stop (Bool × bytes × input) := do
  let (uni_ch, inp) ← _parse_quadhex inp
  match uni_ch with
  | none => .ok (false, out, inp)
  | some uni_ch =>
    if 0xd800 ≤ uni_ch ∧ uni_ch ≤ 0xdfff then
      if 0xdc00 ≤ uni_ch then .ok (false, out, inp)
      else
        let (ch, inp) := inp.getc
        if ch = some '\\'.toUInt8 then
          let (ch, inp) := inp.getc
          if ch = some 'u'.toUInt8 then
            let (second, inp) ← _parse_quadhex inp
            match second with
            | none => .ok (false, out, inp)
            | some second =>
              if 0xdc00 ≤ second ∧ second ≤ 0xdfff then
                .ok (true, out ++ push_code_point (join_surrogates uni_ch second), inp)
              else .ok (false, out, inp)
          else .ok (false, out, ← inp.ungetc)
        else .ok (false, out, ← inp.ungetc)
    else .ok (true, out ++ push_code_point uni_ch, inp)

/-- What a character after a backslash stands for, but for the code points. -/
def escaped (ch : UInt8) : Option UInt8 :=
  if ch = '"'.toUInt8 then some '"'.toUInt8
  else if ch = '\\'.toUInt8 then some '\\'.toUInt8
  else if ch = '/'.toUInt8 then some '/'.toUInt8
  else if ch = 'b'.toUInt8 then some 8
  else if ch = 'f'.toUInt8 then some 12
  else if ch = 'n'.toUInt8 then some newline
  else if ch = 'r'.toUInt8 then some '\r'.toUInt8
  else if ch = 't'.toUInt8 then some '\t'.toUInt8
  else none

def parse_string_loop : Nat → bytes → input → Except stop (Bool × bytes × input)
  | 0, _, _ => .error .unending
  | fuel + 1, out, inp => do
    let (ch, inp) := inp.getc
    match ch with
    | none => .ok (false, out, ← inp.ungetc)
    | some ch =>
      if ch < ' '.toUInt8 then .ok (false, out, ← inp.ungetc)
      else if ch = '"'.toUInt8 then .ok (true, out, inp)
      else if ch = '\\'.toUInt8 then
        let (ch, inp) := inp.getc
        match ch with
        | none => .ok (false, out, inp)
        | some ch =>
          if ch = 'u'.toUInt8 then
            let (ok, out, inp) ← _parse_codepoint out inp
            if ok then parse_string_loop fuel out inp else .ok (false, out, inp)
          else
            match escaped ch with
            | some val => parse_string_loop fuel (out ++ [val]) inp
            | none => .ok (false, out, inp)
      else parse_string_loop fuel (out ++ [ch]) inp

/-- The bytes that are pushed back, also where the string is not read to its end. -/
def _parse_string (inp : input) : Except stop (Bool × bytes × input) :=
  parse_string_loop (inp.left.length + 1) [] inp

/-! ## Numbers -/

def is_digit (ch : UInt8) : Bool := '0'.toUInt8 ≤ ch && ch ≤ '9'.toUInt8

def in_number (ch : UInt8) : Bool :=
  is_digit ch || ch = '+'.toUInt8 || ch = '-'.toUInt8 || ch = 'e'.toUInt8 || ch = 'E'.toUInt8 ||
    ch = '.'.toUInt8

def parse_number_loop : Nat → bytes → input → Except stop (bytes × input)
  | 0, _, _ => .error .unending
  | fuel + 1, num_str, inp => do
    let (ch, inp) := inp.getc
    match ch with
    | none => .ok (num_str, ← inp.ungetc)
    | some ch =>
      if in_number ch then parse_number_loop fuel (num_str ++ [ch]) inp
      else .ok (num_str, ← inp.ungetc)

def _parse_number (inp : input) : Except stop (bytes × input) :=
  parse_number_loop (inp.left.length + 1) [] inp

/-! ## Values -/

section
variable {N : Type} (t : number_text N)

/-- A value is read into `out`. The flag is the result, and with it comes what `out` is then. -/
def literal (pattern : List Char) (v out : value N) (inp : input) :
    Except stop (Bool × value N × input) := do
  let (ok, inp) ← inp.match_pattern (pattern.map Char.toUInt8)
  if ok then .ok (true, v, inp) else .ok (false, out, inp)

/-- A number as the context sets it, if `strtod` takes all of its text. -/
def number (out : value N) (inp : input) : Except stop (Bool × value N × input) := do
  let (num_str, inp) ← _parse_number (← inp.ungetc)
  if num_str = [] then .ok (false, out, inp)
  else
    let (f, taken) := t.strtod num_str
    if taken = num_str.length then
      if t.finite f then .ok (true, .number f, inp) else .error .overflow_error
    else .ok (false, out, inp)

mutual

def _parse : Nat → value N → input →
    Except stop (Bool × value N × input)
  | 0, _, _ => .error .unending
  | fuel + 1, out, inp => do
    let inp ← inp.skip_ws
    let (ch, inp) := inp.getc
    match ch with
    | none => .ok (false, out, ← inp.ungetc)
    | some ch =>
      if ch = 'n'.toUInt8 then literal ['u', 'l', 'l'] .null out inp
      else if ch = 'f'.toUInt8 then literal ['a', 'l', 's', 'e'] (.boolean false) out inp
      else if ch = 't'.toUInt8 then literal ['r', 'u', 'e'] (.boolean true) out inp
      else if ch = '"'.toUInt8 then
        let (ok, s, inp) ← _parse_string inp
        .ok (ok, .string (text s), inp)
      else if ch = '['.toUInt8 then
        let (empty, inp) ← inp.expect ']'.toUInt8
        if empty then .ok (true, .array [], inp) else array_items fuel [] inp
      else if ch = '{'.toUInt8 then
        let (empty, inp) ← inp.expect '}'.toUInt8
        if empty then .ok (true, .object [], inp) else object_items fuel [] inp
      else if is_digit ch || ch = '-'.toUInt8 then number t out inp
      else .ok (false, out, ← inp.ungetc)

/-- The items of an array from the next one on. -/
def array_items : Nat → List (value N) → input →
    Except stop (Bool × value N × input)
  | 0, _, _ => .error .unending
  | fuel + 1, a, inp => do
    let (ok, v, inp) ← _parse fuel .null inp
    if ok then
      let (more, inp) ← inp.expect ','.toUInt8
      if more then array_items fuel (a ++ [v]) inp
      else
        let (closed, inp) ← inp.expect ']'.toUInt8
        .ok (closed, .array (a ++ [v]), inp)
    else .ok (false, .array (a ++ [v]), inp)

/-- The items of an object from the next one on, where `o[key]` is null until it is parsed. -/
def object_items : Nat → List (String × value N) → input →
    Except stop (Bool × value N × input)
  | 0, _, _ => .error .unending
  | fuel + 1, o, inp => do
    let (opened, inp) ← inp.expect '"'.toUInt8
    if opened then
      let (ok, key, inp) ← _parse_string inp
      if ok then
        let (colon, inp) ← inp.expect ':'.toUInt8
        if colon then
          let (ok, v, inp) ← _parse fuel ((o.lookup (text key)).getD .null) inp
          let o := key_order.set (text key) v o
          if ok then
            let (more, inp) ← inp.expect ','.toUInt8
            if more then object_items fuel o inp
            else
              let (closed, inp) ← inp.expect '}'.toUInt8
              .ok (closed, .object o, inp)
          else .ok (false, .object o, inp)
        else .ok (false, .object o, inp)
      else .ok (false, .object o, inp)
    else .ok (false, .object o, inp)

end

/-! ## A text -/

/-- What stands on the rest of the line, without the control characters. -/
def near_loop : Nat → bytes → input → Except stop bytes
  | 0, _, _ => .error .unending
  | fuel + 1, near, inp =>
    let (ch, inp) := inp.getc
    match ch with
    | none => .ok near
    | some ch =>
      if ch = newline then .ok near
      else if ' '.toUInt8 ≤ ch then near_loop fuel (near ++ [ch]) inp
      else near_loop fuel near inp

def syntax_error (line : Nat) (near : bytes) : String :=
  "syntax error at line " ++ toString line ++ " near: " ++ text near

/-- The error, which is empty if there is none, and what the value is then. -/
def parse (s : bytes) : Except stop (String × value N) := do
  let (ok, out, inp) ← _parse t (2 * s.length + 1) .null (input.new s)
  if ok then .ok ("", out)
  else .ok (syntax_error inp.line_ (← near_loop (inp.left.length + 1) [] inp), out)

/-! ## The writer -/

/-- A digit as `%x` writes it. -/
def hex_of (digit : Nat) : UInt8 :=
  if digit < 10 then UInt8.ofNat (digit + '0'.toNat) else UInt8.ofNat (digit - 10 + 'a'.toNat)

def escape_of (ch : UInt8) : Option UInt8 :=
  if ch = '"'.toUInt8 then some '"'.toUInt8
  else if ch = '\\'.toUInt8 then some '\\'.toUInt8
  else if ch = '/'.toUInt8 then some '/'.toUInt8
  else if ch = 8 then some 'b'.toUInt8
  else if ch = 12 then some 'f'.toUInt8
  else if ch = newline then some 'n'.toUInt8
  else if ch = '\r'.toUInt8 then some 'r'.toUInt8
  else if ch = '\t'.toUInt8 then some 't'.toUInt8
  else none

def serialize_char (ch : UInt8) : bytes :=
  match escape_of ch with
  | some e => ['\\'.toUInt8, e]
  | none =>
    if ch < 0x20 ∨ ch = 0x7f then
      ['\\'.toUInt8, 'u'.toUInt8, '0'.toUInt8, '0'.toUInt8, hex_of (ch.toNat / 16),
        hex_of (ch.toNat % 16)]
    else [ch]

def serialize_str (s : String) : bytes :=
  '"'.toUInt8 :: (s.toList.flatMap fun c => serialize_char c.toUInt8) ++ ['"'.toUInt8]

/-- The line break before an item. The indent -1 is `none`. -/
def _indent : Option Nat → bytes
  | none => []
  | some indent => newline :: List.replicate (indent * 2) ' '.toUInt8

/-- The comma before an item that is not the first one. -/
def comma (first : Bool) : bytes := if first then [] else [','.toUInt8]

/-- The line break after a whole text. -/
def line_end (indent : Option Nat) : bytes := if indent = some 0 then [newline] else []

mutual

def _serialize : value N → Option Nat → bytes
  | .null, indent => ['n', 'u', 'l', 'l'].map Char.toUInt8 ++ line_end indent
  | .boolean b, indent =>
    (if b then ['t', 'r', 'u', 'e'] else ['f', 'a', 'l', 's', 'e']).map Char.toUInt8 ++
      line_end indent
  | .number x, indent => t.snprintf x ++ line_end indent
  | .string s, indent => serialize_str s ++ line_end indent
  | .array vs, indent =>
    '['.toUInt8 :: serialize_items true vs (indent.map (· + 1)) ++
      (if vs.isEmpty then [] else _indent indent) ++ [']'.toUInt8] ++ line_end indent
  | .object o, indent =>
    '{'.toUInt8 :: serialize_members true o (indent.map (· + 1)) ++
      (if o.isEmpty then [] else _indent indent) ++ ['}'.toUInt8] ++ line_end indent
termination_by structural v => v

def serialize_items (first : Bool) : List (value N) → Option Nat → bytes
  | [], _ => []
  | v :: vs, indent =>
    comma first ++ _indent indent ++ _serialize v indent ++ serialize_items false vs indent
termination_by structural vs => vs

def serialize_members (first : Bool) : List (String × value N) → Option Nat → bytes
  | [], _ => []
  | e :: o, indent =>
    comma first ++ _indent indent ++ serialize_member e indent ++ serialize_members false o indent
termination_by structural o => o

def serialize_member : String × value N → Option Nat → bytes
  | (key, v), indent =>
    serialize_str key ++ ':'.toUInt8 :: (if indent.isSome then [' '.toUInt8] else []) ++
      _serialize v indent
termination_by structural e => e

end

def serialize (v : value N) (prettify : Bool) : bytes :=
  _serialize t v (if prettify then some 0 else none)

end

end picojson
