/-!
# Terminal control sequences

What is written to a stream that is no terminal is plain text: control characters other than blanks are left out, and
so are the sequences that ESC begins. `Text.withoutControls` makes text plain.

A blank control character inside a short sequence is no part of it. It stays, and so does the text after it, up to the
next character that is left out; there the sequence goes on.
-/

namespace Deferral.Text

/-- The control sequence that is open. -/
inductive Sequence where
  /-- No sequence is open. -/
  | plain
  /-- After ESC. -/
  | escape
  /-- After ESC and intermediate characters. -/
  | intermediate
  /-- After ESC and `[`, up to a final character. -/
  | control
  /-- After ESC and `P`; parameters, intermediate characters and a final character precede a string. -/
  | deviceEntry
  | deviceParameters
  | deviceIntermediates
  /-- A string, up to the byte 0x9C. -/
  | string
  /-- After ESC and `]`, up to BEL. -/
  | command
  deriving DecidableEq, Repr

namespace Sequence

/-- What is open after ESC and one character. -/
def afterEscape (c : Char) : Sequence :=
  let n := c.toNat
  if 0x20 ≤ n && n ≤ 0x2F then .intermediate
  else if c = '[' then .control
  else if c = ']' then .command
  else if c = 'P' then .deviceEntry
  else if c = 'X' || c = '^' || c = '_' then .string
  else if 0x30 ≤ n && n ≤ 0x7E then .plain
  else .escape

/-- What is open after one more character. ESC begins anew, CAN and SUB break off. -/
def next (s : Sequence) (c : Char) : Sequence :=
  let n := c.toNat
  if n = 0x1B then .escape
  else if n = 0x18 || n = 0x1A then .plain
  else
    match s with
    | .plain => .plain
    | .escape => afterEscape c
    | .intermediate => if 0x30 ≤ n && n ≤ 0x7E then .plain else .intermediate
    | .control => if 0x40 ≤ n && n ≤ 0x7E then .plain else .control
    | .deviceEntry =>
      if 0x20 ≤ n && n ≤ 0x2F then .deviceIntermediates
      else if 0x30 ≤ n && n ≤ 0x3F then .deviceParameters
      else if 0x40 ≤ n && n ≤ 0x7E then .string
      else .deviceEntry
    | .deviceParameters =>
      if 0x20 ≤ n && n ≤ 0x2F then .deviceIntermediates
      else if 0x3C ≤ n && n ≤ 0x7E then .string
      else .deviceParameters
    | .deviceIntermediates => if 0x30 ≤ n && n ≤ 0x7E then .string else .deviceIntermediates
    | .string => if (String.utf8EncodeChar c).contains 0x9C then .plain else .string
    | .command => if n = 0x07 then .plain else .command

/-- Whether a blank control character stays inside the sequence. -/
def keepsBlanks : Sequence → Bool
  | .plain | .escape | .intermediate | .control => true
  | _ => false

end Sequence

/-- Tab, line feed, form feed and carriage return. -/
def isBlankControl (c : Char) : Bool := c == '\t' || c == '\n' || c == '\x0c' || c == '\r'

/-- Whether a character is no control character, blanks apart. -/
def isPlain (c : Char) : Bool := isBlankControl c || (0x20 ≤ c.toNat && c.toNat != 0x7F)

/-- The characters that stay, where `s` is open; `passing` says that text passes all the same. A character beyond ASCII
that stays closes the sequence. -/
def plainFrom : (s : Sequence) → (passing : Bool) → List Char → List Char
  | _, _, [] => []
  | s, passing, c :: rest =>
    if (isBlankControl c && s.keepsBlanks) || ((passing || s = .plain) && isPlain c) then
      c :: plainFrom (if c.toNat < 0x80 then s else .plain) true rest
    else plainFrom (s.next c) false rest

/-- The text without control characters and control sequences. -/
def withoutControls (s : String) : String := String.ofList (plainFrom .plain false s.toList)

end Deferral.Text
