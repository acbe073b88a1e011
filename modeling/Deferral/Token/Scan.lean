import Deferral.Token

/-!
# Scanning tokens

The source is cut into pieces: blanks, comments and preprocessor lines on one side, tokens on the other. For each kind
of piece there is a function that counts its bytes after the first; `scanFrom` passes over that many. A preprocessor
line starts with a `#` before which the line holds nothing but blanks and comments.
-/

namespace Deferral.Token

/-- Why a source cannot be cut into tokens. -/
inductive ScanError where
  | unterminatedComment (offset : Nat)
  | unterminatedLiteral (offset : Nat)
  | newlineInLiteral (offset : Nat)
  | strayByte (byte : UInt8) (offset : Nat)
  deriving DecidableEq, Repr

namespace ScanError

def offset : ScanError → Nat
  | .unterminatedComment n => n
  | .unterminatedLiteral n => n
  | .newlineInLiteral n => n
  | .strayByte _ n => n

/-- A byte as two hexadecimal digits. -/
def hexByte (b : UInt8) : String :=
  String.ofList [Nat.digitChar (b.toNat / 16), Nat.digitChar (b.toNat % 16)]

def text : ScanError → String
  | .unterminatedComment _ => "unterminated comment"
  | .unterminatedLiteral _ => "unterminated literal"
  | .newlineInLiteral _ => "newline in literal"
  | .strayByte b _ => "stray byte 0x" ++ hexByte b

end ScanError

/-! ## Classes of bytes -/

def isDigitByte (b : UInt8) : Bool := 0x30 ≤ b && b ≤ 0x39

def isLetterByte (b : UInt8) : Bool := (0x61 ≤ b && b ≤ 0x7A) || (0x41 ≤ b && b ≤ 0x5A)

/-- First bytes of words. Bytes outside ASCII count as letters. -/
def isWordStart (b : UInt8) : Bool := isLetterByte b || b == '_'.toUInt8 || 0x80 ≤ b

def isWordByte (b : UInt8) : Bool := isWordStart b || isDigitByte b

/-- Blanks within a line. -/
def isBlankByte (b : UInt8) : Bool :=
  b == ' '.toUInt8 || b == '\t'.toUInt8 || b == '\r'.toUInt8 || b == 0x0B || b == 0x0C

def newline : UInt8 := '\n'.toUInt8

def backslash : UInt8 := '\\'.toUInt8

def isQuote (b : UInt8) : Bool := b == '"'.toUInt8 || b == '\''.toUInt8

/-! ## Pieces that are not tokens -/

/-- Bytes up to the end of the line. -/
def lineLength (bytes : List UInt8) : Nat := (bytes.takeWhile (· != newline)).length

/-- Bytes up to and including the `*/` of a comment, if there is one. -/
def commentLength? : List UInt8 → Option Nat
  | [] => none
  | [_] => none
  | b :: c :: rest =>
    if b == '*'.toUInt8 && c == '/'.toUInt8 then some 2 else (commentLength? (c :: rest)).map (· + 1)

/-- Bytes up to the end of a preprocessor line, which goes on after a backslash at the end of a line. -/
def directiveLength : List UInt8 → Nat
  | [] => 0
  | b :: rest =>
    if b == newline then 0
    else if b == backslash then
      match rest with
      | c :: rest' =>
        if c == newline then directiveLength rest' + 2
        else if c == '\r'.toUInt8 then
          match rest' with
          | d :: rest'' =>
            if d == newline then directiveLength rest'' + 3 else directiveLength (c :: d :: rest'') + 1
          | [] => directiveLength [c] + 1
        else directiveLength (c :: rest') + 1
      | [] => 1
    else directiveLength rest + 1

/-! ## Tokens -/

def wordLength (bytes : List UInt8) : Nat := (bytes.takeWhile isWordByte).length

def isExponentMark (b : UInt8) : Bool :=
  b == 'e'.toUInt8 || b == 'E'.toUInt8 || b == 'p'.toUInt8 || b == 'P'.toUInt8

def isSign (b : UInt8) : Bool := b == '+'.toUInt8 || b == '-'.toUInt8

/-- Bytes that continue a number: letters, digits, points, underscores, signs after an exponent mark and digit
separators. -/
def numberLength : List UInt8 → Nat
  | [] => 0
  | [b] => if isLetterByte b || isDigitByte b || b == '.'.toUInt8 || b == '_'.toUInt8 then 1 else 0
  | b :: c :: rest =>
    if isExponentMark b && isSign c then numberLength rest + 2
    else if isLetterByte b || isDigitByte b || b == '.'.toUInt8 || b == '_'.toUInt8 ||
        (b == '\''.toUInt8 && isDigitByte c) then
      numberLength (c :: rest) + 1
    else 0

/-- Bytes after the opening quote, up to and including the closing one. A backslash takes the next byte with it.
Errors point to `offset`. -/
def quotedLength (quote : UInt8) (offset : Nat) : List UInt8 → Except ScanError Nat
  | [] => .error (.unterminatedLiteral offset)
  | b :: rest =>
    if b == backslash then
      match rest with
      | [] => .error (.unterminatedLiteral offset)
      | _ :: rest' => (quotedLength quote offset rest').map (· + 2)
    else if b == newline then .error (.newlineInLiteral offset)
    else if b == quote then .ok 1
    else (quotedLength quote offset rest).map (· + 1)

/-- The length of an encoding mark (`L`, `u`, `U` or `u8`) before a quote, counted after its first byte, and the
quote. -/
def encodingMark? (b : UInt8) : List UInt8 → Option (Nat × UInt8)
  | c :: d :: _ =>
    if b == 'u'.toUInt8 && c == '8'.toUInt8 && isQuote d then some (1, d)
    else if (b == 'L'.toUInt8 || b == 'u'.toUInt8 || b == 'U'.toUInt8) && isQuote c then some (0, c)
    else none
  | [c] => if (b == 'L'.toUInt8 || b == 'u'.toUInt8 || b == 'U'.toUInt8) && isQuote c then some (0, c) else none
  | [] => none

/-- Punctuators of more than one byte, longest first. -/
def longPunctuators : List String :=
  ["...", "<<=", ">>=", "->", "++", "--", "<<", ">>", "<=", ">=", "==", "!=", "&&", "||", "+=", "-=", "*=", "/=",
    "%=", "&=", "|=", "^=", "##"]

def shortPunctuators : String := "\x7b\x7d()[];,.:?~!+-*/%<>=&|^#"

def punctuatorLength? (b : UInt8) (rest : List UInt8) : Option Nat :=
  match longPunctuators.find? fun p => (Utf8.encode p).isPrefixOf (b :: rest) with
  | some p => some (p.length - 1)
  | none => if (Utf8.encode shortPunctuators).contains b then some 0 else none

/-- The kind of literal that a quote opens. -/
def quoteKind (quote : UInt8) : Kind := if quote == '"'.toUInt8 then .stringLiteral else .charLiteral

/-! ## Pieces -/

/-- A piece of the source, with the number of its bytes after the first. -/
inductive Piece where
  /-- Text between tokens; `lineStart` says whether only blanks stand before what follows on its line. -/
  | skipped (more : Nat) (lineStart : Bool)
  | token (kind : Kind) (more : Nat)

/-- The piece that starts with byte `b` at `offset`. -/
def piece (lineStart : Bool) (offset : Nat) (b : UInt8) (rest : List UInt8) : Except ScanError Piece :=
  let next := rest.head?
  if b == newline then .ok (.skipped 0 true)
  else if isBlankByte b then .ok (.skipped 0 lineStart)
  else if b == backslash && next == some newline then .ok (.skipped 1 lineStart)
  else if b == '/'.toUInt8 && next == some '/'.toUInt8 then .ok (.skipped (lineLength rest) lineStart)
  else if b == '/'.toUInt8 && next == some '*'.toUInt8 then
    match commentLength? rest.tail with
    | some n => .ok (.skipped (n + 1) lineStart)
    | none => .error (.unterminatedComment offset)
  else if b == '#'.toUInt8 && lineStart then .ok (.skipped (directiveLength rest) lineStart)
  else if isWordStart b then
    match encodingMark? b rest with
    | some (n, quote) =>
      (quotedLength quote (offset + n + 1) (rest.drop (n + 1))).map fun k => .token (quoteKind quote) (n + 1 + k)
    | none => .ok (.token .word (wordLength rest))
  else if isDigitByte b || (b == '.'.toUInt8 && next.any isDigitByte) then .ok (.token .number (numberLength rest))
  else if isQuote b then (quotedLength b offset rest).map fun k => .token (quoteKind b) k
  else
    match punctuatorLength? b rest with
    | some n => .ok (.token .punct n)
    | none => .error (.strayByte b offset)

/-- Tokens of the bytes from `offset` on, after the next `pending` bytes. -/
def scanFrom (lineStart : Bool) (offset : Nat) : (pending : Nat) → List UInt8 → Except ScanError (List Token)
  | _, [] => .ok []
  | pending + 1, _ :: rest => scanFrom lineStart (offset + 1) pending rest
  | 0, b :: rest =>
    match piece lineStart offset b rest with
    | .error e => .error e
    | .ok (.skipped more atStart) => scanFrom atStart (offset + 1) more rest
    | .ok (.token kind more) =>
      match scanFrom false (offset + 1) more rest with
      | .error e => .error e
      | .ok tokens => .ok (⟨kind, offset, b :: rest.take more⟩ :: tokens)

/-- All tokens of a source, or the first place where it cannot be cut. -/
def scan (source : List UInt8) : Except ScanError (List Token) := scanFrom true 0 0 source

end Deferral.Token
