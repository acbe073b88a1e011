import Deferral.Span
import Deferral.Text.Utf8

/-!
# Tokens

A token is its kind, where it starts, and its bytes. `Token.text` is what keywords and punctuators are compared with;
bytes that are not UTF-8 match none of them, so such a token has the empty text. `Token.literal` is what is shown.
-/

namespace Deferral

inductive Token.Kind where
  /-- Identifiers and keywords. -/
  | word
  | number
  | stringLiteral
  | charLiteral
  | punct
  deriving DecidableEq, Repr

structure Token where
  kind : Token.Kind
  start : Nat
  bytes : List UInt8
  deriving DecidableEq, Repr

namespace Token

def stop (t : Token) : Nat := t.start + t.bytes.length

def span (t : Token) : Span := ⟨t.start, t.stop⟩

def text (t : Token) : String := (Utf8.strict? t.bytes).getD ""

def literal (t : Token) : String := Utf8.lossy t.bytes

def isPunct (t : Token) (p : String) : Bool := t.kind == .punct && t.text == p

def isWord (t : Token) (w : String) : Bool := t.kind == .word && t.text == w

/-! ## Kinds of words -/

/-- Words that start or continue declaration specifiers. -/
def specifierWords : List String :=
  ["void", "char", "short", "int", "long", "float", "double", "signed", "unsigned", "_Bool", "_Complex", "const",
    "volatile", "restrict", "static", "extern", "register", "auto", "inline", "_Atomic", "_Thread_local", "_Noreturn"]

/-- Specifier words that may also follow a pointer mark, and that alone name no type. -/
def qualifierWords : List String := ["const", "volatile", "restrict", "_Atomic"]

def tagWords : List String := ["struct", "union", "enum"]

/-- Words of statements and operators. -/
def reservedWords : List String :=
  ["if", "else", "for", "while", "do", "switch", "case", "default", "return", "break", "continue", "goto", "sizeof",
    "typedef", "defer"]

/-- Type names that are known without a declaration. -/
def libraryTypes : List String :=
  ["va_list", "size_t", "ssize_t", "ptrdiff_t", "off_t", "FILE", "bool", "wchar_t", "int8_t", "int16_t", "int32_t",
    "int64_t", "uint8_t", "uint16_t", "uint32_t", "uint64_t", "intptr_t", "uintptr_t"]

/-- Whether the token can begin a declaration, given the type names known so far. -/
def startsType (typeNames : List String) (t : Token) : Bool :=
  t.kind == .word &&
    (specifierWords.contains t.text || tagWords.contains t.text || typeNames.contains t.text)

def isIdentifier (t : Token) : Bool :=
  t.kind == .word &&
    !(specifierWords.contains t.text || tagWords.contains t.text || reservedWords.contains t.text)

/-! ## Brackets -/

/-- The closing partner of a bracket. -/
def partner? : String → Option String
  | "(" => some ")"
  | "[" => some "]"
  | "\x7b" => some "\x7d"
  | _ => none

/-- With `depth` brackets `left` open, the token that closes the last of them and what follows it. -/
def closeFrom (left right : String) : Nat → List Token → Option (Token × List Token)
  | _, [] => none
  | depth, t :: rest =>
    if t.isPunct left then closeFrom left right (depth + 1) rest
    else if t.isPunct right then
      if depth ≤ 1 then some (t, rest) else closeFrom left right (depth - 1) rest
    else closeFrom left right depth rest

/-- For tokens that begin with a bracket: its closing partner and what follows that. Only brackets of the same shape
count. -/
def close? : List Token → Option (Token × List Token)
  | [] => none
  | t :: rest => (partner? t.text).bind fun right => closeFrom t.text right 1 rest

end Token

end Deferral
