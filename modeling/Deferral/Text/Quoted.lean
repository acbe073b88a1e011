import Deferral.Text.Extending
import Deferral.Text.Ignorable
import Deferral.Text.Unprintable

/-!
# Quoted text in messages

A text inside a message stands in double quotes. Quote, backslash, tab, line ends and NUL get a backslash form; every
other character that does not print, that may have no shape, or that would merge with the one before it, is written by
its code point.
-/

namespace Deferral.Text

/-- Whether `n` falls into a run, where gaps and the runs after them are given by their lengths. -/
def within : (runs : List Nat) → (n : Nat) → Bool
  | gap :: run :: rest, n => gap ≤ n && (n < gap + run || within rest (n - (gap + run)))
  | _, _ => false

/-- Whether a character shows by itself. For ASCII no table is needed. -/
def prints (c : Char) : Bool :=
  if c.toNat < 0x80 then 0x20 ≤ c.toNat && c.toNat < 0x7F
  else !within unprintableRuns c.toNat && !within ignorableRuns c.toNat && !within extendingRuns c.toNat

/-- A code point in lower-case hexadecimal without leading zeros. -/
def hexadecimal (n : Nat) : String := String.ofList (Nat.toDigits 16 n)

/-- How one character is written between the quotes. -/
def quotedChar (c : Char) : String :=
  if c = '"' then "\\\""
  else if c = '\\' then "\\\\"
  else if c = '\t' then "\\t"
  else if c = '\r' then "\\r"
  else if c = '\n' then "\\n"
  else if c.toNat = 0 then "\\0"
  else if prints c then c.toString
  else "\\u\x7b" ++ hexadecimal c.toNat ++ "\x7d"

/-- The text in double quotes. -/
def quoted (s : String) : String := "\"" ++ String.join (s.toList.map quotedChar) ++ "\""

end Deferral.Text
