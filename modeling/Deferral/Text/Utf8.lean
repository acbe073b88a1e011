/-!
# Reading bytes as UTF-8

`Utf8.decode` reads any byte string as characters and gaps: a gap stands for each longest run of bytes that begins a
character and does not finish it. `Utf8.lossy` shows a gap as the replacement character, `Utf8.strict?` accepts only
text without gaps.
-/

namespace Deferral.Utf8

/-- A character of which some bytes are still owed: the bits read so far, how many bytes are to come, and the bounds
of the next one. -/
structure Partial where
  bits : Nat
  owed : Nat
  least : UInt8
  greatest : UInt8

/-- What the first byte of a character says. -/
inductive Lead where
  | char (c : Char)
  | more (p : Partial)
  | gap

/-- Shortest forms only, no surrogates, nothing above U+10FFFF: these restrict the second byte. -/
def lead (b : UInt8) : Lead :=
  if b < 0x80 then .char (Char.ofNat b.toNat)
  else if b < 0xC2 then .gap
  else if b < 0xE0 then .more ⟨b.toNat - 0xC0, 1, 0x80, 0xBF⟩
  else if b = 0xE0 then .more ⟨0, 2, 0xA0, 0xBF⟩
  else if b = 0xED then .more ⟨0xD, 2, 0x80, 0x9F⟩
  else if b < 0xF0 then .more ⟨b.toNat - 0xE0, 2, 0x80, 0xBF⟩
  else if b = 0xF0 then .more ⟨0, 3, 0x90, 0xBF⟩
  else if b < 0xF4 then .more ⟨b.toNat - 0xF0, 3, 0x80, 0xBF⟩
  else if b = 0xF4 then .more ⟨4, 3, 0x80, 0x8F⟩
  else .gap

/-- The partial character after one more byte within its bounds; later bytes have the full range. -/
def Partial.push (p : Partial) (b : UInt8) : Partial :=
  ⟨p.bits * 0x40 + (b.toNat - 0x80), p.owed - 1, 0x80, 0xBF⟩

/-- Characters and gaps of a byte string, after the bytes of `pending`. -/
def decodeFrom : Option Partial → List UInt8 → List (Option Char)
  | none, [] => []
  | some _, [] => [none]
  | none, b :: rest =>
    match lead b with
    | .char c => some c :: decodeFrom none rest
    | .more p => decodeFrom (some p) rest
    | .gap => none :: decodeFrom none rest
  | some p, b :: rest =>
    if p.least ≤ b ∧ b ≤ p.greatest then
      if p.owed = 1 then some (Char.ofNat (p.push b).bits) :: decodeFrom none rest
      else decodeFrom (some (p.push b)) rest
    else
      match lead b with
      | .char c => none :: some c :: decodeFrom none rest
      | .more q => none :: decodeFrom (some q) rest
      | .gap => none :: none :: decodeFrom none rest

/-- Characters and gaps of a byte string. -/
def decode (bytes : List UInt8) : List (Option Char) := decodeFrom none bytes

/-- The text with U+FFFD for every gap. -/
def lossy (bytes : List UInt8) : String :=
  String.ofList ((decode bytes).map (·.getD (Char.ofNat 0xFFFD)))

/-- The text, if it has no gap. -/
def strict? (bytes : List UInt8) : Option String :=
  ((decode bytes).mapM id).map String.ofList

/-- The bytes of a text. -/
def encode (s : String) : List UInt8 := s.toUTF8.toList

end Deferral.Utf8
