/-!
# A file behind a buffer

What is written to a file waits in a buffer of fixed size. The buffer goes to the file when the next piece does not fit;
a piece as large as the buffer goes to the file at once.
-/

namespace Deferral

structure Buffer where
  /-- What has reached the file. -/
  flushed : Array UInt8 := #[]
  /-- The pieces that wait, latest first. -/
  waiting : List (List UInt8) := []
  /-- How many bytes wait. -/
  size : Nat := 0

namespace Buffer

/-- How many bytes can wait. -/
def capacity : Nat := 8192

def flush (b : Buffer) : Buffer := { flushed := b.flushed ++ b.waiting.reverse.flatten.toArray }

def write (b : Buffer) (piece : List UInt8) : Buffer :=
  let b := if capacity < b.size + piece.length then b.flush else b
  if capacity ≤ piece.length then { b with flushed := b.flushed ++ piece.toArray }
  else { b with waiting := piece :: b.waiting, size := b.size + piece.length }

end Buffer

end Deferral
