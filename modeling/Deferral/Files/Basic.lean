import Deferral.Files.Path

/-!
# Files

What a run needs of a file system (`Disk`), and the ways in which that can fail. A path is kept as it is written.
-/

namespace Deferral

/-- Why a file cannot be used. -/
inductive FileError where
  | notFound
  | notDirectory
  | isDirectory
  | nameTooLong
  /-- The path has a NUL character in it. -/
  | nulInPath
  | other (description : String) (code : Nat)
  deriving DecidableEq, Repr

def FileError.text : FileError → String
  | .notFound => "No such file or directory (os error 2)"
  | .notDirectory => "Not a directory (os error 20)"
  | .isDirectory => "Is a directory (os error 21)"
  | .nameTooLong => "File name too long (os error 36)"
  | .nulInPath => "file name contained an unexpected NUL byte"
  | .other description code => s!"{description} (os error {code})"

/-- An opened source. -/
inductive SourceText where
  | bytes (bytes : Array UInt8)
  /-- It could be opened and cannot be read. -/
  | unreadable (cause : FileError)
  deriving DecidableEq, Repr

/-- Decides each write as a whole: given how many there were before and the bytes, why it is refused, if it is. -/
def Writer := Nat → List UInt8 → Option String

namespace Writer

def acceptAll : Writer := fun _ _ => none

/-- Refuses what is longer than `limit`. -/
def limited (limit : Nat) : Writer := fun _ bytes => if limit < bytes.length then some "write too long" else none

end Writer

/-- The operations on files, as effects of a monad. -/
structure Disk (m : Type → Type) where
  openSource : (path : Path) → m (Except FileError SourceText)
  /-- Makes an empty file, also in place of one that exists. -/
  create : (path : Path) → m (Except FileError Unit)
  /-- Whether two paths of files that exist lead to one file. -/
  same : (path other : Path) → m Bool
  /-- Which writes a file that was created refuses. -/
  writer : (path : Path) → m Writer
  /-- Fills a file that was created with what it did not refuse. -/
  fill : (path : Path) → (bytes : List UInt8) → m (Except FileError Unit)

variable {m : Type → Type} [Monad m]

/-- The whole content of a file. -/
def Disk.read (disk : Disk m) (path : Path) : m (Except FileError (List UInt8)) := do
  match ← disk.openSource path with
  | .ok (.bytes bytes) => return .ok bytes.toList
  | .ok (.unreadable cause) => return .error cause
  | .error e => return .error e

end Deferral
