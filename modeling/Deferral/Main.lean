import Deferral.Batch.Run
import Deferral.CommandLine

/-!
# The program

The files of the system as a `Disk`, and the entry point.
-/

namespace Deferral

/-- The cause of a failed operation. -/
def FileError.ofSystem (e : IO.Error) : FileError :=
  match e with
  | .noFileOrDirectory .. => .notFound
  | .inappropriateType _ code details =>
    if code = 20 then .notDirectory else if code = 21 then .isDirectory else .other details code.toNat
  | e => .other (toString e) 0

/-- Runs an operation on files. -/
def tryFiles {α : Type} (act : IO α) : IO (Except FileError α) := do
  try
    return .ok (← act)
  catch e =>
    return .error (.ofSystem e)

def systemDisk : Disk IO where
  openSource path := do
    match ← tryFiles (IO.FS.Handle.mk path.text .read) with
    | .error e => return .error e
    | .ok handle =>
      match ← tryFiles handle.readBinToEnd with
      | .ok bytes => return .ok (.bytes bytes.data)
      | .error e => return .ok (.unreadable e)
  create path := do
    match ← tryFiles (IO.FS.Handle.mk path.text .write) with
    | .error e => return .error e
    | .ok _ => return .ok ()
  same path other := do
    try
      return (← IO.FS.realPath path.text) == (← IO.FS.realPath other.text)
    catch _ =>
      return false
  writer _ := return .acceptAll
  fill path bytes := tryFiles (IO.FS.writeBinFile path.text ⟨bytes.toArray⟩)

def usage : String :=
  "Usage: cdefer [-o DIR] [--suffix SUFFIX] [--dump-ast] [--no-defer] [-v]... <INPUT_FILES>..."

end Deferral

open Deferral in
/-- Lowers the files named on the command line. -/
def main (arguments : List String) : IO UInt32 := do
  match CommandLine.parse arguments with
  | .error .helpRequested =>
    IO.println usage
    return 0
  | .error e =>
    IO.eprintln s!"error: {e.label}"
    IO.eprintln usage
    return e.exitCode.toUInt32
  | .ok settings =>
    let outcome ← Batch.execute systemDisk settings
    IO.print outcome.stdout
    IO.eprint outcome.stderr
    return outcome.exitCode.toUInt32
