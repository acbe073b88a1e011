import Deferral.Files.Path

/-!
# Settings of a run

What is to be done with which files, and where the results go.
-/

namespace Deferral

structure Settings where
  inputs : List Path
  outDir? : Option Path := none
  /-- Takes the place of the extension in the name of an output. -/
  suffix : String := ".out.c"
  showTree : Bool := false
  resolveDefers : Bool := true
  verbosity : Nat := 0
  /-- An input that was made for the run and goes away with it. -/
  temporary? : Option Path := none
  deriving DecidableEq, Repr

/-- The name of the output for a stem. It is text, so bytes of the stem that are not are replaced. -/
def Settings.outputName (s : Settings) (stem : Path.Name) : Path.Name := Utf8.encode (Utf8.lossy stem ++ s.suffix)

/-- Where the output for an input is written: beside it, or in the output directory. -/
def Settings.outputPath (s : Settings) (input : Path) : Path :=
  let name := s.outputName ((Path.stem? input).getD [])
  match s.outDir? with
  | some dir => Path.join dir name
  | none => Path.withFileName input name

/-- A run on one file that is made for it. -/
def Settings.ofTemporary (path : Path) : Settings := { inputs := [path], temporary? := some path }

end Deferral
