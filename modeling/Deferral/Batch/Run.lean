import Deferral.Assembly.Build
import Deferral.Batch.Settings
import Deferral.Files.FileTree
import Deferral.Firing.Apply
import Deferral.Output.Emission
import Deferral.Tree.Outline

/-!
# Runs

Every input is read, built, resolved and written; an input that fails is reported and the others go on. Inputs are told
apart by path: of two spellings of one path the first is shown and the last result counts.
-/

namespace Deferral.Batch

/-- How far an input is taken. -/
inductive Phase where
  | build
  | resolve
  | write
  deriving DecidableEq, Repr

/-- Why an input has no result. -/
inductive UnitError where
  | unreadable (path : Path) (cause : FileError)
  | build (path : Path) (cause : Assembly.BuildError)
  | noOutput (path : Path) (cause : FileError)
  deriving DecidableEq, Repr

def createMessage (path : Path) (cause : FileError) : String :=
  "cannot create output file " ++ path.text ++ ": " ++ cause.text

def UnitError.message : UnitError → String
  | .unreadable path cause => "cannot read " ++ path.text ++ ": " ++ cause.text
  | .build path (.grammar (.rejected e)) => path.text ++ ": parse error " ++ e.message
  | .build path (.grammar .outOfSteps) => path.text ++ ": too many steps"
  | .build path (.assembly (.fault f)) => path.text ++ ": malformed event stream " ++ f.message
  | .build path (.assembly (.outOfRange base staged)) => s!"{path.text}: {staged} of {base} staged nodes are left"
  | .noOutput path cause => createMessage path cause

/-- What an input gives, as far as it was taken. -/
structure Product where
  tree : Tree
  /-- How many deferred statements were armed and how often they fired. -/
  resolved? : Option (Nat × Nat) := none
  output? : Option Path := none
  emission? : Option Emission := none

/-- What a run leaves behind beside files. -/
structure Session where
  /-- One assembly serves all inputs. -/
  assembly : Assembly := .start []
  printed : Array String := #[]
  log : Array Log.Entry := #[]

variable {m : Type → Type} [Monad m]

/-- Opens the source of a tree for copying it to `output`, which has been created. -/
def openFor (disk : Disk m) (path output : Path) : m (Except FileError CopySource) := do
  match ← disk.openSource path with
  | .error e => return .error e
  | .ok source => return .ok (if ← disk.same path output then .output else .file source)

/-- What is written of a tree, given the source that could be opened for it. -/
def emitOpened (refuse? : Writer) (t : Tree) (opened : Except FileError CopySource) : Emission :=
  match opened with
  | .ok source => t.emitTo refuse? (some source)
  | .error e =>
    let emission := t.emitTo refuse? none
    { emission with
      log := ⟨.error, .output, "cannot open source " ++ t.path.text ++ ": " ++ e.text⟩ :: emission.log }

/-- What came of writing, after what came of flushing. -/
def flushed (emission : Emission) (output : Path) : Except FileError Unit → Emission
  | .ok _ => emission
  | .error e =>
    { emission with
      failedChunks := emission.failedChunks + 1
      log := emission.log ++ [⟨.error, .output, "failed to flush " ++ output.text ++ ": " ++ e.text⟩] }

/-- Writes a tree to a file, copying from the source file. The output is made before the source is opened, so a source
that is its own output is lost. -/
def writeTree (disk : Disk m) (t : Tree) (output : Path) : m (Except FileError Emission) := do
  match ← disk.create output with
  | .error e => return .error e
  | .ok _ =>
    let opened ← openFor disk t.path output
    let emission := emitOpened (← disk.writer output) t opened
    let result ← disk.fill output emission.output
    return .ok (flushed emission output result)

/-- A session as state over the disk's effects; an error ends the work on an input. -/
abbrev Work (m : Type → Type) := ExceptT UnitError (StateT Session m)

def note (entries : List Log.Entry) : Work m Unit :=
  modify fun s => { s with log := s.log ++ entries.toArray }

/-- The tree of an input. -/
def buildTree (path : Path) (source : List UInt8) : Work m Tree := do
  let s ← get
  let (result, assembly) := (s.assembly.startUnit path).build source
  set { s with assembly := { assembly with log := #[] }, log := s.log ++ assembly.log }
  match result with
  | .ok t => return t
  | .error e => throw (.build path e)

/-- Takes one input through the phases. -/
def runUnit (disk : Disk m) (settings : Settings) (phase : Phase) (input : Path) : Work m Product := do
  let source ← match ← disk.read input with
    | .ok source => pure source
    | .error e => throw (.unreadable input e)
  let tree ← buildTree input source
  if phase = .build then return { tree }
  let product : Product ←
    if settings.resolveDefers then do
      let r := Firing.resolve tree
      note r.log
      pure { tree := r.tree, resolved? := some (r.armed, r.firings.length) }
    else pure { tree }
  if settings.showTree then
    modify fun s => { s with printed := s.printed.push product.tree.outline }
  if phase = .resolve then return product
  let output := settings.outputPath input
  match ← (writeTree disk product.tree output : m _) with
  | .error e => throw (.noOutput output e)
  | .ok emission =>
    note emission.log
    if emission.failedChunks > 0 then
      note [⟨.error, .batch, s!"{output.text}: {emission.failedChunks} chunk(s) could not be regenerated"⟩]
    return { product with output? := some output, emission? := some emission }

/-- The results of a run by input. -/
abbrev Results := List (Path × Except UnitError Product)

/-- Records a result; a path that is there already keeps its place and spelling. -/
def Results.insert (results : Results) (path : Path) (result : Except UnitError Product) : Results :=
  if results.any fun (p, _) => Path.same p path then
    results.map fun (p, old) => if Path.same p path then (p, result) else (p, old)
  else results ++ [(path, result)]

def Results.failed (results : Results) : Nat :=
  (results.filter fun (_, result) => match result with
    | .ok _ => false
    | .error _ => true).length

/-- Takes all inputs through the phases. -/
def runPhase (disk : Disk m) (settings : Settings) (phase : Phase) : StateT Session m Results :=
  settings.inputs.foldlM (fun results input => do
    let result ← (runUnit disk settings phase input).run
    return results.insert input result) []

/-- Says which outputs were written and which inputs failed. -/
def Results.entries (results : Results) : List Log.Entry :=
  results.filterMap fun (path, result) =>
    match result with
    | .ok product => product.output?.map fun output => ⟨.info, .batch, path.text ++ " -> " ++ output.text⟩
    | .error e => some ⟨.error, .batch, e.message⟩

/-- Some inputs failed. -/
structure Failed where
  failed : Nat
  total : Nat
  deriving DecidableEq, Repr

def Failed.message (f : Failed) : String := s!"{f.failed} of {f.total} input files failed"

/-- A whole run. -/
def run (disk : Disk m) (settings : Settings) : StateT Session m (Except Failed Unit) := do
  let results ← runPhase disk settings .write
  modify fun s => { s with log := s.log ++ results.entries.toArray }
  let failed := results.failed
  return if failed > 0 then .error ⟨failed, results.length⟩ else .ok ()

/-! ## The program -/

/-- What a run shows and how it ends. -/
structure Outcome where
  exitCode : Nat
  stdout : String
  stderr : String

/-- Lines, each with its end. -/
def lines (texts : List String) : String := String.join (texts.map (· ++ "\n"))

/-- A whole run as a program: outlines on one stream, the log on the other. -/
def execute (disk : Disk m) (settings : Settings) : m Outcome := do
  let (result, session) ← (run disk settings).run {}
  let level := Log.Level.ofVerbosity settings.verbosity
  let last : List Log.Entry := match result with
    | .ok _ => []
    | .error f => [⟨.error, .program, f.message⟩]
  return {
    exitCode := if last.isEmpty then 0 else 1
    stdout := lines session.printed.toList
    stderr := String.join (((session.log.toList ++ last).filter level.shows).map (·.written)) }

/-! ## Runs on a text -/

/-- A run on a source that is put into a file of its own. -/
def ofSource (source : List UInt8) : Settings × FileTree :=
  let path := Utf8.encode "source.c"
  (.ofTemporary path, ({} : FileTree).put path (.file source))

/-- Removes what was made for the run; says whether it is still there. -/
def cleanUp (settings : Settings) (files : FileTree) : FileTree × Bool :=
  match settings.temporary? with
  | none => (files, true)
  | some path =>
    match files.locate path with
    | .error _ => (files, false)
    | .ok l => (files.erase l, ((files.erase l).lookup? l).isSome)

end Deferral.Batch
