import Deferral.Files.Basic
import Deferral.Output.Buffer
import Deferral.Output.Squash

/-!
# Writing cuts

Cuts are written in order, each in one piece: the requests before it, its text, the requests after it. Text in place is
written once, so a cut starts no earlier than the text before it ended. A cut that cannot be read or written is reported
and left out, and the rest goes on.
-/

namespace Deferral

/-- Where text is copied from. -/
inductive CopySource where
  | file (text : SourceText)
  /-- The file that is being written. -/
  | output
  deriving DecidableEq, Repr

/-- Why text cannot be copied. -/
inductive ReadError where
  | noSource
  | tooShort
  | unreadable (cause : FileError)
  deriving DecidableEq, Repr

def ReadError.entry (e : ReadError) (span : Span) : Log.Entry :=
  ⟨.error, .emission,
    match e with
    | .noSource => "no source to copy " ++ span.render ++ " from"
    | .tooShort => "failed to read source bytes " ++ span.render ++ ": failed to fill whole buffer"
    | .unreadable cause => "failed to read source bytes " ++ span.render ++ ": " ++ cause.text⟩

/-- The bytes from `start` to `stop`. -/
def slice (bytes : Array UInt8) (start stop : Nat) : Except ReadError (List UInt8) :=
  if stop ≤ bytes.size then .ok (bytes.extract start stop).toList else .error .tooShort

/-- The text of a source from `start` to `stop`. A source that is the output itself has what was flushed so far. -/
def readSource (source? : Option CopySource) (buffer : Buffer) (start stop : Nat) : Except ReadError (List UInt8) :=
  match source? with
  | none => .error .noSource
  | some (.file (.unreadable cause)) => .error (.unreadable cause)
  | some (.file (.bytes b)) => slice b start stop
  | some .output => slice buffer.flushed start stop

/-- What came of writing cuts. -/
structure Emission where
  output : List UInt8 := []
  /-- The number of cuts written. -/
  chunks : Nat := 0
  bytesWritten : Nat := 0
  /-- The number of cuts left out because of an error. -/
  failedChunks : Nat := 0
  log : List Log.Entry := []

namespace Emission

def wrote (bytes : List UInt8) (rest : Emission) : Emission :=
  { rest with
    output := bytes ++ rest.output, chunks := rest.chunks + 1, bytesWritten := bytes.length + rest.bytesWritten }

def failed (entry : Log.Entry) (rest : Emission) : Emission :=
  { rest with failedChunks := rest.failedChunks + 1, log := entry :: rest.log }

end Emission

namespace Range

/-- The first byte to be copied, where text in place is done up to `covered?`. -/
def copyStart (cut : Range) (covered? : Option Nat) : Nat :=
  match covered? with
  | some covered => if !cut.spliced && cut.start < covered then min covered cut.stop else cut.start
  | none => cut.start

/-- What is written for a cut. -/
def content (cut : Range) (source? : Option CopySource) (buffer : Buffer) (covered? : Option Nat) :
    Except Log.Entry (List UInt8) :=
  let start := cut.copyStart covered?
  let text : Except Log.Entry (List UInt8) :=
    match cut.replacement? with
    | some text => .ok (Utf8.encode text)
    | none =>
      if start < cut.stop then
        (readSource source? buffer start cut.stop).mapError (·.entry ⟨start, cut.stop⟩)
      else .ok []
  text.map fun text =>
    (if cut.actions.braceBefore then ['\x7b'.toUInt8] else []) ++
      (if cut.actions.newlineBefore then ['\n'.toUInt8] else []) ++
      Utf8.encode (cut.lead?.getD "") ++ text ++
      (if cut.actions.semicolonAfter then [';'.toUInt8] else []) ++
      (if cut.actions.braceAfter then ['\n'.toUInt8, '\x7d'.toUInt8] else [])

/-- How far text in place is done after a cut. -/
def cover (cut : Range) (covered? : Option Nat) : Option Nat := some (max (covered?.getD 0) cut.stop)

/-- Writes cuts after `writes` earlier attempts, where `buffer` holds what was written and text in place is done up to
`covered?`. -/
def emitFrom (source? : Option CopySource) (refuse? : Writer) :
    (covered? : Option Nat) → (writes : Nat) → (buffer : Buffer) → List Range → Emission
  | _, _, _, [] => {}
  | covered?, writes, buffer, cut :: rest =>
    if cut.actions.omitted then emitFrom source? refuse? (cut.cover covered?) writes buffer rest
    else
      match cut.content source? buffer covered? with
      | .error entry => .failed entry (emitFrom source? refuse? covered? writes buffer rest)
      | .ok bytes =>
        let covered? := if cut.spliced then covered? else cut.cover covered?
        if bytes.isEmpty then emitFrom source? refuse? covered? writes buffer rest
        else
          match refuse? writes bytes with
          | none => .wrote bytes (emitFrom source? refuse? covered? (writes + 1) (buffer.write bytes) rest)
          | some cause =>
            .failed ⟨.error, .emission, s!"failed to write {bytes.length} byte(s) of output: {cause}"⟩
              (emitFrom source? refuse? covered? (writes + 1) buffer rest)

/-- Writes cuts. -/
def emit (source? : Option CopySource) (refuse? : Writer) (cuts : List Range) : Emission :=
  emitFrom source? refuse? none 0 {} cuts

end Range

namespace Tree

/-- The cuts of a tree. -/
def cuts (t : Tree) : Cuts := Range.squash (Range.collect t)

/-- Writes the text of a tree, copying from its source. -/
def emitTo (refuse? : Writer) (t : Tree) (source? : Option CopySource) : Emission :=
  let cuts := t.cuts
  let emission := Range.emit source? refuse? cuts.cuts
  { emission with log := cuts.overlaps.map Overlap.entry ++ emission.log }

/-- Writes the text of a tree where every write is taken. -/
def emit (t : Tree) (source? : Option CopySource) : Emission := t.emitTo .acceptAll source?

end Tree

end Deferral
