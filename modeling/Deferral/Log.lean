import Deferral.Text.ControlSequence

/-!
# Log entries

What the library has to say about a run beside its results. An entry has a severity, the part that speaks, and a
message; reports on constructs (`Log.report`) all speak with one voice.
-/

namespace Deferral.Log

inductive Severity where
  | error
  | warning
  | info
  deriving DecidableEq, Repr

/-- Who writes an entry. -/
inductive Origin where
  | report
  | assembly
  | firing
  | squash
  | emission
  | output
  | batch
  | program
  deriving DecidableEq, Repr

structure Entry where
  severity : Severity
  origin : Origin
  message : String
  deriving DecidableEq, Repr

def Severity.label : Severity → String
  | .error => "ERROR"
  | .warning => "WARN"
  | .info => "INFO"

/-- The name that a line of the log carries for its origin. -/
def Origin.label : Origin → String
  | .report => "cdefer::report"
  | .assembly => "cdefer::semantic::builder"
  | .firing => "cdefer::semantic::defer"
  | .squash => "cdefer::regen::ranges"
  | .emission => "cdefer::regen::emitter"
  | .output => "cdefer::regen"
  | .batch => "cdefer::driver::compiler"
  | .program => "cdefer"

/-- Severity and message. -/
def Entry.line (e : Entry) : String := e.severity.label ++ " " ++ e.message

/-- Puts four blanks after every line break, so that a line that starts at the margin starts an entry. -/
def indented (message : String) : String :=
  String.ofList (message.toList.flatMap fun c => if c = '\n' then ['\n', ' ', ' ', ' ', ' '] else [c])

/-- The line with its origin; severities are padded to one width, and further lines of the message are indented. -/
def Entry.fullLine (e : Entry) : String :=
  let label := e.severity.label
  "[" ++ label ++ String.ofList (List.replicate (5 - label.length) ' ') ++ " " ++ e.origin.label ++ "] " ++
    indented e.message

/-- What is written for an entry: its line and the line's end, as plain text. -/
def Entry.written (e : Entry) : String := Text.withoutControls (e.fullLine ++ "\n")

/-- One line on a construct of the source: its kind, where it ends, what is said. -/
def reportLine (kind : String) (offset : Nat) (note : String) : String := s!"[{kind}] @{offset}: {note}"

def report (kind : String) (offset : Nat) (note : String) : Entry := ⟨.info, .report, reportLine kind offset note⟩

/-! ## What is shown -/

/-- How much of the log is shown. -/
inductive Level where
  | warn
  | info
  | debug
  | trace
  deriving DecidableEq, Repr

def Level.label : Level → String
  | .warn => "WARN"
  | .info => "INFO"
  | .debug => "DEBUG"
  | .trace => "TRACE"

/-- The level for a number of verbosity flags. -/
def Level.ofVerbosity : Nat → Level
  | 0 => .warn
  | 1 => .info
  | 2 => .debug
  | _ => .trace

/-- Reports and other information are hidden at the lowest level only. -/
def Level.shows (l : Level) (e : Entry) : Bool := e.severity != .info || l != .warn

end Deferral.Log
