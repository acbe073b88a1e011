import Deferral.Batch.Settings

/-!
# The command line

Arguments are read from left to right. Values are checked when the next option or the end shows that they are complete,
so an earlier bad value is found out before a later complaint, except that an unknown argument comes first.
-/

namespace Deferral.CommandLine

/-- Why arguments are not accepted. -/
inductive UsageError where
  | missingInput
  | unknownArgument
  | invalidValue
  | unneededValue
  | repeated
  | helpRequested
  deriving DecidableEq, Repr

def UsageError.label : UsageError → String
  | .missingInput => "MissingRequiredArgument"
  | .unknownArgument => "UnknownArgument"
  | .invalidValue => "InvalidValue"
  | .unneededValue => "TooManyValues"
  | .repeated => "ArgumentConflict"
  | .helpRequested => "DisplayHelp"

def UsageError.exitCode : UsageError → Nat
  | .helpRequested => 0
  | _ => 2

/-- Options with a value. -/
inductive Valued where
  | outDir
  | suffix
  deriving DecidableEq, Repr

/-- Options without a value. -/
inductive Flag where
  | showTree
  | keepDefers
  | verbose
  | help
  deriving DecidableEq, Repr

/-- An option. -/
inductive Choice where
  | valued (v : Valued)
  | flag (f : Flag)

def long? : String → Option Choice
  | "out-dir" => some (.valued .outDir)
  | "suffix" => some (.valued .suffix)
  | "dump-ast" => some (.flag .showTree)
  | "no-defer" => some (.flag .keepDefers)
  | "verbose" => some (.flag .verbose)
  | "help" => some (.flag .help)
  | _ => none

def short? : Char → Option Choice
  | 'o' => some (.valued .outDir)
  | 'v' => some (.flag .verbose)
  | 'h' => some (.flag .help)
  | _ => none

/-- Values that are not checked yet. -/
inductive Pending where
  | nothing
  | inputs (values : List String)
  | awaiting (v : Valued)
  | value (v : Valued) (value : String)
  deriving DecidableEq, Repr

structure State where
  inputs : List String := []
  outDir? : Option String := none
  suffix? : Option String := none
  showTree : Bool := false
  keepDefers : Bool := false
  verbosity : Nat := 0
  pending : Pending := .nothing
  /-- After `--` all arguments are inputs. -/
  onlyInputs : Bool := false

namespace State

/-- Sets an option, once. A directory may not be empty. -/
def setValue (s : State) (v : Valued) (value : String) : Except UsageError State :=
  match v with
  | .outDir =>
    if s.outDir?.isSome then .error .repeated
    else if value.isEmpty then .error .invalidValue
    else .ok { s with outDir? := some value }
  | .suffix => if s.suffix?.isSome then .error .repeated else .ok { s with suffix? := some value }

/-- Checks the values read last. -/
def settle (s : State) : Except UsageError State :=
  let s' := { s with pending := .nothing }
  match s.pending with
  | .nothing => .ok s
  | .inputs values =>
    if values.any (·.isEmpty) then .error .invalidValue else .ok { s' with inputs := s.inputs ++ values }
  | .awaiting _ => .error .invalidValue
  | .value v value => s'.setValue v value

def setFlag (s : State) (f : Flag) : Except UsageError State := do
  let s ← s.settle
  match f with
  | .showTree => if s.showTree then .error .repeated else .ok { s with showTree := true }
  | .keepDefers => if s.keepDefers then .error .repeated else .ok { s with keepDefers := true }
  | .verbose => .ok { s with verbosity := min 255 (s.verbosity + 1) }
  | .help => .error .helpRequested

/-- An option with the value that is written in the same argument, if any. -/
def choose (s : State) (c : Choice) (attached? : Option String) : Except UsageError State :=
  match c, attached? with
  | .flag f, none => s.setFlag f
  | .flag _, some _ => .error .unneededValue
  | .valued v, some value => do (← s.settle).setValue v value
  | .valued v, none => do return { ← s.settle with pending := .awaiting v }

def addInput (s : State) (value : String) : Except UsageError State :=
  match s.pending with
  | .inputs values => .ok { s with pending := .inputs (values ++ [value]) }
  | _ => do return { ← s.settle with pending := .inputs [value] }

/-- The letters after a single dash. An option with a value takes the rest. -/
def readShort (s : State) : List Char → Except UsageError State
  | [] => .ok s
  | c :: rest =>
    match short? c with
    | none => .error .unknownArgument
    | some (.flag f) => do (← s.setFlag f).readShort rest
    | some (.valued v) =>
      match rest with
      | [] => s.choose (.valued v) none
      | '=' :: value => s.choose (.valued v) (some (String.ofList value))
      | value => s.choose (.valued v) (some (String.ofList value))

/-- A name after two dashes, with a value after an equals sign. -/
def readLong (s : State) (text : List Char) : Except UsageError State :=
  let name := text.takeWhile (· != '=')
  let attached? := match text.drop name.length with
    | _ :: value => some (String.ofList value)
    | [] => none
  match long? (String.ofList name) with
  | none => .error .unknownArgument
  | some c => s.choose c attached?

/-- An argument that is no option: the value of the option before it, or an input. -/
def readValue (s : State) (argument : String) : Except UsageError State :=
  match s.pending with
  | .awaiting v => .ok { s with pending := .value v argument }
  | _ => s.addInput argument

def readArgument (s : State) (argument : String) : Except UsageError State :=
  if s.onlyInputs then s.addInput argument
  else
    match argument.toList with
    | ['-', '-'] => .ok { s with onlyInputs := true }
    | '-' :: '-' :: text => s.readLong text
    | ['-'] => s.readValue argument
    | '-' :: text => s.readShort text
    | _ => s.readValue argument

def settings (s : State) : Except UsageError Settings :=
  if s.inputs.isEmpty then .error .missingInput
  else
    let defaults : Settings := { inputs := s.inputs.map Utf8.encode }
    .ok { defaults with
      outDir? := s.outDir?.map Utf8.encode, suffix := s.suffix?.getD defaults.suffix, showTree := s.showTree,
      resolveDefers := !s.keepDefers, verbosity := s.verbosity }

end State

/-- The settings that arguments ask for. -/
def parse (arguments : List String) : Except UsageError Settings := do
  let s ← arguments.foldlM State.readArgument {}
  (← s.settle).settings

end Deferral.CommandLine
