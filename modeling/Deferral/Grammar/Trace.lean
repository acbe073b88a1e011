import Deferral.Grammar.Statement

/-!
# The events of a source

Only function definitions give events. Everything else at top level is passed over, except that a typedef makes its
name known. `trace` is the whole story of a source: its events, and what stopped the recognition, if anything did.
-/

namespace Deferral.Grammar

/-- Whether a function definition is next: words and marks that begin with a type and end with a name, a parameter
list, and a brace. -/
def Cursor.atFunctionDefinition (c : Cursor) : Bool :=
  let head := c.rest.takeWhile fun t =>
    if t.kind == .word then !t.isWord "typedef" else t.isPunct "*" || t.isPunct "&"
  let after := c.rest.drop head.length
  c.front?.any c.startsType && head.getLast?.any (·.isIdentifier) && after.head?.any (·.isPunct "(") &&
    (Token.close? after).any fun (_, rest) => rest.head?.any (·.isPunct "\x7b")

namespace Round

variable (call : Calls)

def functionDefinition : Recognizer Unit := do
  call (.specifiers false false)
  declarator call false
  let _ ← expectPunct "("
  parameterList call
  endWith ")" .functionHeader
  call .block
  reportHere .functionEnd

/-- Passes a declaration up to its semicolon, or a brace group after which no declarator follows. Gives the last name
outside brackets. -/
def skipDeclaration (name? : Option Token) : Recognizer (Option Token) := do
  let c ← get
  match c.front? with
  | none => return name?
  | some t =>
    if t.isPunct ";" then
      advance
      return name?
    else if t.isPunct "\x7b" || t.isPunct "(" || t.isPunct "[" then
      let after := match Token.close? c.rest with
        | some (close, rest) => c.moveTo close rest
        | none => c.advanceWhile fun _ => true
      set after
      if t.isPunct "\x7b" && !after.front?.any fun u => u.isPunct ";" || u.isIdentifier || u.isPunct "*" then
        return name?
      else call (.skipDeclaration name?)
    else
      advance
      call (.skipDeclaration (if t.isIdentifier then some t else name?))

/-- Passes a top-level construct that is not a function definition. -/
def otherDeclaration : Recognizer Unit := do
  let isTypedef := (← get).atWord "typedef"
  let name? ← call (.skipDeclaration none)
  if isTypedef then
    if let some name := name? then
      modify fun c => { c with typeNames := name.text :: c.typeNames }

/-- All top-level constructs, and the end of the source. -/
def unit : Recognizer Unit := do
  let c ← get
  if c.rest.isEmpty then report .unitEnd c.source.length
  else
    if c.atFunctionDefinition then functionDefinition call else otherDeclaration call
    call .unit

end Round

/-! ## The recursion -/

namespace Job

/-- What a job does, if those it needs are done by `call`. -/
def round (call : Calls) : Calls
  | expression least => Round.expression call least
  | operators least => Round.operators call least
  | unary => Round.unary call
  | primary => Round.primary call
  | postfixes => Round.postfixes call
  | arguments count => Round.arguments call count
  | specifiers named any => Round.specifiers call named any
  | marks => Round.marks call
  | arraySuffixes => Round.arraySuffixes call
  | parameters => Round.parameters call
  | initializer => Round.initializer call
  | initializers count => Round.initializers call count
  | declarators => Round.declarators call
  | statement => Round.statement call
  | ifStatement => Round.ifStatement call
  | doStatement => Round.doStatement call
  | switchStatement => Round.switchStatement call
  | deferStatement keyword => Round.deferStatement call keyword
  | body => Round.body call
  | block => Round.block call
  | statements => Round.statements call
  | skipDeclaration name? => Round.skipDeclaration call name?
  | unit => Round.unit call

/-- Does a job, with jobs inside jobs at most `steps` deep. -/
def run : (steps : Nat) → Calls
  | 0, _ => outOfSteps
  | n + 1, j => j.round (run n)

end Job

/-- An expression whose operators outside brackets all bind at least as tightly as `least`. -/
abbrev expression (steps least : Nat) : Recognizer Unit := Job.run steps (.expression least)

/-- Declaration specifiers. -/
abbrev specifiers (steps : Nat) (named any : Bool) : Recognizer Unit := Job.run steps (.specifiers named any)

/-- What recognition says about a source. -/
structure Trace where
  events : Array Event
  stop? : Option Stop

/-- Enough steps for any source with this many tokens. -/
def stepBound (tokens : Nat) : Nat := 8 * (tokens + 1)

def trace (source : List UInt8) : Trace :=
  match Token.scan source with
  | .error e => ⟨#[], some (.rejected (.scan e))⟩
  | .ok tokens =>
    match Job.run (stepBound tokens.length) .unit { source, rest := tokens } with
    | .ok _ c => ⟨c.events, none⟩
    | .error stop c => ⟨c.events, some stop⟩

end Deferral.Grammar
