import Deferral.Event
import Deferral.Token.Scan

/-!
# The state of recognition

A cursor stands before the tokens that are still to come and has collected the events of those already passed.
Recognizers (`Grammar.Recognizer`) move it forward; one that fails leaves the events reported so far. Those that call
one another (`Grammar.Job`) are written as one round of a recursion: the others are called through a parameter, and
`Job.run` ties the knot.
-/

namespace Deferral.Grammar

/-! ## Failures -/

/-- What would have been accepted. -/
inductive Expected where
  | punct (p : String)
  | keyword (w : String)
  | expression
  | memberName
  | tagName
  | declaratorName
  | typeSpecifier
  | caseLabel
  deriving DecidableEq, Repr

def Expected.text : Expected → String
  | .punct p => "`" ++ p ++ "`"
  | .keyword w => "`" ++ w ++ "`"
  | .expression => "expression"
  | .memberName => "member name"
  | .tagName => "tag name"
  | .declaratorName => "declarator name"
  | .typeSpecifier => "type specifier"
  | .caseLabel => "case label"

/-- Constructs of the language that are recognized and turned down. -/
inductive Construct where
  | gotoStatement
  | label
  | unbracedSwitch
  | parenthesizedDefer
  | compoundLiteral
  | statementExpression
  | tagDefinition
  | functionPointer
  | functionParameter
  | blockTypedef
  | blockFunction
  | designatedInitializer
  deriving DecidableEq, Repr

def Construct.text : Construct → String
  | .gotoStatement => "goto"
  | .label => "label"
  | .unbracedSwitch => "switch body without braces"
  | .parenthesizedDefer => "parenthesized deferred expression"
  | .compoundLiteral => "compound literal"
  | .statementExpression => "statement expression"
  | .tagDefinition => "tag definition inside a function"
  | .functionPointer => "function pointer declarator"
  | .functionParameter => "function parameter declarator"
  | .blockTypedef => "block-scope typedef"
  | .blockFunction => "block-scope function declaration"
  | .designatedInitializer => "designated initializer"

/-- Why a source is not accepted. -/
inductive SyntaxError where
  | unexpectedToken (expected : Expected) (found : String) (offset : Nat)
  | unexpectedEnd (expected : Expected) (offset : Nat)
  | unsupported (construct : Construct) (offset : Nat)
  | scan (cause : Token.ScanError)
  deriving DecidableEq, Repr

namespace SyntaxError

def offset : SyntaxError → Nat
  | .unexpectedToken _ _ n => n
  | .unexpectedEnd _ n => n
  | .unsupported _ n => n
  | .scan e => e.offset

def message : SyntaxError → String
  | .unexpectedToken x found n => s!"@{n}: unexpected token `{found}`, expected {x.text}"
  | .unexpectedEnd x n => s!"@{n}: unexpected end of input, expected {x.text}"
  | .unsupported x n => s!"@{n}: unsupported construct: {x.text}"
  | .scan e => s!"@{e.offset}: {e.text}"

end SyntaxError

/-- Why recognition ended early. Recursion is counted against a bound that grows with the number of tokens, and
`outOfSteps` would say that the bound was hit. -/
inductive Stop where
  | rejected (error : SyntaxError)
  | outOfSteps
  deriving DecidableEq, Repr

/-! ## The cursor -/

structure Cursor where
  source : List UInt8
  /-- The tokens to come. -/
  rest : List Token
  /-- The end of the last token passed. -/
  lastEnd : Nat := 0
  /-- Names declared by a typedef, which tell declarations from expressions. -/
  typeNames : List String := Token.libraryTypes
  /-- The end of the parenthesis that closed the latest parenthesized expression. -/
  groupEnd? : Option Nat := none
  events : Array Event := #[]

namespace Cursor

def front? (c : Cursor) : Option Token := c.rest.head?

def second? (c : Cursor) : Option Token := c.rest.tail.head?

def atPunct (c : Cursor) (p : String) : Bool := c.front?.any (·.isPunct p)

def atWord (c : Cursor) (w : String) : Bool := c.front?.any (·.isWord w)

def startsType (c : Cursor) (t : Token) : Bool := t.startsType c.typeNames

/-- The source between two offsets, as text. -/
def slice (c : Cursor) (start stop : Nat) : String := Utf8.lossy ((c.source.drop start).take (stop - start))

/-- Past `t`, with `rest` to come. -/
def moveTo (c : Cursor) (t : Token) (rest : List Token) : Cursor := { c with rest := rest, lastEnd := t.stop }

/-- Past the next token. -/
def advance (c : Cursor) : Cursor :=
  match c.rest with
  | [] => c
  | t :: rest => c.moveTo t rest

/-- Past the next tokens that satisfy `p`. -/
def advanceWhile (p : Token → Bool) (c : Cursor) : Cursor :=
  match (c.rest.takeWhile p).getLast? with
  | none => c
  | some t => c.moveTo t (c.rest.dropWhile p)

def push (c : Cursor) (e : Event) : Cursor := { c with events := c.events.push e }

end Cursor

/-! ## Recognizers -/

/-- Moves a cursor; a failure keeps the cursor as it was when it happened. -/
abbrev Recognizer := EStateM Stop Cursor

variable {α : Type}

def outOfSteps : Recognizer α := throw .outOfSteps

def unsupported (construct : Construct) (offset : Nat) : Recognizer α :=
  throw (.rejected (.unsupported construct offset))

/-- Turns down the next token, or the end of the source. -/
def unexpected (x : Expected) : Recognizer α := do
  let c ← get
  match c.front? with
  | none => throw (.rejected (.unexpectedEnd x c.source.length))
  | some t => throw (.rejected (.unexpectedToken x t.literal t.start))

def advance : Recognizer Unit := modify Cursor.advance

/-- Passes the punctuator `p` if it is next, and says whether it was. -/
def eatPunct (p : String) : Recognizer Bool := do
  if (← get).atPunct p then
    advance
    return true
  else
    return false

/-- Passes a token that satisfies `p`. -/
def expect (p : Token → Bool) (x : Expected) : Recognizer Token := do
  match (← get).front? with
  | some t => if p t then advance; return t else unexpected x
  | none => unexpected x

def expectPunct (p : String) : Recognizer Token := expect (·.isPunct p) (.punct p)

/-- Passes the bracket that is next and everything up to its partner `right`, which it gives. -/
def expectGroup (right : String) : Recognizer Token := do
  let c ← get
  match Token.close? c.rest with
  | none => unexpected (.punct right)
  | some (close, rest) =>
    set (c.moveTo close rest)
    return close

/-! ## Reporting events -/

def report (kind : Event.Kind) (offset : Nat) (literal : String := "") : Recognizer Unit :=
  modify (·.push { kind, offset, literal })

/-- Reports a production that ends with the last token passed. -/
def reportHere (kind : Event.Kind) (literal : String := "") : Recognizer Unit := do
  report kind (← get).lastEnd literal

/-- Reports a leaf with the text of one token. -/
def reportToken (kind : Event.Kind) (t : Token) : Recognizer Unit :=
  modify (·.push { kind, offset := t.stop, literal := t.literal, start? := some t.start })

/-- Reports a leaf with the source text from `start` to `stop`. -/
def reportText (kind : Event.Kind) (start stop : Nat) : Recognizer Unit :=
  modify fun c => c.push { kind, offset := stop, literal := c.slice start stop, start? := some start }

/-! ## Jobs -/

/-- A recognizer that calls others, with its arguments. -/
inductive Job where
  | expression (least : Nat)
  | operators (least : Nat)
  | unary
  | primary
  | postfixes
  | arguments (count : Nat)
  | specifiers (named any : Bool)
  | marks
  | arraySuffixes
  | parameters
  | initializer
  | initializers (count : Nat)
  | declarators
  | statement
  | ifStatement
  | doStatement
  | switchStatement
  | deferStatement (keyword : Token)
  | body
  | block
  | statements
  | skipDeclaration (name? : Option Token)
  | unit

/-- What a job gives. -/
abbrev Job.Gives : Job → Type
  | arguments _ | initializers _ => Nat
  | skipDeclaration _ => Option Token
  | _ => Unit

/-- How jobs are done. -/
abbrev Calls := (j : Job) → Recognizer j.Gives

end Deferral.Grammar
