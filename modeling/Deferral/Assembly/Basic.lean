import Deferral.Assembly.Fault
import Deferral.Log
import Deferral.Tree.Absorption

/-!
# A tree under assembly

Events arrive in the order in which productions end. Finished operands and statements wait on a stage until the
construct that owns them is complete; open scopes form a stack, and each takes what was staged while it was innermost.
Spans of statements and scopes leave no gap: each starts where the one before it ended. Spans of expressions are tight.
-/

namespace Deferral

namespace Assembly

inductive FragmentKind where
  | type
  | pointer
  | reference
  deriving DecidableEq, Repr

def FragmentKind.label : FragmentKind → String
  | .type => "Type"
  | .pointer => "Pointer"
  | .reference => "Reference"

/-- A part of a declaration that waits for the declared name. -/
structure Fragment where
  kind : FragmentKind
  start : Nat
  text : String
  deriving DecidableEq, Repr

/-- An open scope; what is staged above `base` belongs to it. -/
structure Frame where
  slot : Slot
  base : Nat
  deriving DecidableEq, Repr

end Assembly

open Assembly

structure Assembly where
  tree : Tree
  /-- Innermost first. -/
  modes : List Mode := []
  fragments : List Fragment := []
  /-- The stage, top first. -/
  staged : List Slot := []
  /-- Innermost first, the source file last. -/
  scopes : List Frame := [⟨.root, 0⟩]
  /-- Where the last complete statement, header or brace ended. -/
  lastEnd : Nat := 0
  /-- What is staged below this height belongs to finished statements. -/
  statementBase : Nat := 0
  /-- Deferred statements without their operation, innermost first, each with the height of the stage before it. -/
  waitingDefers : List Frame := []
  waitingTag? : Option Fragment := none
  /-- The type that all declarators of one declaration share. -/
  sharedType? : Option String := none
  /-- The first fault; it is final for this source file. -/
  failure? : Option Fault := none
  log : Array Log.Entry := #[]

namespace Assembly

/-- Nothing assembled yet. -/
def start (path : Path) : Assembly := { tree := .ofPath path }

/-- Drops what was assembled and starts on another source file. -/
def startUnit (a : Assembly) (path : Path) : Assembly := { start path with log := a.log }

/-- Hands over the tree. What is left is ready for the same source file, except that a fault stays. -/
def take (a : Assembly) : Tree × Assembly :=
  (a.tree, { start a.tree.path with failure? := a.failure?, log := a.log })

def mode (a : Assembly) : Mode := a.modes.head?.getD .idle

def height (a : Assembly) : Nat := a.staged.length

/-- Whether the current statement has operands on the stage. -/
def hasOperands (a : Assembly) : Bool := a.statementBase < a.height

/-! ## Steps -/

/-- Changes an assembly; a failure keeps the changes made before it. -/
abbrev Step := EStateM Halt Assembly

variable {α : Type}

def fail (f : Fault) : Step α := throw (.fault f)

def unexpected (e : Event) : Step α := do fail (.unexpectedEvent e.kind (← get).mode e.offset)

def invalidLiteral (e : Event) : Step α := fail (.invalidLiteral e.kind e.literal e.offset)

def missingDeclarator (e : Event) : Step α := fail (.missingDeclarator e.kind e.offset)

def missingOperand (e : Event) : Step α := fail (.missingOperand e.kind e.offset)

/-- The value, or the fault that the event is out of place. -/
def getOrUnexpected (e : Event) : Option α → Step α
  | some a => return a
  | none => unexpected e

def modifyTree (f : Tree → Tree) : Step Unit := modify fun a => { a with tree := f a.tree }

def getTree : Step Tree := return (← get).tree

def write (entry : Log.Entry) : Step Unit := modify fun a => { a with log := a.log.push entry }

def report (kind : Construct.Tag) (offset : Nat) (note : String) : Step Unit :=
  write (Log.report kind.label offset note)

/-- A new node without parent. -/
def newNode (construct : Construct) (span : Span) : Step Slot := do
  let a ← get
  let (s, tree) := a.tree.push construct span
  set { a with tree }
  return s

def attach (parent child : Slot) : Step Unit := modifyTree (·.attach parent child)

def stage (s : Slot) : Step Unit := modify fun a => { a with staged := s :: a.staged }

/-- Everything staged so far is part of finished statements. -/
def finishStatement : Step Unit := modify fun a => { a with statementBase := a.height }

/-- Stages a whole statement. -/
def stageStatement (s : Slot) : Step Unit := do
  stage s
  finishStatement

def setLastEnd (offset : Nat) : Step Unit := modify fun a => { a with lastEnd := offset }

/-- Turns down an event that may not come inside a statement. -/
def expectNoOperands (e : Event) : Step Unit := do
  if (← get).hasOperands then unexpected e

/-- Takes what is staged above `base` off the stage, in source order. -/
def unstage (base : Nat) : Step (List Slot) := do
  let a ← get
  let count := a.height - base
  set { a with staged := a.staged.drop count }
  return (a.staged.take count).reverse

/-- The span of a leaf. Without a start its literal is its exact text. -/
def leafSpan (e : Event) : Step Span :=
  if e.literal.isEmpty then invalidLiteral e
  else
    match e.start? with
    | some start => if start < e.offset then return ⟨start, e.offset⟩ else invalidLiteral e
    | none =>
      let size := e.literal.utf8ByteSize
      if size ≤ e.offset then return ⟨e.offset - size, e.offset⟩ else invalidLiteral e

/-- A decimal count of operands. A plus sign may precede it, and it fits in 64 bits. -/
def count? (literal : String) : Option Nat :=
  let digits := match literal.toList with
    | '+' :: rest => rest
    | chars => chars
  if digits.isEmpty || !digits.all Char.isDigit then none
  else
    let n := digits.foldl (fun n c => n * 10 + (c.toNat - '0'.toNat)) 0
    if n < UInt64.size then some n else none

def countOf (e : Event) : Step Nat :=
  match count? e.literal with
  | some n => return n
  | none => invalidLiteral e

end Assembly

end Deferral
