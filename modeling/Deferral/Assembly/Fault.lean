import Deferral.Event
import Deferral.Text.Quoted
import Deferral.Tree.Node

/-!
# Faults of an event stream

Events can arrive in an order that no source gives. Each way in which an event does not fit what came before it is a
fault, with one message each.
-/

namespace Deferral.Assembly

/-- What the next events are expected to belong to. -/
inductive Mode where
  | idle
  /-- A tag keyword such as `struct` waits for its name. -/
  | tagName
  /-- The three parts of a `for` header are to come. -/
  | forHeader
  /-- A deferred statement waits for its operation. -/
  | deferredOperation
  deriving DecidableEq, Repr

def Mode.label : Mode → String
  | .idle => "Idle"
  | .tagName => "WaitingForStructType"
  | .forHeader => "InForLoopContext"
  | .deferredOperation => "WaitingForDeferredOp"

/-- The scope that an event found open. -/
inductive OpenScope where
  | construct (tag : Construct.Tag)
  | unbraced
  | braced
  deriving DecidableEq, Repr

def OpenScope.text : OpenScope → String
  | .construct tag => tag.label
  | .unbraced => "implicit Scope"
  | .braced => "braced Scope"

inductive Fault where
  | missingOperand (event : Event.Kind) (offset : Nat)
  | emptyScopeStack (event : Event.Kind) (offset : Nat)
  | unbalancedScope (event : Event.Kind) (found : OpenScope) (offset : Nat)
  | unexpectedEvent (event : Event.Kind) (mode : Mode) (offset : Nat)
  | missingDeclarator (event : Event.Kind) (offset : Nat)
  | missingType (name : String) (offset : Nat)
  | invalidLiteral (event : Event.Kind) (literal : String) (offset : Nat)
  | danglingOperator (op : String) (offset : Nat)
  deriving DecidableEq, Repr

namespace Fault

def offset : Fault → Nat
  | .missingOperand _ n => n
  | .emptyScopeStack _ n => n
  | .unbalancedScope _ _ n => n
  | .unexpectedEvent _ _ n => n
  | .missingDeclarator _ n => n
  | .missingType _ n => n
  | .invalidLiteral _ _ n => n
  | .danglingOperator _ n => n

def text : Fault → String
  | .missingOperand e _ => e.label ++ " expects an operand but none is staged"
  | .emptyScopeStack e _ => e.label ++ " arrived with an empty scope stack"
  | .unbalancedScope e found _ => e.label ++ " does not close the innermost open scope (" ++ found.text ++ ")"
  | .unexpectedEvent e mode _ => "unexpected " ++ e.label ++ " while " ++ mode.label
  | .missingDeclarator e _ => e.label ++ " without a preceding declarator"
  | .missingType name _ => "declarator `" ++ name ++ "` has no type"
  | .invalidLiteral e literal _ => "invalid literal " ++ Text.quoted literal ++ " for " ++ e.label
  | .danglingOperator op _ => "prefix operator `" ++ op ++ "` has no operand"

def message (f : Fault) : String := s!"@{f.offset}: {f.text}"

end Fault

/-- Why an event was not taken. A fault is the stream's; `outOfRange` says that a scope counted on more staged nodes
than were left when it closed. -/
inductive Halt where
  | fault (fault : Fault)
  | outOfRange (base staged : Nat)
  deriving DecidableEq, Repr

end Deferral.Assembly
