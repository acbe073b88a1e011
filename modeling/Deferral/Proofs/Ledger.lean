import Deferral.Proofs.Phrases

/-!
# The discipline of events

A ledger says, after some events, which constructs are open and how many operands the current statement has.
`Ledger.step` is what one event does to it, and fails if the event is out of place: an end that does not end the
innermost construct, or a number of operands that the event does not allow. A sequence of events that the ledger follows
can always be continued to one that closes everything (`Ledger.exists_run_empty`).
-/

namespace Deferral

/-- A construct that has begun and not ended. A deferral knows whether a block was opened directly in it. -/
inductive Opening where
  | function
  | scope
  | implicitScope
  | branch
  | loop
  | switch
  | deferral (block : Bool)
  deriving DecidableEq, Repr

/-- What is open, innermost first, and the operands of the current statement. -/
structure Ledger where
  opened : List Opening := []
  operands : Nat := 0
  deriving DecidableEq, Repr

/-- The count of operands that an event carries. -/
def Event.arity (e : Event) : Nat := Nat.ofDigitChars 10 e.literal.toList 0

namespace Ledger

open Grammar

/-- One more operand. -/
def add (l : Ledger) (n : Nat) : Ledger := { l with operands := l.operands + n }

/-- Makes one operand of the last `n`. -/
def combine (l : Ledger) (n : Nat) : Option Ledger :=
  if n ≤ l.operands then some { l with operands := l.operands - n + 1 } else none

/-- Takes all operands, if their number is allowed. -/
def settle (l : Ledger) (allowed : Nat → Bool) : Option Ledger :=
  if allowed l.operands then some { l with operands := 0 } else none

/-- The same directly inside a given construct. -/
def settleIn (l : Ledger) (o : Opening) (allowed : Nat → Bool) : Option Ledger :=
  if l.opened.head? = some o then l.settle allowed else none

/-- Begins a construct between statements. -/
def enter (l : Ledger) (o : Opening) : Option Ledger :=
  if l.operands = 0 then some { l with opened := o :: l.opened } else none

/-- Ends the innermost construct between statements. -/
def leave (l : Ledger) (o : Opening) : Option Ledger :=
  if l.operands = 0 ∧ l.opened.head? = some o then some { l with opened := l.opened.tail } else none

/-- A deferral in which a block is opened. -/
def blocked : List Opening → List Opening
  | .deferral _ :: rest => .deferral true :: rest
  | opened => opened

/-- The end of a deferral: no operand is left after a block, and one otherwise. -/
def leaveDeferral (l : Ledger) : Option Ledger :=
  match l.opened with
  | .deferral block :: rest => if l.operands = (if block then 0 else 1) then some ⟨rest, 0⟩ else none
  | _ => none

/-- What an event does. -/
def step (l : Ledger) (e : Event) : Option Ledger :=
  match e.kind with
  | .typeWord | .tagKeyword | .pointer | .reference | .unaryOperator => some l
  | .identifier | .constant | .declaratorName => some (l.add 1)
  | .arraySuffix | .postfixMember | .postfixIncrement => l.combine 1
  | .assignment | .relational | .binaryOperator | .postfixIndex => l.combine 2
  | .postfixCall => l.combine (e.arity + 1)
  | .initializerList => l.combine e.arity
  | .functionHeader => if l.opened = [] then (l.settle (1 ≤ ·)).bind (·.enter .function) else none
  | .functionEnd => l.leave .function
  | .scopeStart => enter { l with opened := blocked l.opened } .scope
  | .scopeEnd => l.leave .scope
  | .implicitScopeStart => l.enter .implicitScope
  | .implicitScopeEnd => l.leave .implicitScope
  | .ifHeader => l.enter .branch
  | .ifCondition => l.settleIn .branch (· == 1)
  | .elseMark => l.settleIn .branch (· == 0)
  | .ifEnd => l.leave .branch
  | .forHeader | .whileHeader | .doHeader => l.enter .loop
  | .forInit => l.settleIn .loop fun _ => true
  | .forCondition | .forChange => l.settleIn .loop (· ≤ 1)
  | .whileCondition | .doWhileCondition => l.settleIn .loop (· == 1)
  | .loopEnd => l.leave .loop
  | .switchHeader => l.enter .switch
  | .switchCondition => l.settleIn .switch (· == 1)
  | .switchEnd => l.leave .switch
  | .caseLabel | .defaultLabel | .emptyStatement | .jump => l.settle (· == 0)
  | .statementEnd => l.settle (1 ≤ ·)
  | .returned => l.settle (· ≤ 1)
  | .deferHeader => l.enter (.deferral false)
  | .deferred => l.leaveDeferral
  | .unitEnd => if l.opened = [] then l.settle (· == 0) else none

/-- What events do one after the other. -/
def run (l : Ledger) (es : List Event) : Option Ledger := es.foldlM step l

@[simp] theorem run_append (l : Ledger) (es es' : List Event) : l.run (es ++ es') = (l.run es).bind (·.run es') := by
  rw [run, List.foldlM_append]
  rfl

theorem run_cons {l l' : Ledger} {e : Event} (h : l.step e = some l') (es : List Event) :
    l.run (e :: es) = l'.run es := by
  rw [run, List.foldlM_cons, h]
  rfl

/-! ## Closing everything -/

/-- Events that end a construct. -/
def ends : Opening → List Event
  | .function => [mark .functionEnd 0]
  | .scope => [mark .scopeEnd 0]
  | .implicitScope => [mark .implicitScopeEnd 0]
  | .branch => [mark .ifEnd 0]
  | .loop => [mark .loopEnd 0]
  | .switch => [mark .switchEnd 0]
  | .deferral true => [mark .deferred 0]
  | .deferral false => [mark .identifier 0, mark .deferred 0]

theorem run_ends (o : Opening) (opened : List Opening) : run ⟨o :: opened, 0⟩ (ends o) = some ⟨opened, 0⟩ := by
  cases o with
  | deferral block => cases block <;> rfl
  | _ => rfl

theorem run_flatMap_ends : ∀ opened : List Opening, run ⟨opened, 0⟩ (opened.flatMap ends) = some {}
  | [] => rfl
  | o :: opened => by rw [List.flatMap_cons, run_append, run_ends, Option.bind_some, run_flatMap_ends opened]

theorem exists_run_empty (l : Ledger) : ∃ es, l.run es = some {} := by
  obtain ⟨opened, operands⟩ := l
  cases operands with
  | zero => exact ⟨_, run_flatMap_ends opened⟩
  | succ n =>
    -- The operands go with a statement.
    have hstep : step ⟨opened, n + 1⟩ (mark .statementEnd 0) = some ⟨opened, 0⟩ := by simp [step, mark, settle]
    exact ⟨mark .statementEnd 0 :: opened.flatMap ends, by rw [run_cons hstep, run_flatMap_ends]⟩

end Ledger

end Deferral
