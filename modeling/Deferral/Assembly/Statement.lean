import Deferral.Assembly.Scope

/-!
# Statements

What ends with a semicolon, deferred statements, and the end of the source.
-/

namespace Deferral.Assembly

/-- Lays the nodes of one statement end to end, from `start` to `stop`. -/
def tile (t : Tree) (start stop : Nat) : List Slot → Tree
  | [] => t
  | [s] => t.setSpan s ⟨start, stop⟩
  | s :: rest =>
    let middle := max (t.span s).stop start
    tile (t.setSpan s ⟨start, middle⟩) middle stop rest

/-- An expression statement or a declaration, which may declare several names. -/
def onStatementEnd (e : Event) : Step Unit := do
  let nodes ← popStatement e
  if nodes.isEmpty then missingOperand e
  let start := (← get).lastEnd
  modifyTree (tile · start e.offset nodes)
  nodes.forM stage
  setLastEnd e.offset
  finishStatement
  modify ({ · with fragments := [], sharedType? := none })

/-- Stages a statement that goes from the end of the last one to the event. -/
def stageNew (e : Event) (construct : Construct) (children : List Slot) : Step Unit := do
  let s ← newNode construct ⟨(← get).lastEnd, e.offset⟩
  children.forM (attach s)
  stageStatement s
  setLastEnd e.offset

def onEmptyStatement (e : Event) : Step Unit := do
  expectNoOperands e
  stageNew e .emptyStatement []

def onReturn (e : Event) : Step Unit := do
  let value? ← if (← get).hasOperands then pure (some (← popSingle e)) else pure none
  stageNew e (.returned value?) value?.toList
  report .returned e.offset (if value?.isSome then "with value" else "bare")

def onJump (e : Event) : Step Unit := do
  match Jump.ofKeyword? e.literal with
  | none => invalidLiteral e
  | some j =>
    expectNoOperands e
    stageNew e (.jump j) []
    report .jump e.offset j.keyword

def onDeferHeader (e : Event) : Step Unit := do
  expectNoOperands e
  let start := (← get).lastEnd
  let s ← newNode .deferred ⟨start, start⟩
  modify fun a => { a with
    waitingDefers := ⟨s, a.height⟩ :: a.waitingDefers
    modes := .deferredOperation :: a.modes
    lastEnd := e.offset }

/-- The operation of a deferred statement. A block was staged as a statement; it becomes an operand again. -/
def onDeferred (e : Event) : Step Unit := do
  let a ← get
  unless a.mode = .deferredOperation do unexpected e
  match a.waitingDefers with
  | [] => unexpected e
  | waiting :: rest =>
    set { a with waitingDefers := rest, modes := a.modes.tail, statementBase := waiting.base }
    let operation ← popSingle e
    attach waiting.slot operation
    modifyTree fun t => t.setSpan waiting.slot ⟨(t.span waiting.slot).start, e.offset⟩
    stageStatement waiting.slot
    setLastEnd e.offset
    report .deferred e.offset "deferred operation recorded"

/-- The end of the source: everything staged belongs to the source file. -/
def onUnitEnd (e : Event) : Step Unit := do
  let a ← get
  unless a.scopes.length = 1 do
    fail (.unbalancedScope e.kind (.construct ((topTag? a).getD .unit)) e.offset)
  unless !a.hasOperands && a.modes.isEmpty do unexpected e
  let items ← unstage 0
  items.forM (attach .root)
  modifyTree (·.setSpan .root ⟨0, e.offset⟩)
  modify ({ · with lastEnd := e.offset, statementBase := 0 })
  report .unit e.offset "complete"

end Deferral.Assembly
