import Deferral.Assembly.Operand

/-!
# Scopes

Opening and closing functions, blocks, branches, loops, switches and labels. A header keeps its expressions in a group,
so that they are not mistaken for statements of the body.
-/

namespace Deferral.Assembly

/-- Opens a scope that starts where the last construct ended. -/
def openScope (construct : Construct) : Step Slot := do
  let a ← get
  let s ← newNode construct ⟨a.lastEnd, a.lastEnd⟩
  modify fun a => { a with scopes := ⟨s, a.height⟩ :: a.scopes, statementBase := a.height }
  return s

def topTag? (a : Assembly) : Option Construct.Tag := a.scopes.head?.map fun frame => a.tree.tag frame.slot

/-- The innermost open scope, which has to be of the given sort. -/
def expectTop (e : Event) (tag : Construct.Tag) : Step Slot := do
  let a ← get
  match a.scopes with
  | [] => fail (.emptyScopeStack e.kind e.offset)
  | frame :: _ =>
    let found := a.tree.tag frame.slot
    if found = tag then return frame.slot else fail (.unbalancedScope e.kind (.construct found) e.offset)

/-- Closes the innermost scope at `stop`; it takes the statements staged since it was opened. -/
def closeScope (e : Event) (stop : Nat) : Step Slot := do
  expectNoOperands { e with offset := stop }
  let a ← get
  match a.scopes with
  | frame :: outer :: rest =>
    set { a with scopes := outer :: rest }
    if a.height < frame.base then throw (.outOfRange frame.base a.height)
    let statements ← unstage frame.base
    statements.forM (attach frame.slot)
    modifyTree fun t => t.setSpan frame.slot ⟨(t.span frame.slot).start, stop⟩
    setLastEnd stop
    finishStatement
    return frame.slot
  | _ => fail (.emptyScopeStack e.kind stop)

/-- Closes a function, branch, loop or switch and stages it as a statement. -/
def closeConstruct (e : Event) (tag : Construct.Tag) : Step Unit := do
  let _ ← expectTop e tag
  if tag = .loop ∧ (← get).mode = .forHeader then unexpected e
  let s ← closeScope e e.offset
  modifyTree fun t => (t.absorb s).2
  stageStatement s
  report tag e.offset "close"

/-! ## Blocks and labels -/

/-- Closes the label whose statements come to an end; it ends with its last statement. -/
def closeLabel (e : Event) : Step Slot := do
  let s ← closeScope e (← get).lastEnd
  stageStatement s
  return s

/-- Closes a label if one is innermost. -/
def closeOpenLabel (e : Event) : Step Unit := do
  if topTag? (← get) = some .caseLabel then
    let _ ← closeLabel e

def onScopeStart (e : Event) : Step Unit := do
  let _ ← openScope (.scope true)
  setLastEnd e.offset
  report .scope e.offset "open"

def onScopeEnd (e : Event) : Step Unit := do
  closeOpenLabel e
  let s ← expectTop e .scope
  unless ((← getTree).construct s).braced do fail (.unbalancedScope e.kind .unbraced e.offset)
  let s ← closeScope e e.offset
  stageStatement s
  report .scope e.offset "close"

def onImplicitScopeStart : Step Unit := do
  let _ ← openScope (.scope false)

def onImplicitScopeEnd (e : Event) : Step Unit := do
  let s ← expectTop e .scope
  if ((← getTree).construct s).braced then fail (.unbalancedScope e.kind .braced e.offset)
  let s ← closeScope e e.offset
  stageStatement s

/-- Opens a label. The label before it ends here, and falls through unless a `break` ends it. -/
def onLabel (e : Event) (text : String) : Step Unit := do
  if topTag? (← get) = some .caseLabel then
    let previous ← closeLabel e
    modifyTree fun t =>
      match t.construct previous with
      | .caseLabel text _ => t.setConstruct previous (.caseLabel text (!t.endsInBreak previous))
      | _ => t
  let _ ← openScope (.caseLabel text false)
  setLastEnd e.offset
  report .caseLabel e.offset s!"label `{text}`"

def onCaseLabel (e : Event) : Step Unit := do
  if e.literal.isEmpty then invalidLiteral e
  onLabel e e.literal

/-! ## Headers -/

def group? (t : Tree) (s : Slot) : Option Slot :=
  match t.construct s with
  | .branch g _ => g
  | .loop l => l.group?
  | .switch g _ => g
  | _ => none

/-- Adds an expression to a header group, whose span grows over it. -/
def attachToGroup (group s : Slot) : Step Unit := do
  attach group s
  modifyTree fun t => t.setSpan group ((t.span group).merge (t.span s))

/-- A new header group under `owner`. -/
def newGroup (owner : Slot) : Step Slot := do
  let group ← newNode .group .absent
  attach owner group
  return group

/-- Updates the parts of the loop in slot `s`. -/
def modifyLoop (s : Slot) (f : LoopParts → LoopParts) : Step Unit :=
  modifyTree fun t =>
    match t.construct s with
    | .loop l => t.setConstruct s (.loop (f l))
    | _ => t

def onIfHeader (e : Event) : Step Unit := do
  let s ← openScope (.branch none true)
  let group ← newGroup s
  modifyTree (·.setConstruct s (.branch (some group) true))
  report .branch e.offset "open"

def onSwitchHeader (e : Event) : Step Unit := do
  let s ← openScope (.switch none true)
  let group ← newGroup s
  modifyTree (·.setConstruct s (.switch (some group) true))
  report .switch e.offset "open"

/-- Opens a loop. A `do` loop gets its group with the condition at its end. -/
def openLoop (e : Event) (form : LoopForm) : Step Unit := do
  let s ← openScope (.loop { form, braced := true })
  if form ≠ .doLoop then
    let group ← newGroup s
    modifyLoop s ({ · with group? := some group })
  report .loop e.offset "open"

def onForHeader (e : Event) : Step Unit := do
  openLoop e .forLoop
  modify fun a => { a with modes := .forHeader :: a.modes }

def onDoHeader (e : Event) : Step Unit := do
  openLoop e .doLoop
  setLastEnd e.offset

/-- The condition of a branch, switch or `while`, which goes into the header group. -/
def onCondition (e : Event) (tag : Construct.Tag) : Step Unit := do
  let s ← expectTop e tag
  let condition ← popSingle e
  let group ← getOrUnexpected e (group? (← getTree) s)
  attachToGroup group condition
  modifyLoop s ({ · with condition? := some condition })
  setLastEnd e.offset

/-- The condition after the body of a `do` loop, in a group that is staged behind the body. -/
def onDoCondition (e : Event) : Step Unit := do
  let s ← expectTop e .loop
  let condition ← popSingle e
  let group ← newNode .group .absent
  attachToGroup group condition
  modifyLoop s ({ · with condition? := some condition, group? := some group })
  stageStatement group
  setLastEnd e.offset

/-- One of the three parts of a `for` header; the last one ends the header. -/
def onForPart (e : Event) (record : Option Slot → LoopParts → LoopParts) (isLast : Bool) : Step Unit := do
  unless (← get).mode = .forHeader do unexpected e
  let s ← expectTop e .loop
  let group ← getOrUnexpected e (group? (← getTree) s)
  let parts ← popStatement e
  parts.forM (attachToGroup group)
  modifyLoop s (record parts.head?)
  modify ({ · with fragments := [], sharedType? := none })
  finishStatement
  if isLast then
    modify fun a => { a with modes := a.modes.tail }
    setLastEnd e.offset

def onElse (e : Event) : Step Unit := do
  let _ ← expectTop e .branch
  setLastEnd e.offset

def onSwitchEnd (e : Event) : Step Unit := do
  closeOpenLabel e
  closeConstruct e .switch

end Deferral.Assembly
