import Deferral.Assembly.Basic

/-!
# Operands and expressions

A prefix operator is staged before its operand and waits below it. It takes its operand when that operand is taken from
the stage by what comes next, so suffixes bind tighter than prefix operators.
-/

namespace Deferral.Assembly

/-- Whether a node is a prefix operator without its operand. -/
def isWaiting (t : Tree) (s : Slot) : Bool :=
  match t.construct s with
  | .unary _ none => true
  | _ => false

/-- The top operand of the current statement. -/
def topOperand? (a : Assembly) : Option Slot := if a.hasOperands then a.staged.head? else none

/-- Takes the top operand as it is. -/
def popRaw (e : Event) : Step Slot := do
  let a ← get
  match topOperand? a with
  | none => missingOperand e
  | some s =>
    set { a with staged := a.staged.tail }
    match a.tree.construct s with
    | .unary op none => fail (.danglingOperator op e.offset)
    | _ => return s

/-- Gives the prefix operator `op` its operand. -/
def applyOperator (op operand : Slot) : Step Unit := do
  attach op operand
  modifyTree fun t =>
    let t := match t.construct op with
      | .unary text _ => t.setConstruct op (.unary text (some operand))
      | _ => t
    t.setSpan op ((t.span op).merge (t.span operand))

/-- Gives `operand` to the prefix operators that wait on top of the stage, innermost first; at most `steps` of them. -/
def applyWaiting : (steps : Nat) → (operand : Slot) → Step Slot
  | 0, operand => return operand
  | n + 1, operand => do
    let a ← get
    match topOperand? a with
    | none => return operand
    | some op =>
      if isWaiting a.tree op then
        set { a with staged := a.staged.tail }
        applyOperator op operand
        applyWaiting n op
      else return operand

/-- Takes the top operand together with the prefix operators before it. -/
def popOperand (e : Event) : Step Slot := do
  let operand ← popRaw e
  applyWaiting (← get).height operand

/-- Takes the only operand of the current statement. -/
def popSingle (e : Event) : Step Slot := do
  let s ← popOperand e
  expectNoOperands e
  return s

/-- Takes all operands of the current statement, in source order, after those in `later`. -/
def popAll (e : Event) : (steps : Nat) → (later : List Slot) → Step (List Slot)
  | 0, later => return later
  | n + 1, later => do
    if (← get).hasOperands then
      let s ← popOperand e
      popAll e n (s :: later)
    else return later

/-- Takes all operands of the current statement, in source order. -/
def popStatement (e : Event) : Step (List Slot) := do popAll e (← get).height []

/-- Takes `count` operands, in source order, before those in `later`. -/
def popOperands (e : Event) : (count : Nat) → (later : List Slot) → Step (List Slot)
  | 0, later => return later
  | n + 1, later => do
    let s ← popOperand e
    popOperands e n (s :: later)

/-! ## Expressions -/

/-- A leaf or a waiting operator. -/
def onLeaf (e : Event) (construct : Construct) : Step Unit := do
  let span ← leafSpan e
  stage (← newNode construct span)

def onBinary (e : Event) : Step Unit := do
  if e.literal.isEmpty then invalidLiteral e
  let right ← popOperand e
  let left ← popOperand e
  let t ← getTree
  let s ← newNode (.binary e.literal left right) ((t.span left).merge (t.span right))
  attach s left
  attach s right
  stage s

/-- Stages `base` with a suffix and its operands. -/
def stageSuffixed (e : Event) (suffix : Suffix) (base : Slot) (operands : List Slot) : Step Unit := do
  let t ← getTree
  let s ← newNode (.suffixed suffix base) ⟨(t.span base).start, e.offset⟩
  attach s base
  operands.forM (attach s)
  stage s

def onCall (e : Event) : Step Unit := do
  let count ← countOf e
  let operands ← popOperands e count []
  let base ← popRaw e
  stageSuffixed e .call base operands

def onIndex (e : Event) : Step Unit := do
  let operand ← popOperand e
  let base ← popRaw e
  stageSuffixed e .index base [operand]

/-- A member access as it is written: an arrow or a point, and a name. -/
def member? (literal : String) : Option Suffix :=
  match literal.toList with
  | '-' :: '>' :: name => if name.isEmpty then none else some (.member (String.ofList name) true)
  | '.' :: name => if name.isEmpty then none else some (.member (String.ofList name) false)
  | _ => none

def onMember (e : Event) : Step Unit := do
  match member? e.literal with
  | none => invalidLiteral e
  | some suffix =>
    let base ← popRaw e
    stageSuffixed e suffix base []

def increment? : String → Option Suffix
  | "++" => some (.increment false)
  | "--" => some (.increment true)
  | _ => none

def onIncrement (e : Event) : Step Unit := do
  match increment? e.literal with
  | none => invalidLiteral e
  | some suffix =>
    let base ← popRaw e
    stageSuffixed e suffix base []

def onInitializerList (e : Event) : Step Unit := do
  let count ← countOf e
  let members ← popOperands e count []
  let t ← getTree
  let start := (members.head?.map fun s => (t.span s).start).getD e.offset
  let s ← newNode .initializerList ⟨start, e.offset⟩
  members.forM (attach s)
  stage s

end Deferral.Assembly
