import Deferral.Log
import Deferral.Tree.Walk

/-!
# When deferred statements fire

A walk over the tree keeps track of the open scopes and of the deferred statements that are armed. Leaving a scope fires
what was armed in it, the latest first: at its end, or before a `return`, `break` or `continue` that leaves it. A scope
owns the armed statements exactly one level below it.

The walk only notes what is to be changed (`Firing.Edit`); `Firing.Apply` makes the changes.
-/

namespace Deferral

/-- How a scope is left. -/
inductive Firing.Exit where
  | scopeEnd
  | returned
  | break
  | continue
  deriving DecidableEq, Repr

/-- One firing of a deferred statement, armed in `scope`. -/
structure Firing where
  deferred : Slot
  scope : Slot
  exit : Firing.Exit
  deriving DecidableEq, Repr

namespace Firing

def Exit.label : Exit → String
  | .scopeEnd => "ScopeEnd"
  | .returned => "Return"
  | .break => "Break"
  | .continue => "Continue"

/-- Whether leaving this way goes no further than a scope of the given sort. -/
def Exit.stopsAt : Exit → Construct.Tag → Bool
  | .scopeEnd, _ => true
  | .returned, tag => tag == .function
  | .break, tag => tag == .loop || tag == .caseLabel
  | .continue, tag => tag == .loop

/-- A node at a depth of the walk: an open scope or an armed statement. -/
structure Placed where
  slot : Slot
  depth : Nat
  deriving DecidableEq, Repr

/-- A change to the tree. `op` is the operation of a deferred statement. -/
inductive Edit where
  | remove (deferred : Slot)
  | append (scope op : Slot)
  | insertBefore (anchor op : Slot) (openBrace : Bool)
  /-- Stores the value of a `return` before what fires there. -/
  | bindValue (ret value : Slot) (type : String)
  | closeBrace (anchor : Slot)
  deriving DecidableEq, Repr

/-- What the walk has found. -/
structure Plan where
  /-- Innermost first. -/
  scopes : List Placed := []
  /-- Latest first. -/
  armed : List Placed := []
  armedTotal : Nat := 0
  edits : Array Edit := #[]
  firings : Array Firing := #[]
  log : Array Log.Entry := #[]

/-! ## Facts about the tree -/

/-- The operation of a deferred statement. -/
def operation (t : Tree) (deferred : Slot) : Slot := (t.children deferred).head?.getD deferred

/-- Whether the end of a scope can be reached: its last statement, deferred ones apart, is no jump. -/
def fallsOffEnd (t : Tree) (scope : Slot) : Bool :=
  match (t.children scope).reverse.find? fun s => t.tag s != .deferred && t.tag s != .group with
  | some last => t.tag last != .returned && t.tag last != .jump
  | none => true

/-- Whether a node is a literal under signs, looking at most `steps` levels down. What fires cannot change its
value. -/
def isConstantIn (t : Tree) : (steps : Nat) → Slot → Bool
  | 0, _ => false
  | n + 1, s =>
    match t.construct s with
    | .constant _ => true
    | .unary op _ => ["-", "+", "~", "!"].contains op && (t.children s).all (isConstantIn t n)
    | _ => false

def isConstant (t : Tree) (s : Slot) : Bool := isConstantIn t t.size s

/-- The words of a text, divided by single blanks. -/
def words : List Char → List (List Char)
  | [] => [[]]
  | c :: cs =>
    let rest := words cs
    if c = ' ' then [] :: rest else (c :: rest.headD []) :: rest.tail

/-- Words of a return type that do not belong to the type of the value. -/
def storageWords : List String := ["static", "extern", "inline", "register", "auto", "_Noreturn", "_Thread_local"]

/-- The type of the returned value; none for `void`. -/
def valueType? (returnType : String) : Option String :=
  let type := " ".intercalate (((words returnType.toList).map .ofList).filter fun word => !storageWords.contains word)
  if type.isEmpty || type == "void" then none else some type

/-! ## Leaving scopes -/

/-- What is armed in a scope, latest first. -/
def Plan.owned (p : Plan) (scope : Placed) : List Placed := p.armed.filter (·.depth == scope.depth + 1)

def Plan.record (t : Tree) (p : Plan) (f : Firing) : Plan :=
  { p with
    firings := p.firings.push f
    log := p.log.push (Log.report "Defer" (t.span f.deferred).start
      ("fired on " ++ f.exit.label ++ " of " ++ (t.tag f.scope).label)) }

def Plan.edit (p : Plan) (e : Edit) : Plan := { p with edits := p.edits.push e }

/-- Leaves a scope at its end. If the end cannot be reached, the jump before it has fired everything. -/
def Plan.exitAtEnd (t : Tree) (p : Plan) (scope : Placed) : Plan :=
  let owned := p.owned scope
  let p := { p with armed := p.armed.filter (·.depth != scope.depth + 1) }
  if fallsOffEnd t scope.slot then
    owned.foldl (fun p a =>
      (p.edit (.append scope.slot (operation t a.slot))).record t ⟨a.slot, scope.slot, .scopeEnd⟩) p
  else p

/-- Leaves every open scope at `depth` or deeper. -/
def Plan.closeFrom (t : Tree) (p : Plan) (depth : Nat) : Plan :=
  let left := p.scopes.takeWhile (depth ≤ ·.depth)
  left.foldl (Plan.exitAtEnd t) { p with scopes := p.scopes.drop left.length }

/-- The scopes that a jump leaves, innermost first, up to the one it stops at. -/
def leftBy (t : Tree) (exit : Exit) : List Placed → List Placed
  | [] => []
  | scope :: rest => if exit.stopsAt (t.tag scope.slot) then [scope] else scope :: leftBy t exit rest

/-- The value to store before a `return` fires anything, with its type: one that is no constant, in a function that
returns a value. -/
def binding? (t : Tree) (jump : Slot) (target? : Option Slot) : Option (Slot × String) :=
  match t.construct jump, target?.map t.construct with
  | .returned (some value), some (.function f) =>
    if isConstant t value then none else (valueType? f.returnType).map (value, ·)
  | _, _ => none

/-- Leaves scopes by a jump. If something fires there and the jump stands alone without braces, or a value has to be
stored, braces are put around it all. -/
def Plan.exitEarly (t : Tree) (p : Plan) (jump : Slot) (exit : Exit) : Plan :=
  let left := leftBy t exit p.scopes
  let owed := left.flatMap fun scope => (p.owned scope).map (·, scope.slot)
  let target? := (left.getLast?.map (·.slot)).filter fun s => exit.stopsAt (t.tag s)
  let bound? := binding? t jump target?
  let needsBraces := bound?.isSome || (t.parent? jump).any fun parent => !(t.construct parent).braced
  if owed.isEmpty then p
  else
    let p := match bound? with
      | some (value, type) => p.edit (.bindValue jump value type)
      | none => p
    let (p, _) := owed.foldl (fun (p, first) (a, scope) =>
      ((p.edit (.insertBefore jump (operation t a.slot) (needsBraces && bound?.isNone && first))).record t
        ⟨a.slot, scope, exit⟩, false)) (p, true)
    if needsBraces then p.edit (.closeBrace jump) else p

def Plan.open (p : Plan) (s : Slot) (depth : Nat) : Plan := { p with scopes := ⟨s, depth⟩ :: p.scopes }

/-- Arms a deferred statement, which itself is to be removed. -/
def Plan.arm (t : Tree) (p : Plan) (s : Slot) (depth : Nat) : Plan :=
  { p.edit (.remove s) with
    armed := ⟨s, depth⟩ :: p.armed
    armedTotal := p.armedTotal + 1
    log := p.log.push (Log.report "Defer" (t.span s).start "armed") }

/-- One node of the walk. What is below a deferred statement is not visited. -/
def Plan.visit (t : Tree) (s : Slot) (depth : Nat) (p : Plan) : Plan × Bool :=
  let p := p.closeFrom t depth
  match t.construct s with
  | .scope _ | .function _ | .loop _ | .branch _ _ | .caseLabel _ _ => (p.open s depth, true)
  | .deferred => (p.arm t s depth, false)
  | .returned _ => (p.exitEarly t s .returned, true)
  | .jump .break => (p.exitEarly t s .break, true)
  | .jump .continue => (p.exitEarly t s .continue, true)
  | _ => (p, true)

/-- Leaves all scopes. What is still armed stood in no scope. -/
def Plan.finish (t : Tree) (p : Plan) : Plan :=
  let p := p.closeFrom t 0
  if p.armed.isEmpty then p
  else
    { p with
      armed := []
      log := p.log.push ⟨.warning, .firing, s!"{p.armed.length} defer(s) outside any scope were dropped"⟩ }

/-- Everything that fires in a tree. -/
def plan (t : Tree) : Plan := t.conduct .root { enter := Plan.visit t, finish := Plan.finish t } {}

end Firing

end Deferral
