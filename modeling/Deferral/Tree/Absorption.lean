import Deferral.Tree.Basic

/-!
# Scopes that add nothing

The body of a function, branch, loop or switch is read as a scope of its own. Where that scope is all there is beside
the header, it is dissolved into its owner. The body of a `do` loop stays, because the condition comes after it.
-/

namespace Deferral.Tree

def isScope (t : Tree) (s : Slot) : Bool := t.tag s == .scope

/-- The scope that adds nothing to its owner `s`, if there is one. -/
def redundantBody? (t : Tree) (s : Slot) : Option Slot :=
  let children := t.children s
  match t.construct s with
  | .function _ =>
    match children with
    | [body] => if t.isScope body then some body else none
    | _ => none
  | .loop l => if l.form = .doLoop then none else besideGroup children
  | .branch _ _ => besideGroup children
  | .switch _ _ => besideGroup children
  | _ => none
where
  /-- The only child that is not a header group, if it is a scope and there are at most two children. -/
  besideGroup (children : List Slot) : Option Slot :=
    match children.filter (t.tag · != .group) with
    | [body] => if t.isScope body && children.length ≤ 2 then some body else none
    | _ => none

/-- Dissolves scopes that add nothing to `s` until none is left; gives their number. Each of at most `steps` rounds
dissolves one. -/
def absorbIn (s : Slot) : (steps : Nat) → Tree → Nat × Tree
  | 0, t => (0, t)
  | n + 1, t =>
    match t.redundantBody? s with
    | none => (0, t)
    | some body =>
      let braced := (t.construct body).braced
      let t := (t.dissolve s body).modify s fun node => { node with construct := node.construct.setBraced braced }
      let (count, t) := absorbIn s n t
      (count + 1, t)

/-- Dissolves scopes that add nothing to `s` until none is left; gives their number. -/
def absorb (t : Tree) (s : Slot) : Nat × Tree := absorbIn s t.size t

def isBreak (t : Tree) (s : Slot) : Bool := t.construct s == .jump .break

/-- Whether the statements under a label end with a `break`, or with a block whose last statement is one. -/
def endsInBreak (t : Tree) (label : Slot) : Bool :=
  match (t.children label).getLast? with
  | none => false
  | some last => t.isBreak last || (t.isScope last && (t.children last).getLast?.any t.isBreak)

end Deferral.Tree
