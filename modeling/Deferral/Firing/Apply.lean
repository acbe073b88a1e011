import Deferral.Firing.Plan

/-!
# Putting fired operations in place

Each firing puts a fresh copy of the deferred operation where it runs. A `return` whose value is computed stores the
value first, so that what fires runs after it: `return f(x);` becomes a block that declares the variable
`Firing.storedValue`, runs what fires and returns the variable.
-/

namespace Deferral.Firing

/-- The variable that holds the value of a `return` while deferred operations run. -/
def storedValue : String := "__defer_ret"

/-- A copy of an operation, marked as added. -/
def spliceIn (t : Tree) (op : Slot) : Slot × Tree :=
  let (s, t) := t.copy op
  (s, t.setStatus s .added)

/-- Puts `s` before `anchor`, under the same parent; `orphan` is what to say of an anchor that has none. -/
def placeBefore (t : Tree) (anchor s : Slot) (orphan : String) : Tree × Option Log.Entry :=
  match t.parent? anchor with
  | some parent => (t.insertBefore parent anchor s, none)
  | none => (t, some ⟨.warning, .firing, s!"{orphan} statement @{(t.span anchor).start} has no parent"⟩)

def Edit.apply (t : Tree) : Edit → Tree × Option Log.Entry
  | .remove deferred => (t.setStatus deferred .removed, none)
  | .append scope op =>
    let (s, t) := spliceIn t op
    (t.attach scope s, none)
  | .insertBefore anchor op openBrace =>
    let (s, t) := spliceIn t op
    let t := if openBrace then t.addActions s { braceBefore := true } else t
    placeBefore t anchor s "jump"
  | .bindValue ret value type =>
    let (s, t) := spliceIn t value
    let t := (t.addActions s { braceBefore := true }).setLead s (type ++ " " ++ storedValue ++ " = ")
    let (t, warning?) := placeBefore t ret s "return"
    (t.replaceText value storedValue, warning?)
  | .closeBrace anchor => ((t.setStatus anchor .modified).addActions anchor { braceAfter := true }, none)

/-- Makes all changes in order. -/
def applyAll (t : Tree) : List Edit → Tree × List Log.Entry
  | [] => (t, [])
  | e :: rest =>
    let (t, warning?) := e.apply t
    let (t, log) := applyAll t rest
    (t, warning?.toList ++ log)

/-- A tree whose deferred statements have been put in place. -/
structure Resolved where
  tree : Tree
  armed : Nat
  firings : List Firing
  log : List Log.Entry

def resolve (t : Tree) : Resolved :=
  let p := plan t
  let (tree, log) := applyAll t p.edits.toList
  { tree, armed := p.armedTotal, firings := p.firings.toList, log := p.log.toList ++ log }

end Deferral.Firing
