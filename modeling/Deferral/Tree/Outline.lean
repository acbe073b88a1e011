import Deferral.Text.Quoted
import Deferral.Tree.Walk

/-!
# Outlines

A tree as text: one line for each node, indented by its depth, with the requests that it carries.
-/

namespace Deferral.Tree

/-- What an outline shows beside the constructs. -/
structure OutlineStyle where
  spans : Bool := false
  removed : Bool := true

/-- A type and a name; either may be missing. -/
def declarationText (type name : String) (isReference : Bool) : String :=
  let mark := if isReference then "&" else ""
  if name.isEmpty then type ++ mark
  else if type.isEmpty then mark ++ name
  else type ++ " " ++ mark ++ name

def LoopForm.text : LoopForm → String
  | .forLoop => "for"
  | .whileLoop => "while"
  | .doLoop => "do"

/-- A parameter of a function. -/
def parameterText (t : Tree) (s : Slot) : String :=
  match t.construct s with
  | .declaration type name isReference => declarationText type name isReference
  | _ => "?"

/-- What is said about a construct after its name. -/
def detail? (t : Tree) : Construct → Option String
  | .scope true => some "\x7b\x7d"
  | .function f =>
    some (f.name ++ " -> " ++ f.returnType ++ " (" ++ ", ".intercalate (f.params.map t.parameterText) ++ ")")
  | .loop l => some (LoopForm.text l.form)
  | .caseLabel text true => some (text ++ " fallthrough")
  | .caseLabel text false => some text
  | .jump j => some j.keyword
  | .declaration type name isReference => some (declarationText type name isReference)
  | .suffixed suffix _ => some suffix.text
  | .binary op _ _ => some op
  | .identifier name => some name
  | .constant text => some text
  | .unary op _ => some op
  | _ => none

def Status.mark : Status → String
  | .clean => ""
  | .added => " [added]"
  | .modified => " [modified]"
  | .removed => " [removed]"

/-- The line of a node, without its indentation. -/
def outlineLine (t : Tree) (style : OutlineStyle) (s : Slot) : String :=
  let n := t.node s
  n.tag.label ++ ((t.detail? n.construct).map (" " ++ ·)).getD "" ++
    (if style.spans then " " ++ n.span.render else "") ++ Status.mark n.status ++
    (if n.actions.isEmpty then "" else " <" ++ "|".intercalate n.actions.names ++ ">") ++
    (n.lead?.map (" prefix " ++ Text.quoted ·)).getD "" ++
    (n.replacement?.map (" as " ++ Text.quoted ·)).getD ""

/-- The lines of a node and everything below it. -/
def outlineLines (t : Tree) (style : OutlineStyle) (start : Slot) : List String :=
  (t.conduct start { enter := fun s depth lines =>
    if !style.removed && (t.node s).status == .removed then (lines, false)
    else ((String.ofList (List.replicate (2 * depth) ' ') ++ t.outlineLine style s) :: lines, true) } []).reverse

def outline (t : Tree) (style : OutlineStyle := {}) (start : Slot := .root) : String :=
  "\n".intercalate (t.outlineLines style start)

end Deferral.Tree
