import Deferral.Tree.Walk

/-!
# Ranges of source text

For every node that has text, a tree gives one range: its span, what is to be written around the text, and how many
ranges contain it. A range below another one comes right after it.
-/

namespace Deferral

/-- A range of the source with what is to be written around it, or instead of it. -/
structure Range where
  start : Nat
  stop : Nat
  tag : Construct.Tag
  depth : Nat
  actions : Actions := {}
  /-- Whether the text is brought in from elsewhere. -/
  spliced : Bool := false
  lead? : Option String := none
  replacement? : Option String := none
  deriving DecidableEq, Repr

namespace Range

def length (r : Range) : Nat := r.stop - r.start

def isEmpty (r : Range) : Bool := r.stop ≤ r.start

def span (r : Range) : Span := ⟨r.start, r.stop⟩

/-- The ranges of a walk so far, and the depths of the nodes above the current one that gave a range. -/
structure Collection where
  ranges : Array Range := #[]
  path : List Nat := []

/-- The range of a node at the given nesting, without requests of its own. -/
def ofNode (n : Node) (depth : Nat) : Range where
  start := n.span.start
  stop := n.span.stop
  tag := n.tag
  depth := depth
  lead? := n.lead?
  replacement? := n.replacement?

/-- Collects the range of one node. What is below a removed, an added or a replaced node has no range of its own; a node
that stays gives a range only if it has text. -/
def Collection.visit (t : Tree) (s : Slot) (depth : Nat) (c : Collection) : Collection × Bool :=
  let n := t.node s
  let path := c.path.dropWhile (depth ≤ ·)
  let range := ofNode n path.length
  match n.status with
  | .removed =>
    if n.span.isEmpty then ({ c with path }, false)
    else ({ ranges := c.ranges.push { range with actions := { omitted := true } }, path }, false)
  | .added =>
    let actions := ({ newlineBefore := true, semicolonAfter := true } : Actions).union n.actions
    ({ ranges := c.ranges.push { range with spliced := true, actions }, path }, false)
  | .modified =>
    if n.replacement?.isSome then ({ ranges := c.ranges.push { range with actions := n.actions }, path }, false)
    else keep n range path
  | .clean => keep n range path
where
  keep (n : Node) (range : Range) (path : List Nat) : Collection × Bool :=
    if n.span.isEmpty then ({ c with path }, true)
    else ({ ranges := c.ranges.push { range with actions := n.actions }, path := depth :: path }, true)

/-- The ranges of a tree. -/
def collect (t : Tree) : List Range :=
  (t.conduct .root { enter := Collection.visit t } {}).ranges.toList

end Range

end Deferral
