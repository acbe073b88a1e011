import Deferral.Tree.Node

/-!
# Trees in slots

A tree keeps its nodes in slots that are never reused: a node that is replaced stays where it was, marked as removed or
detached from its parent. Slot 1 holds the source file. Nodes get their numbers in the order in which they are made, and
the index leads from a number to a slot. `Tree.subtree` lists a node and everything below it, parents first.
-/

namespace Deferral

structure Tree where
  nodes : Array Node
  /-- The nodes that can be looked up, by their numbers. -/
  index : List (Nat × Slot) := []

namespace Tree

/-- The tree of an empty source file. -/
def ofPath (path : Path) : Tree := ⟨#[{ construct := .unit path }], [(0, .root)]⟩

def size (t : Tree) : Nat := t.nodes.size

/-- Whether the slot is in use. -/
def has (t : Tree) (s : Slot) : Bool := s.index < t.size

def node (t : Tree) (s : Slot) : Node := t.nodes.getD s.index default

def construct (t : Tree) (s : Slot) : Construct := (t.node s).construct

def tag (t : Tree) (s : Slot) : Construct.Tag := (t.node s).tag

def span (t : Tree) (s : Slot) : Span := (t.node s).span

def children (t : Tree) (s : Slot) : List Slot := (t.node s).children

def parent? (t : Tree) (s : Slot) : Option Slot := (t.node s).parent?

/-- The path of the source file. -/
def path (t : Tree) : Path :=
  match t.construct .root with
  | .unit p => p
  | _ => []

/-- The slot of the node with a given number. -/
def find? (t : Tree) (id : Nat) : Option Slot := (t.index.find? (·.1 == id)).map (·.2)

def slots (t : Tree) : List Slot := (List.range t.size).map Slot.mk

/-! ## Everything below a node -/

/-- The nodes to list first and everything below them, parents before children, in at most `steps` steps. -/
def preorder (t : Tree) : (steps : Nat) → List Slot → List Slot
  | 0, _ => []
  | _, [] => []
  | n + 1, s :: rest => s :: preorder t n (t.children s ++ rest)

/-- The node and everything below it. No node has two parents, so there are no more than the tree has slots. -/
def subtree (t : Tree) (s : Slot) : List Slot := t.preorder t.size [s]

def reachable (t : Tree) : List Slot := t.subtree .root

/-! ## Changes -/

def modify (t : Tree) (s : Slot) (f : Node → Node) : Tree := { t with nodes := t.nodes.modify s.index f }

/-- A new node without parent and children, in the next slot. -/
def push (t : Tree) (construct : Construct) (span : Span) : Slot × Tree :=
  (⟨t.size⟩, ⟨t.nodes.push { construct, span, id := t.size }, (t.size, ⟨t.size⟩) :: t.index⟩)

def setConstruct (t : Tree) (s : Slot) (c : Construct) : Tree := t.modify s ({ · with construct := c })

def setSpan (t : Tree) (s : Slot) (span : Span) : Tree := t.modify s ({ · with span := span })

/-- Makes `child` the last child of `parent`. -/
def attach (t : Tree) (parent child : Slot) : Tree :=
  (t.modify child ({ · with parent? := some parent })).modify parent
    fun n => { n with children := n.children ++ [child] }

/-- Puts `child` among the children of `parent` before `anchor`, or last if `anchor` is none of them. -/
def insertBefore (t : Tree) (parent anchor child : Slot) : Tree :=
  (t.modify child ({ · with parent? := some parent })).modify parent fun n =>
    let before := n.children.takeWhile (· != anchor)
    { n with children := before ++ child :: n.children.drop before.length }

/-- Marks a node. `removed` holds for everything below as well. -/
def setStatus (t : Tree) (s : Slot) (status : Status) : Tree :=
  match status with
  | .removed => (t.subtree s).foldl (fun t u => t.modify u ({ · with status := .removed })) t
  | status => t.modify s ({ · with status := status })

def addActions (t : Tree) (s : Slot) (a : Actions) : Tree := t.modify s fun n => { n with actions := n.actions.union a }

def setLead (t : Tree) (s : Slot) (text : String) : Tree := t.modify s ({ · with lead? := some text })

/-- Writes `text` instead of the node's own. -/
def replaceText (t : Tree) (s : Slot) (text : String) : Tree :=
  t.modify s ({ · with replacement? := some text, status := .modified })

/-- Nothing is found under the number any more. -/
def forget (t : Tree) (id : Nat) : Tree := { t with index := t.index.filter (·.1 != id) }

/-- Puts the children of `inner` in its place among the children of `outer`. What is left of `inner` is removed and is
no longer found. -/
def dissolve (t : Tree) (outer inner : Slot) : Tree :=
  let moved := t.children inner
  let t := moved.foldl (fun t c => t.modify c ({ · with parent? := some outer })) t
  let t := t.modify outer fun n =>
    let before := n.children.takeWhile (· != inner)
    { n with children := before ++ moved ++ n.children.drop (before.length + 1) }
  (t.modify inner ({ · with children := [], parent? := none, status := .removed })).forget (t.node inner).id

/-- Copies a node and everything below it into new slots, parents first. The copy has no parent and is clean; slots
inside it point to the copies. -/
def copy (t : Tree) (s : Slot) : Slot × Tree :=
  let sources := t.subtree s
  let rename (u : Slot) : Slot := ((sources.idxOf? u).map fun i => ⟨t.size + i⟩).getD u
  let copyOf (u : Slot) : Node :=
    let n := t.node u
    { construct := n.construct.mapSlots rename
      span := n.span
      children := n.children.map rename
      parent? := if u = s then none else n.parent?.map rename
      id := (rename u).index }
  (⟨t.size⟩, ⟨t.nodes ++ (sources.map copyOf).toArray, sources.map (fun u => ((rename u).index, rename u)) ++ t.index⟩)

end Tree

end Deferral
