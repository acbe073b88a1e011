import Deferral.Tree.Basic

/-!
# Walking a tree

`Tree.walk` visits a node and everything below it, parents first and children in order. The visitor is told the depth
below the start, carries a state along, and may leave out what is below a node. A `Tree.Strategy` is a visitor in parts.
-/

namespace Deferral.Tree

variable {σ : Type}

/-- Visits the nodes to come, each with its depth, in at most `steps` steps. The visitor returns the next state and
whether to go on below the node. -/
def walkFrom (t : Tree) (visit : Slot → Nat → σ → σ × Bool) : (steps : Nat) → List (Slot × Nat) → σ → σ
  | 0, _, state => state
  | _, [], state => state
  | n + 1, (s, depth) :: rest, state =>
    let (state, descend) := visit s depth state
    let below := if descend then (t.children s).map (·, depth + 1) else []
    walkFrom t visit n (below ++ rest) state

/-- Visits `start` and everything below it. -/
def walk (t : Tree) (start : Slot) (visit : Slot → Nat → σ → σ × Bool) (state : σ) : σ :=
  t.walkFrom visit t.size [(start, 0)] state

/-- What is done on a walk. -/
structure Strategy (σ : Type) where
  /-- At every node. Says whether to go on below it. -/
  enter : Slot → Nat → σ → σ × Bool := fun _ _ state => (state, true)
  /-- At every node of a sort, after that. -/
  peek : Construct.Tag → Slot → Nat → σ → σ := fun _ _ _ state => state
  /-- Once, at the end. -/
  finish : σ → σ := id

def Strategy.visit (S : Strategy σ) (t : Tree) (s : Slot) (depth : Nat) (state : σ) : σ × Bool :=
  let (state, descend) := S.enter s depth state
  (S.peek (t.tag s) s depth state, descend)

/-- Visits `start` and everything below it as the strategy says. -/
def conduct (t : Tree) (start : Slot) (S : Strategy σ) (state : σ) : σ := S.finish (t.walk start (S.visit t) state)

end Deferral.Tree
