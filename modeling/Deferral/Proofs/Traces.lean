import Deferral.Firing.Plan
import Deferral.Proofs.Held

/-!
# Runs of a tree

A tree is run like a program whose statements are opaque: a run is the list of what is done, and branches, loops and
`switch` take their decisions from a list. A deferred statement is pending from the time it is reached until its list of
statements is left, at the end or by a jump; then everything pending there is done, the latest first. Removed nodes are
skipped, added ones are done where they stand, and a value that is replaced is not computed again. A plain run is one of
a language without deferred statements: it is stuck at each that still stands. So the plain runs of a tree in which they
have been put in place can be compared with the runs of the tree it was made from.
-/

namespace Deferral

open Firing (Exit)

/-- A statement or a value, known by its place in the source. -/
structure Action where
  tag : Construct.Tag
  span : Span
  deriving DecidableEq, Repr

def Node.action (n : Node) : Action := ⟨n.tag, n.span⟩

inductive Outcome where
  | done
  /-- By a jump that has not come to its target. -/
  | left (exit : Exit)
  /-- No decision was left. -/
  | cut
  /-- A plain run came to a deferred statement. -/
  | stuck
  deriving DecidableEq, Repr

/-- What was done, how it ended, and the decisions that are left. -/
structure Run where
  trace : List Action
  outcome : Outcome
  decisions : List Nat
  deriving DecidableEq, Repr

namespace Run

def acts (actions : List Action) (decisions : List Nat) : Run := ⟨actions, .done, decisions⟩

def leaves (actions : List Action) (exit : Exit) (decisions : List Nat) : Run := ⟨actions, .left exit, decisions⟩

/-- Goes on with `next`. A jump leaves here, after all that is pending. -/
def andThen (r : Run) (pending : List Action) (next : List Nat → Run) : Run :=
  match r.outcome with
  | .done => { next r.decisions with trace := r.trace ++ (next r.decisions).trace }
  | .left _ => { r with trace := r.trace ++ pending }
  | .cut | .stuck => r

/-- Jumps of this sort have come to their target. -/
def catches (exit : Exit) (r : Run) : Run := if r.outcome = .left exit then { r with outcome := .done } else r

/-- Takes a decision. -/
def decides (decisions : List Nat) (next : Nat → List Nat → Run) : Run :=
  match decisions with
  | [] => ⟨[], .cut, []⟩
  | d :: decisions => next d decisions

/-- Runs the body of a loop as long as it is decided to. Every round takes a decision, so there are at most as many
rounds as decisions. -/
def iterate (body : List Nat → Run) : (rounds : Nat) → List Nat → Run
  | 0, decisions => ⟨[], .cut, decisions⟩
  | n + 1, decisions =>
    decides decisions fun d decisions =>
      if d = 0 then acts [] decisions else ((body decisions).catches .continue).andThen [] (iterate body n)

end Run

/-! ## Statements -/

/-- The sorts and spans of nodes that were there before. -/
def ownRoots (f : Forest Node) : List (Construct.Tag × Span) :=
  (f.roots.filter (·.status != .added)).map fun n => (n.tag, n.span)

/-- Whether a branch has two alternatives. The keyword stands between them, so there is a gap. -/
def isTwoWay (below : Forest Node) : Bool :=
  match ownRoots below with
  | [(.group, _), (.scope, x), (.scope, y)] => x.stop < y.start
  | _ => false

/-- Literals under signs, and nothing else. -/
def areConstants : Forest Node → Bool
  | .nil => true
  | .node n below rest =>
    (match n.construct with
      | .constant _ => true
      | .unary op _ => ["-", "+", "~", "!"].contains op && areConstants below
      | _ => false) && areConstants rest

/-- What computing a returned value does. -/
def valueActions (below : Forest Node) : List Action :=
  if areConstants below then [] else (below.roots.filter (·.replacement?.isNone)).map (·.action)

/-- Which statements of a list are run. -/
inductive Mode where
  | all
  /-- From a label on, counting from zero. -/
  | fromLabel (n : Nat)
  /-- One block, counting from zero, and nothing else. -/
  | oneScope (n : Nat)

/-- Runs one statement, given how to run the list of statements below it. -/
def runStatement (n : Node) (below : Forest Node) (block : Mode → List Nat → Run) (decisions : List Nat) : Run :=
  match n.construct with
  | .scope _ | .caseLabel _ _ => block .all decisions
  | .branch _ _ =>
    .decides decisions fun d decisions =>
      if isTwoWay below then block (.oneScope (if d = 0 then 1 else 0)) decisions
      else if d = 0 then .acts [] decisions
      else block .all decisions
  | .loop parts =>
    let rounds := Run.iterate (block .all) decisions.length
    .catches .break
      (if parts.form = .doLoop then ((block .all decisions).catches .continue).andThen [] rounds else rounds decisions)
  | .switch _ _ => .decides decisions fun d decisions => (block (.fromLabel d) decisions).catches .break
  | .returned _ => .leaves (valueActions below) .returned decisions
  | .jump .break => .leaves [] .break decisions
  | .jump .continue => .leaves [] .continue decisions
  | .group => .acts [] decisions
  | _ => .acts [n.action] decisions

/-- Runs a list of statements. -/
def runList (plain : Bool) : Forest Node → Mode → (pending : List Action) → (decisions : List Nat) → Run
  | .nil, _, pending, decisions => .acts pending decisions
  | .node n below rest, mode, pending, decisions =>
    let run := runStatement n below (fun mode decisions => runList plain below mode [] decisions)
    match n.status, mode with
    | .removed, mode => runList plain rest mode pending decisions
    | .added, .all => (Run.acts [n.action] decisions).andThen pending (runList plain rest .all pending)
    | .added, mode => runList plain rest mode pending decisions
    | _, .all =>
      if n.tag = .deferred then
        if plain then ⟨[], .stuck, decisions⟩
        else runList plain rest .all (below.roots.map (·.action) ++ pending) decisions
      else (run decisions).andThen pending (runList plain rest .all pending)
    | _, .fromLabel k =>
      if n.tag ≠ .caseLabel then runList plain rest (.fromLabel k) pending decisions
      else
        match k with
        | 0 => (run decisions).andThen pending (runList plain rest .all pending)
        | k + 1 => runList plain rest (.fromLabel k) pending decisions
    | _, .oneScope k =>
      if n.tag ≠ .scope then runList plain rest (.oneScope k) pending decisions
      else
        match k with
        | 0 => run decisions
        | k + 1 => runList plain rest (.oneScope k) pending decisions

/-! ## Trees -/

/-- An entry without the links of its node. -/
def Entry.unlinked (e : Entry) : Entry := ⟨e.slot, e.linked [] none⟩

namespace Tree

/-- The forest of the nodes at some slots, at most so many levels and siblings deep. -/
def unroll (t : Tree) : (steps : Nat) → List Slot → Forest Entry
  | n + 1, s :: rest => .node (Entry.unlinked ⟨s, t.node s⟩) (unroll t n (t.children s)) (unroll t n rest)
  | _, _ => .nil

theorem unroll_eq {t : Tree} {f : Forest Entry} {p? : Option Slot} (h : t.Holds p? f) {n : Nat}
    (hn : f.members.length ≤ n) : t.unroll n f.rootSlots = f.map Entry.unlinked := by
  induction f generalizing p? n with
  | nil => cases n <;> rfl
  | node e b r ihb ihr =>
    rw [Forest.length_node] at hn
    obtain ⟨m, rfl⟩ : ∃ m, n = m + 1 := ⟨n - 1, by omega⟩
    rw [Forest.rootSlots_node, unroll, h.children_eq, ihb h.2.1 (by omega), ihr h.2.2 (by omega), h.1]
    rfl

/-- Runs a function, with deferred statements or without. -/
def runWith (t : Tree) (plain : Bool) (function : Slot) (decisions : List Nat) : Run :=
  (runList plain ((t.unroll t.size (t.children function)).map (·.node)) .all [] decisions).catches .returned

/-- Runs a function with its deferred statements. -/
def run (t : Tree) (function : Slot) (decisions : List Nat) : Run := t.runWith false function decisions

/-- Runs a function in a language without deferred statements. -/
def runPlain (t : Tree) (function : Slot) (decisions : List Nat) : Run := t.runWith true function decisions

end Tree

end Deferral
