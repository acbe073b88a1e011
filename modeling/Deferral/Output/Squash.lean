import Deferral.Log
import Deferral.Output.Range

/-!
# Cutting nested ranges

`Range.squash` turns nested ranges into cuts at one level: a range with others below it becomes the text before, between
and after them. Text before a spliced range goes up to the next range that stands at its own place.
-/

namespace Deferral

/-- A range that starts before the text up to `covered` is over. -/
structure Overlap where
  range : Range
  covered : Nat
  deriving DecidableEq, Repr

def Overlap.entry (o : Overlap) : Log.Entry :=
  ⟨.warning, .squash,
    o.range.tag.label ++ " range " ++ o.range.span.render ++ s!" overlaps its predecessor ending at {o.covered}"⟩

/-- Cuts in the order in which they are written. -/
structure Cuts where
  cuts : List Range := []
  overlaps : List Overlap := []
  deriving DecidableEq, Repr

instance : Append Cuts := ⟨fun a b => ⟨a.cuts ++ b.cuts, a.overlaps ++ b.overlaps⟩⟩

namespace Range

/-- The text of `container` from `start` to `stop`, left out if there is neither text nor anything to write. -/
def gap (container : Range) (start stop : Nat) (actions : Actions) : Cuts :=
  if start < stop || !actions.isEmpty then
    { cuts := [{ start, stop := max stop start, tag := container.tag, depth := 0, actions }] }
  else {}

/-- Up to where the text goes that precedes `child`: its start, or for a spliced one the start of the next child in
place, if there is one. -/
def textEnd? (container child : Range) (later : List Range) : Option Nat :=
  if child.spliced then (later.find? fun r => r.depth == container.depth + 1 && !r.spliced).map (·.start)
  else some child.start

mutual

/-- Cuts ranges that are not below one another, each with what is below it. -/
def flatten : (steps : Nat) → List Range → Cuts
  | 0, _ => {}
  | _, [] => {}
  | n + 1, r :: rest =>
    let below := rest.takeWhile (r.depth < ·.depth)
    let after := rest.dropWhile (r.depth < ·.depth)
    (if below.isEmpty then { cuts := [{ r with depth := 0 }] }
      else split n r r.start r.actions.leading below) ++ flatten n after

/-- Cuts `container` around the ranges below it. Its text up to `cursor` is done; `head` is what is still to be written
before its text. -/
def split : (steps : Nat) → (container : Range) → (cursor : Nat) → (head : Actions) → List Range → Cuts
  | 0, _, _, _, _ => {}
  | _, container, cursor, head, [] =>
    gap container cursor (max container.stop cursor) (head.union container.actions.trailing)
  | n + 1, container, cursor, head, child :: rest =>
    let below := rest.takeWhile (child.depth < ·.depth)
    let after := rest.dropWhile (child.depth < ·.depth)
    let (before, head, reached) : Cuts × Actions × Nat :=
      match textEnd? container child after with
      | none => ({}, head, cursor)
      | some upto =>
        let overlap : Cuts := if upto < cursor && !child.spliced then { overlaps := [⟨child, cursor⟩] } else {}
        (overlap ++ gap container cursor (max upto cursor) head, {}, max cursor upto)
    let cursor := if child.spliced then reached else max reached child.stop
    before ++ flatten n (child :: below) ++ split n container cursor head after

end

/-- Cuts at one level. Twice as many steps as ranges are enough: a range takes one to be cut and one to be passed. -/
def squash (ranges : List Range) : Cuts := flatten (2 * ranges.length) ranges

end Range

end Deferral
