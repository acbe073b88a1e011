import Deferral.Assembly.Build
import Deferral.Firing.Apply
import Deferral.Output.Emission

/-!
# Lowering a source

`lower` takes a source to plain text: its tree is built, deferred statements are put in place unless they are to be
kept, and the tree is written.
-/

namespace Deferral

/-- What lowering a source gives. -/
structure Lowered where
  tree : Tree
  /-- How many deferred statements were armed and how often they fired. -/
  resolved? : Option (Nat × Nat)
  emission : Emission

/-- The tree of a source, with its deferred statements in place unless `keepDefers`. -/
def lowerTree (t : Tree) (keepDefers : Bool) : Tree × Option (Nat × Nat) × List Log.Entry :=
  if keepDefers then (t, none, [])
  else
    let r := Firing.resolve t
    (r.tree, some (r.armed, r.firings.length), r.log)

/-- Lowers a source. The log goes on to the point where lowering failed, if it did. -/
def lower (source : List UInt8) (keepDefers : Bool := false) : Except Assembly.BuildError Lowered × List Log.Entry :=
  match (Assembly.start []).build source with
  | (.error e, a) => (.error e, a.log.toList)
  | (.ok t, a) =>
    let (tree, resolved?, log) := lowerTree t keepDefers
    let emission := tree.emit (some (.file (.bytes source.toArray)))
    (.ok { tree, resolved?, emission }, a.log.toList ++ log ++ emission.log)

end Deferral
