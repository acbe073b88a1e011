import Deferral.Proofs.Aliases
import Deferral.Proofs.Splicing

/-!
# Single ownership

Whatever is asked of an assembly, every node of its tree has one place (`Assembly.single_ownership`). The same holds
when the deferred statements of a source have been put in place.
-/

namespace Deferral

/-- All the slots in a construct that name nodes below its own. -/
def Construct.named (c : Construct) : List Slot := c.operands ++ c.parts

namespace Tree

variable {t : Tree} {gone : List Slot} {s x : Slot}

/-- Every node has one place, the source file is on top, and by its number a node is found, except those in `gone`. -/
structure Kempt (t : Tree) (gone : List Slot) : Prop where
  owned : t.Owned
  root : t.parent? .root = none
  find : ∀ s : Slot, s.index < t.size → t.find? (t.node s).id = if s ∈ gone then none else some s

theorem Kempt.of_indexed (ho : t.Owned) (hr : t.parent? .root = none) (hi : t.Indexed gone) : t.Kempt gone :=
  ⟨ho, hr, fun s hs => by rw [hi.id s hs, hi.find s hs]⟩

theorem Linked.below (h : t.Linked fun _ _ => False) (ho : t.Owned) (hx : x ∈ (t.construct s).named) :
    Relation.TransGen (fun u p => t.parent? u = some p) x s := by
  rcases List.mem_append.1 hx with hx | hx
  · exact .single (ho.child ((h.operand hx).resolve_right id)).2
  · obtain ⟨g, -, hxg, hgs⟩ := h.part hx
    exact .tail (.single (ho.child hxg).2) (ho.child (hgs.resolve_right id)).2

end Tree

namespace Assembly

open Tree Firing Grammar

variable {a : Assembly}

theorem Kept.root (h : Kept a) : a.tree.parent? .root = none := by
  refine (h.owning.sound.free .root ?_).2
  exact List.mem_append_left _ (List.mem_append_right _ (root_mem_scopes h.owning.root))

theorem Kept.staged (h : Kept a) : ∀ s ∈ a.staged, a.tree.parent? s = none := fun s hs =>
  (h.owning.sound.free s (by simp [Work.loose, hs])).2

/-- **Single ownership.** After any calls that all return, every node has one place, neither the source file nor what is
staged has a parent, and exactly the scopes that constructs absorbed cannot be looked up. This stays so when the
deferred statements of a source are put in place; and in the tree of a source everything that a construct names is below
it. -/
theorem single_ownership (path : Path) :
    (∀ calls : List Call, (∀ halt, some halt ∈ (start path).answers calls → ∃ f, halt = .fault f) →
      ((start path).after calls).tree.Kempt ((start path).absorbedAfter [] calls) ∧
        ∀ s ∈ ((start path).after calls).staged, ((start path).after calls).tree.parent? s = none) ∧
    ∀ (source : List UInt8) (t : Tree), ((start path).build source).1 = .ok t →
      (resolve t).tree.Kempt ((start path).absorbedAfter [] ((trace source).events.toList.map .event)) ∧
        ∀ s, ∀ x ∈ (t.construct s).named, Relation.TransGen (fun u p => t.parent? u = some p) x s := by
  refine ⟨fun calls hanswers => ?_, fun source t h => ?_⟩
  · obtain ⟨hk, hi⟩ := (kept_start path).after calls (indexed_start path) hanswers
    exact ⟨.of_indexed hk.owning.sound.owned hk.root hi, hk.staged⟩
  · obtain ⟨tokens, f, hbuilt⟩ := exists_built h
    have hlinked := linked_of_build h
    obtain ⟨a, htakes, hstop, rfl⟩ := takes_of_build h
    have hbalanced := balanced_of_trace hstop htakes
    have hanswers := (Bounded.after _ (fun _ => bounded_start path) hbalanced).2
    obtain ⟨hk, hi⟩ := (kept_start path).after _ (indexed_start path) hanswers
    rw [htakes.after_eq] at hk hi
    have ho := hk.owning.sound.owned
    have htidy := hbuilt.tidy ho hk.root hi
    exact ⟨.of_indexed htidy.owned htidy.root htidy.indexed, fun s x hx => hlinked.below ho hx⟩

/-- A function whose body is absorbed, and an end of a function that is turned down. -/
def doubleEnd : List Call :=
  [.event ⟨.typeWord, 3, "int", none⟩, .event ⟨.declaratorName, 5, "f", none⟩, .event ⟨.functionHeader, 7, "", none⟩,
    .event ⟨.scopeStart, 9, "", none⟩, .event ⟨.emptyStatement, 10, "", none⟩, .event ⟨.scopeEnd, 11, "", none⟩,
    .event ⟨.functionEnd, 11, "", none⟩, .event ⟨.functionEnd, 12, "", none⟩, .event ⟨.unitEnd, 12, "", none⟩]

/-- A condition behind a body, the three parts of a header and a deferred statement that is copied. -/
def looping : List UInt8 :=
  Utf8.encode "int f(int n)\x7bdefer g(n);do n=-n;while(n<0);for(n=0;n<9;n++)return a[n];\x7d"

set_option maxRecDepth 100000 in
theorem single_ownership_looping :
    (start []).answers doubleEnd = [none, none, none, none, none, none, none,
      some (.fault (.unbalancedScope .functionEnd (.construct .unit) 12)),
      some (.fault (.unbalancedScope .functionEnd (.construct .unit) 12))] ∧
    (start []).absorbedAfter [] doubleEnd = [⟨3⟩] ∧
    ((start []).after doubleEnd).tree.Kempt ((start []).absorbedAfter [] doubleEnd) ∧
    ∃ t, ((start []).build looping).1 = .ok t ∧ (resolve t).tree.size = 43 ∧
      (resolve t).tree.Kempt ((start []).absorbedAfter [] ((trace looping).events.toList.map .event)) ∧
      ∀ s, ∀ x ∈ (t.construct s).named, Relation.TransGen (fun u p => t.parent? u = some p) x s := by
  have hanswers : (start []).answers doubleEnd = [none, none, none, none, none, none, none,
      some (.fault (.unbalancedScope .functionEnd (.construct .unit) 12)),
      some (.fault (.unbalancedScope .functionEnd (.construct .unit) 12))] := by decide +kernel
  obtain ⟨t, ht, hsize⟩ := exists_tree_of_check [] looping (fun t => (resolve t).tree.size == 43) (by decide +kernel)
  obtain ⟨hcalls, hsource⟩ := single_ownership []
  refine ⟨hanswers, by decide +kernel, (hcalls doubleEnd ?_).1, t, ht, by simpa using hsize, hsource looping t ht⟩
  rw [hanswers]
  rintro halt hm
  exact ⟨_, by simpa using hm⟩

end Assembly

end Deferral
