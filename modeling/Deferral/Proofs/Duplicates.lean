import Deferral.Proofs.SingleOwnership
import Deferral.Proofs.Unfolding

/-!
# Copies of the parts of a built tree

A copy of any part of the tree of a source is a part of the same shape in new slots, and all nodes that were there are
as they were. What a construct in the copy names is in the copy as well (`Tree.Copied`), except for the parameters of a
function. They hang below no node, so they are not copied, and the copy has those of the original
(`Assembly.copied_of_build`).
-/

namespace Deferral

open List

theorem Construct.named_mapSlots (rename : Slot → Slot) (c : Construct) :
    (c.mapSlots rename).named = c.named.map rename := by
  cases c <;> simp [named, operands, parts, mapSlots, Option.toList_map]

theorem Construct.params_mapSlots (rename : Slot → Slot) (c : Construct) : (c.mapSlots rename).params = c.params := by
  cases c <;> rfl

namespace Tree

open Forest

variable {t : Tree} {s u c : Slot} {p? : Option Slot} {f : Forest Entry}

/-- `t'` is `t` and a copy of what is at `s`, which is at `root`; `rename` gives the copy of a node. -/
structure Copied (t : Tree) (s root : Slot) (t' : Tree) (rename : Slot → Slot) : Prop where
  old : ∀ u : Slot, u.index < t.size → t'.node u = t.node u
  top : root = rename s
  subtree : t'.subtree root = (t.subtree s).map rename
  nodup : (t'.subtree root).Nodup
  new : ∀ v : Slot, v ∈ t'.subtree root ↔ t.size ≤ v.index ∧ v.index < t'.size
  node : ∀ u ∈ t.subtree s, t'.node (rename u) = t.copyOf s rename u
  named : ∀ v ∈ t'.subtree root, ∀ x ∈ (t'.construct v).named, x ∈ t'.subtree root
  params : ∀ u ∈ t.subtree s, (t'.construct (rename u)).params = (t.construct u).params

theorem Holds.mem_slots_of_child (h : t.Holds p? f) (hu : u ∈ f.slots) (hc : c ∈ t.children u) : c ∈ f.slots := by
  induction f generalizing p? with
  | nil => cases hu
  | node e b r ihb ihr =>
    rw [slots_node, mem_cons, mem_append] at hu ⊢
    rcases hu with rfl | hu | hu
    · rw [h.children_eq] at hc
      exact .inr (.inl (rootSlots_subset hc))
    · exact .inr (.inl (ihb h.2.1 hu))
    · exact .inr (.inr (ihr h.2.2 hu))

theorem Owned.exists_tree (h : t.Owned) (hs : s.index < t.size) : ∃ b, t.Holds (t.parent? s) (tree ⟨s, t.node s⟩ b) ∧
    (tree ⟨s, t.node s⟩ b).slots.Nodup ∧ (tree ⟨s, t.node s⟩ b).members.length ≤ t.size := by
  have hl : ∀ u ∈ [s], u.index < t.size ∧ t.parent? u = t.parent? s := by simpa using hs
  obtain ⟨m, hm⟩ : ∃ m, t.size = m + 1 := ⟨t.size - 1, by omega⟩
  have hgrow : t.grow t.size [s] = tree ⟨s, t.node s⟩ (t.grow m (t.children s)) := by rw [hm, grow_cons, grow_nil]; rfl
  have hnd : (t.grow t.size [s]).slots.Nodup := h.nodup_grow hl (by simp)
  have hlen := length_le_size hnd fun u hu => (h.leads_of_mem_grow (fun v hv => (hl v hv).1) hu).1
  have hholds := h.holds_grow hl (n := t.size) ⟨.nil, by simp, by simp, le_rfl⟩
  rw [hgrow] at hnd hlen hholds
  exact ⟨_, hholds, hnd, by simpa [slots] using hlen⟩

/-- Where everything that is named is below the node that names it, copies are as they should be. -/
theorem Owned.copied (h : t.Owned) (hlinked : t.Linked fun _ _ => False) (hs : s.index < t.size) :
    t.Copied s (t.copy s).1 (t.copy s).2 (Slot.renamed t.size (t.subtree s)) := by
  obtain ⟨b, hholds, hnd, hlen⟩ := h.exists_tree hs
  have hsub : t.subtree s = (tree ⟨s, t.node s⟩ b).slots := subtree_eq_slots hholds hlen
  have hsize : (t.copy s).2.size = t.size + (t.subtree s).length := size_copy s
  have hnd' : (t.subtree s).Nodup := hsub ▸ hnd
  -- The copies are in the new slots, in order.
  have hnew : (t.subtree s).map (Slot.renamed t.size (t.subtree s)) =
      (List.range (t.subtree s).length).map fun i => ⟨t.size + i⟩ := Slot.map_renamed hnd'
  have hroot : (t.copy s).1 = Slot.renamed t.size (t.subtree s) s := by
    rw [hsub, slots_tree]
    simp [Slot.renamed, idxOf?_cons, copy_eq]
  have hcopy : (t.copy s).2.subtree (t.copy s).1 = (t.subtree s).map (Slot.renamed t.size (t.subtree s)) := by
    have hstands := Stands.copy hholds hnd hlen
    have hslots := subtree_eq_slots (e := .copied _ ⟨s, t.node s⟩) hstands.holds (by
      rw [hsize, hsub]
      simp [Forest.slots])
    rw [hroot, hsub, ← slots_copied]
    exact hslots
  have hnode : ∀ u ∈ t.subtree s, _ := fun u hu => node_copy_new hnd' hu
  refine ⟨fun u hu => node_copy_old hu, hroot, hcopy, ?_, fun v => ?_, hnode, ?_, fun u hu => ?_⟩
  · rw [hcopy, hnew]
    exact nodup_range.map fun i j hij => by simpa using hij
  · rw [hcopy, hnew, hsize, mem_map]
    constructor
    · rintro ⟨i, hi, rfl⟩
      have := mem_range.1 hi
      exact ⟨Nat.le_add_right .., Nat.add_lt_add_left this _⟩
    · rintro ⟨hle, hlt⟩
      refine ⟨v.index - t.size, mem_range.2 (by omega), ?_⟩
      rw [Nat.add_sub_cancel' hle]
  · rw [hcopy]
    intro v hv x hx
    obtain ⟨u, hu, rfl⟩ := mem_map.1 hv
    rw [Tree.construct, hnode u hu, copyOf, Construct.named_mapSlots] at hx
    obtain ⟨y, hy, rfl⟩ := mem_map.1 hx
    refine mem_map_of_mem ?_
    rw [hsub] at hu ⊢
    rcases mem_append.1 hy with hy | hy
    · exact hholds.mem_slots_of_child hu ((hlinked.operand hy).resolve_right id)
    · obtain ⟨g, -, hyg, hgu⟩ := hlinked.part hy
      exact hholds.mem_slots_of_child (hholds.mem_slots_of_child hu (hgu.resolve_right id)) hyg
  · rw [Tree.construct, hnode u hu]
    exact Construct.params_mapSlots _ _

end Tree

namespace Assembly

open Tree Firing Grammar

variable {path : Path} {source : List UInt8} {t : Tree}

theorem isOwned_of_build (h : ((start path).build source).1 = .ok t) : t.Owned := by
  obtain ⟨a, htakes, hstop, rfl⟩ := takes_of_build h
  have hbalanced := balanced_of_trace hstop htakes
  have hanswers := (Bounded.after _ (fun _ => bounded_start path) hbalanced).2
  have hk := ((kept_start path).after _ (indexed_start path) hanswers).1
  rw [htakes.after_eq] at hk
  exact hk.owning.sound.owned

/-- **Copies stand by themselves, but for parameters.** Copying any part of the tree of a source fills new slots with
nodes of the same shape and text, clean and without requests, and leaves all other nodes alone. The root of the copy has
no parent, and what a construct in it names is in the copy. Only the parameters of a copied function are those of the
original. -/
theorem copied_of_build (h : ((start path).build source).1 = .ok t) {s : Slot} (hs : s.index < t.size) :
    t.Copied s (t.copy s).1 (t.copy s).2 (Slot.renamed t.size (t.subtree s)) :=
  (isOwned_of_build h).copied (linked_of_build h) hs

/-- A function with a parameter. -/
def oneParameter : List UInt8 := Utf8.encode "int f(int n)\x7b\x7d"

set_option maxRecDepth 100000 in
/-- A copied function has a parameter that is not in the copy. -/
theorem not_all_in_copy_oneParameter : ∃ t, ((start []).build oneParameter).1 = .ok t ∧
    ¬∀ s, s.index < t.size → ∀ v ∈ (t.copy s).2.subtree (t.copy s).1, ∀ x ∈ ((t.copy s).2.construct v).params,
      x ∈ (t.copy s).2.subtree (t.copy s).1 := by
  obtain ⟨t, ht, hcheck⟩ := exists_tree_of_check [] oneParameter (fun t => decide (3 < t.size) &&
    ((t.copy ⟨3⟩).2.construct ⟨5⟩).params.contains ⟨2⟩ && ((t.copy ⟨3⟩).2.subtree (t.copy ⟨3⟩).1).contains ⟨5⟩ &&
    !((t.copy ⟨3⟩).2.subtree (t.copy ⟨3⟩).1).contains ⟨2⟩) (by decide +kernel)
  simp only [Bool.and_eq_true, decide_eq_true_eq, contains_iff_mem, Bool.not_eq_true',
    Bool.eq_false_iff, ne_eq] at hcheck
  obtain ⟨⟨⟨hsize, hparam⟩, hcopy⟩, hout⟩ := hcheck
  exact ⟨t, ht, fun hall => hout (hall ⟨3⟩ hsize ⟨5⟩ hcopy ⟨2⟩ hparam)⟩

/-- A function with a parameter that calls another with it. -/
def oneCall : List UInt8 := Utf8.encode "int f(int n)\x7bg(n);\x7d"

set_option maxRecDepth 100000 in
/-- The function, the call and its two operands are copied to the four slots after those of the tree. -/
theorem copied_oneCall : ∃ t, ((start []).build oneCall).1 = .ok t ∧ t.size = 8 ∧ t.subtree ⟨3⟩ = [⟨3⟩, ⟨7⟩, ⟨5⟩, ⟨6⟩] ∧
    (t.copy ⟨3⟩).2.subtree (t.copy ⟨3⟩).1 = [⟨8⟩, ⟨9⟩, ⟨10⟩, ⟨11⟩] ∧
    t.Copied ⟨3⟩ (t.copy ⟨3⟩).1 (t.copy ⟨3⟩).2 (Slot.renamed 8 [⟨3⟩, ⟨7⟩, ⟨5⟩, ⟨6⟩]) := by
  obtain ⟨t, ht, hcheck⟩ := exists_tree_of_check [] oneCall (fun t => decide (t.size = 8 ∧
    t.subtree ⟨3⟩ = [⟨3⟩, ⟨7⟩, ⟨5⟩, ⟨6⟩] ∧
      (t.copy ⟨3⟩).2.subtree (t.copy ⟨3⟩).1 = [⟨8⟩, ⟨9⟩, ⟨10⟩, ⟨11⟩])) (by decide +kernel)
  obtain ⟨hsize, hsubtree, hcopy⟩ := of_decide_eq_true hcheck
  have hcopied := copied_of_build ht (s := ⟨3⟩) (by rw [hsize]; decide)
  rw [hsize, hsubtree] at hcopied
  exact ⟨t, ht, hsize, hsubtree, hcopy, hcopied⟩

end Assembly

end Deferral
