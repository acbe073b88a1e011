import Deferral.Proofs.Grafting

/-!
# Copies of a tree

Copying a node puts everything below it, renamed, into new slots. The copy stands there by itself, as it was made
(`Tree.Stands.copy`), and all other slots are left alone.
-/

namespace Deferral

/-- The slot of a copy. Copies of `sources` are in the slots from `n` on, in order. -/
def Slot.renamed (n : Nat) (sources : List Slot) (u : Slot) : Slot :=
  ((sources.idxOf? u).map fun i => ⟨n + i⟩).getD u

section Renamed

variable {n : Nat} {sources : List Slot}

theorem Slot.renamed_getElem (h : sources.Nodup) {i : Nat} (hi : i < sources.length) :
    renamed n sources sources[i] = ⟨n + i⟩ := by
  have hidx : sources.idxOf? sources[i] = some i :=
    List.idxOf?_eq_some_iff.2 ⟨hi, rfl, fun j hj heq => by have := (h.getElem_inj_iff).1 heq; omega⟩
  simp [renamed, hidx]

theorem Slot.map_renamed (h : sources.Nodup) :
    sources.map (renamed n sources) = (List.range sources.length).map fun i => ⟨n + i⟩ := by
  refine List.ext_getElem (by simp) fun i hi _ => ?_
  rw [List.getElem_map, renamed_getElem h (by simpa using hi)]
  simp

end Renamed

theorem Construct.tag_mapSlots (c : Construct) (rename : Slot → Slot) : (c.mapSlots rename).tag = c.tag := by
  cases c <;> rfl

/-- The copy of an entry, as it is made. -/
def Entry.copied (rename : Slot → Slot) (e : Entry) : Entry :=
  .fresh (rename e.slot) (e.node.construct.mapSlots rename) e.node.span

theorem Forest.slots_copied (rename : Slot → Slot) (f : Forest Entry) :
    (f.map (.copied rename)).slots = f.slots.map rename := by
  simp only [slots, members_map, List.map_map]
  rfl

namespace Tree

open Forest

variable {t : Tree} {p? : Option Slot} {e : Entry} {b : Forest Entry}

/-- What is put in the slot of a copy. -/
def copyOf (t : Tree) (s : Slot) (rename : Slot → Slot) (u : Slot) : Node :=
  { construct := (t.node u).construct.mapSlots rename
    span := (t.node u).span
    children := (t.node u).children.map rename
    parent? := if u = s then none else (t.node u).parent?.map rename
    id := (rename u).index }

theorem copy_eq (t : Tree) (s : Slot) : t.copy s =
    let rename := Slot.renamed t.size (t.subtree s)
    (⟨t.size⟩, ⟨t.nodes ++ ((t.subtree s).map (t.copyOf s rename)).toArray,
      (t.subtree s).map (fun u => ((rename u).index, rename u)) ++ t.index⟩) := rfl

theorem size_copy (s : Slot) : (t.copy s).2.size = t.size + (t.subtree s).length := by
  simp [copy_eq, size]

theorem node_copy_old {s u : Slot} (h : u.index < t.size) : (t.copy s).2.node u = t.node u := by
  have h' : u.index < t.nodes.size := h
  simp [copy_eq, node, Array.getD_eq_getD_getElem?, Array.getElem?_append, h']

theorem node_copy_new {s u : Slot} (h : (t.subtree s).Nodup) (hu : u ∈ t.subtree s) :
    (t.copy s).2.node (Slot.renamed t.size (t.subtree s) u) =
      t.copyOf s (Slot.renamed t.size (t.subtree s)) u := by
  obtain ⟨i, hi, rfl⟩ := List.mem_iff_getElem.1 hu
  rw [Slot.renamed_getElem h hi]
  simp [copy_eq, node, size, Array.getD_eq_getD_getElem?, hi]

theorem holds_copy {s : Slot} (hnd : (t.subtree s).Nodup) {f : Forest Entry} (h : t.Holds p? f)
    (hs : s ∉ f.slots) (hf : ∀ u ∈ f.slots, u ∈ t.subtree s) :
    (t.copy s).2.Holds (p?.map (Slot.renamed t.size (t.subtree s)))
      (f.map (.copied (Slot.renamed t.size (t.subtree s)))) := by
  induction f generalizing p? with
  | nil => trivial
  | node e b r ihb ihr =>
    obtain ⟨he, hb, hr⟩ := h
    simp only [slots_node, List.mem_cons, List.mem_append, not_or] at hs hf
    refine ⟨?_, ihb hb hs.2.1 fun u hu => hf u (.inr (.inl hu)), ihr hr hs.2.2 fun u hu => hf u (.inr (.inr hu))⟩
    rw [Entry.copied, Entry.slot_fresh, node_copy_new hnd (hf _ (.inl rfl)), copyOf, he, if_neg (Ne.symm hs.1)]
    simp [Entry.linked, Entry.fresh, rootSlots, Entry.copied]

theorem Stands.copy (h : t.Holds p? (tree e b)) (hnd : (tree e b).slots.Nodup)
    (hn : (tree e b).members.length ≤ t.size) :
    (t.copy e.slot).2.Stands none t.size
      ((tree e b).map (.copied (Slot.renamed t.size (tree e b).slots))) := by
  have hsub := subtree_eq_slots h hn
  obtain ⟨he, hb⟩ := holds_tree.1 h
  have hnd' : (t.subtree e.slot).Nodup := hsub ▸ hnd
  have hroot : e.slot ∉ b.slots := (List.nodup_cons.1 (slots_tree e b ▸ hnd)).1
  have hslots : ((tree e b).map (.copied (Slot.renamed t.size (tree e b).slots))).slots =
      (List.range (tree e b).slots.length).map fun i => ⟨t.size + i⟩ := by
    rw [← Slot.map_renamed hnd, slots_copied]
  refine ⟨?_, ?_, fun s hs => ?_⟩
  · have hbelow := holds_copy hnd' hb hroot fun u hu => by rw [hsub]; simp [hu]
    have hself := node_copy_new hnd' (u := e.slot) (by rw [hsub]; simp)
    rw [hsub] at hbelow hself
    refine holds_tree.2 ⟨?_, hbelow⟩
    rw [Entry.copied, Entry.slot_fresh, hself, copyOf, he, if_pos rfl]
    simp [Entry.linked, Entry.fresh, rootSlots, Entry.copied]
  · rw [hslots]
    refine List.nodup_range.map fun i j hij => ?_
    simpa using hij
  · rw [hslots] at hs
    obtain ⟨i, hi, rfl⟩ := List.mem_map.1 hs
    rw [size_copy, hsub]
    have := List.mem_range.1 hi
    exact ⟨Nat.le_add_right .., Nat.add_lt_add_left this _⟩

end Tree

end Deferral
