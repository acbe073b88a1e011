import Deferral.Proofs.Absorbing

/-!
# Trees put among the children of a node

`Forest.Grafted` says that one forest is another one with a tree put in below a node, at any depth. A tree in slots in
which a lone tree becomes a child of that node holds the forest so changed (`Tree.Stands.graft`).
-/

namespace Deferral

namespace Forest

/-- The second forest has `c` between `l` and `r`, which are all that is below `q` in the first one. -/
inductive Grafted (q : Slot) (l c r : Forest Entry) : Forest Entry → Forest Entry → Prop
  | here {e : Entry} (s : Forest Entry) (h : e.slot = q) :
    Grafted q l c r (node e (l ++ r) s) (node e (l ++ (c ++ r)) s)
  | inside (e : Entry) {b b' : Forest Entry} (s : Forest Entry) (h : Grafted q l c r b b') :
    Grafted q l c r (node e b s) (node e b' s)
  | beside (e : Entry) (b : Forest Entry) {s s' : Forest Entry} (h : Grafted q l c r s s') :
    Grafted q l c r (node e b s) (node e b s')

namespace Grafted

variable {q : Slot} {l c r f f' : Forest Entry}

section

variable (h : Grafted q l c r f f')
include h

theorem append_left (x : Forest Entry) : Grafted q l c r (x ++ f) (x ++ f') := by
  induction x with
  | nil => exact h
  | node e b s _ ih => exact .beside e b ih

theorem append_right (y : Forest Entry) : Grafted q l c r (f ++ y) (f' ++ y) := by
  induction h with
  | here s h => exact .here (s ++ y) h
  | inside e s h => exact .inside e (s ++ y) h
  | beside e b _ ih => exact .beside e b ih

theorem mem_slots : q ∈ f.slots := by
  induction h with
  | here s h => simp [h]
  | inside e s _ ih => simp [ih]
  | beside e b _ ih => simp [ih]

theorem rootSlots_eq : f'.rootSlots = f.rootSlots := by
  induction h with
  | here | inside => rfl
  | beside e b _ ih => simp [ih]

theorem slots_perm : f'.slots.Perm (f ++ c).slots := by
  induction h with
  | here s h =>
    simp only [slots_append, slots_node, List.append_assoc, List.cons_append]
    refine ((List.Perm.append_left _ ?_).cons _)
    exact List.perm_append_comm.trans (by simp)
  | inside e s _ ih =>
    simp only [slots_append, slots_node, List.append_assoc, List.cons_append] at ih ⊢
    exact ((ih.append_right _).trans (by simpa using List.perm_append_comm.append_left _)).cons _
  | beside e b _ ih =>
    simp only [slots_append, slots_node, List.append_assoc, List.cons_append] at ih ⊢
    exact (ih.append_left _).cons _

theorem sublist : (l ++ r).slots.Sublist f.slots := by
  induction h with
  | here s h =>
    rw [slots_node]
    exact (List.sublist_append_left ..).cons _
  | inside e s _ ih =>
    rw [slots_node]
    exact (ih.trans (List.sublist_append_left ..)).cons _
  | beside e b _ ih =>
    rw [slots_node]
    exact (ih.trans (List.sublist_append_right ..)).cons _

theorem parent_eq {t : Tree} {p? : Option Slot} {s : Slot} (hf : t.Holds p? f)
    (hs : s ∈ (l ++ r).rootSlots) : t.parent? s = some q := by
  induction h generalizing p? with
  | here _ h => exact h ▸ hf.2.1.parent_root hs
  | inside e s _ ih => exact ih hf.2.1
  | beside e b _ ih => exact ih hf.2.2

end

theorem children_eq {t : Tree} {p? : Option Slot} (h : Grafted q l c r f f') (hf : t.Holds p? f) :
    t.children q = (l ++ r).rootSlots := by
  induction h generalizing p? with
  | here _ h => exact h ▸ hf.children_eq
  | inside e s _ ih => exact ih hf.2.1
  | beside e b _ ih => exact ih hf.2.2

end Grafted

end Forest

namespace Tree

open Forest

variable {t t' : Tree} {p? : Option Slot} {low : Nat} {q : Slot} {l c r f f' : Forest Entry}

/-- A lone tree becomes a child: the parent has one child more, the tree has a parent, and nothing else is changed. -/
structure Adopts (t t' : Tree) (q : Slot) (children : List Slot) (c : Forest Entry) : Prop where
  parent : t'.node q = { t.node q with children := children }
  child : ∀ s ∈ c.rootSlots, t'.node s = { t.node s with parent? := some q }
  other : ∀ s, s ≠ q → s ∉ c.rootSlots → t'.node s = t.node s

theorem Holds.graft (h : Grafted q l c r f f') (ha : t.Adopts t' q (l ++ (c ++ r)).rootSlots c) (hf : t.Holds p? f)
    (hc : t.Holds none c) (hnd : (f ++ c).slots.Nodup) : t'.Holds p? f' := by
  obtain ⟨hndf, hndc, hfc⟩ := List.nodup_append.1 (slots_append f c ▸ hnd)
  have hq : q ∉ c.slots := fun hqc => hfc q h.mem_slots q hqc rfl
  -- A part of the forest without the parent is as it was.
  have hsame : ∀ {x : Forest Entry} {x? : Option Slot}, (∀ s ∈ x.slots, s ∈ f.slots) → q ∉ x.slots → t.Holds x? x →
      t'.Holds x? x := by
    intro x x? hx hqx hold
    refine hold.congr fun s hs => ha.other s (fun hsq => hqx (hsq ▸ hs)) fun hsc => ?_
    exact hfc s (hx s hs) s (rootSlots_subset hsc) rfl
  clear hnd
  induction h generalizing p? with
  | @here e s he =>
    subst he
    obtain ⟨hn, hlr, hs⟩ := hf
    obtain ⟨hl, hr⟩ := holds_append.1 hlr
    simp only [slots_node, slots_append, List.nodup_cons, List.mem_append, not_or] at hndf
    obtain ⟨⟨⟨hql, hqr⟩, hqs⟩, -⟩ := hndf
    refine ⟨?_, holds_append.2 ⟨hsame (by simp +contextual) hql hl, holds_append.2 ⟨?_, ?_⟩⟩, ?_⟩
    · rw [ha.parent, hn]
      rfl
    · exact hc.reparent hndc ha.child fun s hs hroot => ha.other s (fun hsq => hq (hsq ▸ hs)) hroot
    · exact hsame (by simp +contextual) hqr hr
    · exact hsame (by simp +contextual) hqs hs
  | @inside e b b' s h ih =>
    obtain ⟨hn, hb, hs⟩ := hf
    simp only [slots_node, List.nodup_cons, List.mem_append, not_or, List.nodup_append] at hndf
    obtain ⟨⟨heb, -⟩, hndb, -, hbs⟩ := hndf
    have hqb := h.mem_slots
    refine ⟨?_, ih hb hndb (fun s hs => hfc s (by simp [hs])) fun hx => hsame fun s hs => by simp [hx s hs], ?_⟩
    · rw [h.rootSlots_eq, ha.other e.slot (fun heq => heb (heq ▸ hqb)), hn]
      exact fun hec => hfc e.slot (by simp) e.slot (rootSlots_subset hec) rfl
    · exact hsame (by simp +contextual) (fun hqs => hbs q hqb q hqs rfl) hs
  | @beside e b s s' h ih =>
    obtain ⟨hn, hb, hs⟩ := hf
    simp only [slots_node, List.nodup_cons, List.mem_append, not_or, List.nodup_append] at hndf
    obtain ⟨⟨-, hes⟩, -, hnds, hbs⟩ := hndf
    have hqs := h.mem_slots
    refine ⟨?_, ?_, ih hs hnds (fun s hs => hfc s (by simp [hs])) fun hx => hsame fun s hs => by simp [hx s hs]⟩
    · rw [ha.other e.slot (fun heq => hes (heq ▸ hqs)), hn]
      exact fun hec => hfc e.slot (by simp) e.slot (rootSlots_subset hec) rfl
    · exact hsame (by simp +contextual) (fun hqb => hbs q hqb q hqs rfl) hb

theorem Stands.graft (h : Grafted q l c r f f') (ha : t.Adopts t' q (l ++ (c ++ r)).rootSlots c)
    (hs : t.Stands none low (f ++ c)) (hsize : t.size ≤ t'.size) : t'.Stands none low f' := by
  obtain ⟨hf, hc⟩ := holds_append.1 hs.holds
  refine ⟨hf.graft h ha hc hs.nodup, h.slots_perm.nodup_iff.2 hs.nodup, fun s hm => ?_⟩
  have := hs.bound s (h.slots_perm.mem_iff.1 hm)
  omega

/-! ## At the end, and before a child -/

variable {x : Entry} {k : Forest Entry}

theorem adopts_attach {children : List Slot} (hq : q.index < t.size) (hx : x.slot.index < t.size) (hne : q ≠ x.slot)
    (hc : t.children q = children) : t.Adopts (t.attach q x.slot) q (children ++ [x.slot]) (tree x k) where
  parent := by
    rw [attach, node_modify_self (by simpa using hq), node_modify_ne hne, ← hc]
    rfl
  child s hs := by
    obtain rfl : s = x.slot := by simpa using hs
    rw [attach, node_modify_ne (Ne.symm hne), node_modify_self hx]
  other s hsq hsx := node_attach_ne hsq (by simpa using hsx)

theorem adopts_insertBefore {before after : List Slot} {anchor : Slot} (hq : q.index < t.size)
    (hx : x.slot.index < t.size) (hne : q ≠ x.slot) (hc : t.children q = before ++ anchor :: after)
    (ha : anchor ∉ before) :
    t.Adopts (t.insertBefore q anchor x.slot) q (before ++ x.slot :: anchor :: after) (tree x k) where
  parent := by
    have htake : (before ++ anchor :: after).takeWhile (· != anchor) = before := by
      have hne : ∀ s ∈ before, (s != anchor) = true := fun s hs => by
        rw [bne_iff_ne]
        rintro rfl
        exact ha hs
      rw [List.takeWhile_append_of_pos hne]
      simp
    have hc' : (t.node q).children = before ++ anchor :: after := hc
    rw [insertBefore, node_modify_self (by simpa using hq), node_modify_ne hne]
    simp [hc', htake]
  child s hs := by
    obtain rfl : s = x.slot := by simpa using hs
    rw [insertBefore, node_modify_ne (Ne.symm hne), node_modify_self hx]
  other s hsq hsx := by
    rw [insertBefore, node_modify_ne hsq, node_modify_ne (by simpa using hsx)]

end Tree

end Deferral
