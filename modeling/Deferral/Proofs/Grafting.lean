import Deferral.Proofs.Held

/-!
# Changes to a held forest

What the operations on a tree do to the forest that it holds: a new node is a new tree at the end, a change of one node
changes one member, and attaching a child moves its tree below the parent. In each case the rest of the forest is as
it was (`Tree.Stands.replace`).
-/

namespace Deferral.Tree

open Forest
open List hiding append_assoc

variable {t t' : Tree} {p? : Option Slot} {low : Nat} {e c : Entry} {b d f g m m' : Forest Entry}

/-! ## What is left alone -/

/-- Nothing below `low` has changed, and no slot is lost. -/
structure SameBelow (low : Nat) (t t' : Tree) : Prop where
  size : t.size ≤ t'.size
  nodes : ∀ s : Slot, s.index < low → t'.node s = t.node s

namespace SameBelow

theorem refl (low : Nat) (t : Tree) : SameBelow low t t := ⟨Nat.le_refl _, fun _ _ => rfl⟩

theorem trans {t'' : Tree} (h : SameBelow low t t') (h' : SameBelow low t' t'') : SameBelow low t t'' :=
  ⟨Nat.le_trans h.size h'.size, fun s hs => (h'.nodes s hs).trans (h.nodes s hs)⟩

theorem mono {low' : Nat} (h : SameBelow low t t') (hl : low' ≤ low) : SameBelow low' t t' :=
  ⟨h.size, fun s hs => h.nodes s (Nat.lt_of_lt_of_le hs hl)⟩

theorem modify {s : Slot} (change : Node → Node) (h : low ≤ s.index) : SameBelow low t (t.modify s change) :=
  ⟨by simp, fun u hu => node_modify_ne fun hus => by subst hus; omega⟩

theorem push (construct : Construct) (span : Span) (h : low ≤ t.size) :
    SameBelow low t (t.push construct span).2 :=
  ⟨by simp, fun _ hs => node_push_old (Nat.lt_of_lt_of_le hs h)⟩

theorem attach {s u : Slot} (hs : low ≤ s.index) (hu : low ≤ u.index) : SameBelow low t (t.attach s u) :=
  (modify _ hu).trans (modify _ hs)

end SameBelow

/-! ## One part changes -/

/-- A part of the forest may be held in another form, in some of the same slots, if all else is left alone. -/
theorem Stands.replace (h : t.Stands p? low (f ++ (m ++ g))) (hm : t'.Holds p? m') (hnd' : m'.slots.Nodup)
    (hs : m'.slots ⊆ m.slots) (hsize : t.size ≤ t'.size)
    (hout : ∀ s, s ∉ m.slots → s.index < t.size → t'.node s = t.node s) : t'.Stands p? low (f ++ (m' ++ g)) := by
  have hbound := h.bound
  have hnd := h.nodup
  simp only [slots_append, nodup_append, mem_append] at hnd hbound
  obtain ⟨hndf, ⟨-, hndg, hmg⟩, hfmg⟩ := hnd
  obtain ⟨hf', -, hg'⟩ := (holds_append.1 h.holds).imp_right holds_append.1
  refine ⟨holds_append.2 ⟨hf'.congr fun s hs => ?_, holds_append.2 ⟨hm, hg'.congr fun s hs => ?_⟩⟩, ?_, fun s hs' => ?_⟩
  · exact hout s (fun hsm => hfmg s hs s (.inl hsm) rfl) (hbound s (.inl hs)).2
  · exact hout s (fun hsm => hmg s hsm s hs rfl) (hbound s (.inr (.inr hs))).2
  · simp only [slots_append, nodup_append, mem_append]
    exact ⟨hndf, ⟨hnd', hndg, fun s hsm => hmg s (hs hsm)⟩, fun s hsf u hu => hfmg s hsf u (hu.imp_left (hs ·))⟩
  · simp only [slots_append, mem_append] at hs'
    have := hbound s (hs'.imp_right fun h => h.imp_left (hs ·))
    omega

theorem Stands.replace_head (h : t.Stands p? low (m ++ g)) (hm : t'.Holds p? m') (hnd : m'.slots.Nodup)
    (hs : m'.slots ⊆ m.slots) (hsize : t.size ≤ t'.size)
    (hout : ∀ s, s ∉ m.slots → s.index < t.size → t'.node s = t.node s) : t'.Stands p? low (m' ++ g) :=
  Stands.replace (f := .nil) h hm hnd hs hsize hout

theorem Stands.swap (h : t.Stands p? low (f ++ (m ++ (g ++ d)))) : t.Stands p? low (f ++ (g ++ (m ++ d))) := by
  obtain ⟨hf, hm, hg, hd⟩ := (holds_append.1 h.holds).imp_right fun h => (holds_append.1 h).imp_right holds_append.1
  have hperm : (f ++ (g ++ (m ++ d))).slots.Perm (f ++ (m ++ (g ++ d))).slots := by
    simp only [slots_append]
    refine List.Perm.append_left _ ?_
    rw [← List.append_assoc, ← List.append_assoc]
    exact perm_append_comm.append_right _
  exact ⟨holds_append.2 ⟨hf, holds_append.2 ⟨hg, holds_append.2 ⟨hm, hd⟩⟩⟩, hperm.nodup_iff.2 h.nodup,
    fun s hs => h.bound s (hperm.mem_iff.1 hs)⟩

theorem Stands.left (h : t.Stands p? low (f ++ g)) : t.Stands p? low f :=
  ⟨(holds_append.1 h.holds).1, (nodup_append.1 (slots_append f g ▸ h.nodup)).1,
    fun s hs => h.bound s (by simp [hs])⟩

theorem Stands.right (h : t.Stands p? low (f ++ g)) : t.Stands p? low g :=
  ⟨(holds_append.1 h.holds).2, (nodup_append.1 (slots_append f g ▸ h.nodup)).2.1,
    fun s hs => h.bound s (by simp [hs])⟩

theorem Stands.congr (h : t.Stands p? low f) (hsize : t.size ≤ t'.size)
    (hn : ∀ s ∈ f.slots, t'.node s = t.node s) : t'.Stands p? low f :=
  ⟨h.holds.congr hn, h.nodup, fun s hs => by have := h.bound s hs; omega⟩

theorem Stands.append (mid : Nat) (hf : t.Stands p? low f) (hg : t.Stands p? mid g) (hlow : low ≤ mid)
    (hmid : ∀ s ∈ f.slots, s.index < mid) : t.Stands p? low (f ++ g) := by
  refine ⟨holds_append.2 ⟨hf.holds, hg.holds⟩, ?_, fun s hs => ?_⟩
  · rw [slots_append]
    refine nodup_append.2 ⟨hf.nodup, hg.nodup, ?_⟩
    rintro s hs u hu rfl
    have := hmid s hs
    have := hg.bound s hu
    omega
  · rw [slots_append, mem_append] at hs
    rcases hs with hs | hs
    · exact hf.bound s hs
    · have := hg.bound s hs
      omega

/-! ## New nodes -/

theorem Stands.push (h : t.Stands none low f) (hlow : low ≤ t.size) (construct : Construct) (span : Span) :
    (t.push construct span).2.Stands none low (f ++ tree (.fresh ⟨t.size⟩ construct span) nil) := by
  have hf : (t.push construct span).2.Stands none low f :=
    h.congr (by simp) fun s hs => node_push_old (h.bound s hs).2
  refine hf.append t.size ⟨?_, by simp, by simp [Entry.fresh]⟩ hlow fun s hs => (h.bound s hs).2
  exact holds_tree.2 ⟨by rw [Entry.fresh, node_push_self]; rfl, trivial⟩

/-! ## Changes of one node -/

theorem Holds.modify_root (change : Node → Node) (h : t.Holds p? (tree e b)) (hs : e.slot.index < t.size)
    (hb : e.slot ∉ b.slots)
    (hc : ∀ cs q?, change (e.linked cs q?) = (⟨e.slot, change e.node⟩ : Entry).linked cs q?) :
    (t.modify e.slot change).Holds p? (tree ⟨e.slot, change e.node⟩ b) := by
  obtain ⟨he, hb'⟩ := holds_tree.1 h
  refine holds_tree.2 ⟨?_, hb'.congr fun s hs => node_modify_ne fun hse => hb (hse ▸ hs)⟩
  rw [node_modify_self hs, he, hc]

theorem Stands.modify_root (change : Node → Node) (h : t.Stands p? low (f ++ (tree e b ++ g)))
    (hc : ∀ cs q?, change (e.linked cs q?) = (⟨e.slot, change e.node⟩ : Entry).linked cs q?) :
    (t.modify e.slot change).Stands p? low (f ++ (tree ⟨e.slot, change e.node⟩ b ++ g)) := by
  have hm := (h.right).left
  have hnd : e.slot ∉ b.slots := (nodup_cons.1 (slots_tree e b ▸ hm.nodup)).1
  refine h.replace (hm.holds.modify_root change (hm.bound _ (by simp)).2 hnd hc) (by simpa using hm.nodup) (by simp)
    (by simp) fun s hs _ => ?_
  exact node_modify_ne fun hse => hs (by simp [hse])

theorem Stands.setSpan (h : t.Stands p? low (f ++ (tree e b ++ g))) (he : e.Plain) (span : Span) :
    (t.setSpan e.slot span).Stands p? low (f ++ (tree (.fresh e.slot e.node.construct span) b ++ g)) := by
  obtain ⟨s, c, sp, rfl⟩ := he.exists_fresh
  exact h.modify_root ({ · with span := span }) fun _ _ => rfl

theorem Stands.setConstruct (h : t.Stands p? low (f ++ (tree e b ++ g))) (he : e.Plain) (construct : Construct) :
    (t.setConstruct e.slot construct).Stands p? low (f ++ (tree (.fresh e.slot construct e.node.span) b ++ g)) := by
  obtain ⟨s, c, sp, rfl⟩ := he.exists_fresh
  exact h.modify_root ({ · with construct := construct }) fun _ _ => rfl

/-! ## Children -/

theorem size_attach (t : Tree) (s u : Slot) : (t.attach s u).size = t.size := by simp [attach]

theorem node_attach_ne {s u v : Slot} (hs : v ≠ s) (hu : v ≠ u) : (t.attach s u).node v = t.node v := by
  rw [attach, node_modify_ne hs, node_modify_ne hu]

theorem Holds.attach (he : t.Holds p? (tree e b)) (hc : t.Holds none (tree c d))
    (hnd : (tree e b ++ tree c d).slots.Nodup) (hs : e.slot.index < t.size) (hcs : c.slot.index < t.size) :
    (t.attach e.slot c.slot).Holds p? (tree e (b ++ tree c d)) := by
  simp only [slots_append, slots_tree, cons_append, nodup_cons, mem_append, mem_cons, not_or,
    nodup_append] at hnd
  obtain ⟨⟨heb, hec, hed⟩, -, ⟨hcd, -⟩, hbc⟩ := hnd
  obtain ⟨he₁, he₂⟩ := holds_tree.1 he
  obtain ⟨hc₁, hc₂⟩ := holds_tree.1 hc
  refine holds_tree.2 ⟨?_, holds_append.2 ⟨he₂.congr fun s hs => ?_, holds_tree.2 ⟨?_, hc₂.congr fun s hs => ?_⟩⟩⟩
  · rw [Tree.attach, node_modify_self (by simpa using hs), node_modify_ne hec, he₁]
    simp [Entry.linked]
  · exact node_attach_ne (fun h => heb (h ▸ hs)) fun h => hbc s hs c.slot (.inl rfl) h
  · rw [Tree.attach, node_modify_ne (Ne.symm hec), node_modify_self hcs, hc₁]
    rfl
  · exact node_attach_ne (fun h => hed (h ▸ hs)) fun h => hcd (h ▸ hs)

theorem Stands.attach (h : t.Stands none low (f ++ (tree e b ++ (tree c d ++ g)))) :
    (t.attach e.slot c.slot).Stands none low (f ++ (tree e (b ++ tree c d) ++ g)) := by
  rw [← append_assoc (tree e b)] at h
  have hm := h.right.left
  obtain ⟨he, hc⟩ := holds_append.1 hm.holds
  refine h.replace (he.attach hc hm.nodup (hm.bound _ (by simp)).2 (hm.bound _ (by simp)).2)
    (by simpa using hm.nodup) (by simp) (Nat.le_of_eq (size_attach ..).symm) fun s hs _ => ?_
  simp only [slots_append, slots_tree, cons_append, mem_cons, mem_append, not_or] at hs
  exact node_attach_ne hs.1 hs.2.2.1

/-- Makes the slots children of `s`, in order. -/
def attachAll (t : Tree) (s : Slot) (children : List Slot) : Tree := children.foldl (·.attach s ·) t

theorem SameBelow.attachAll {s : Slot} (hs : low ≤ s.index) : ∀ {children : List Slot} {t : Tree},
    (∀ u ∈ children, low ≤ u.index) → SameBelow low t (t.attachAll s children)
  | [], t, _ => .refl low t
  | _ :: _, _, h =>
    (SameBelow.attach hs (h _ mem_cons_self)).trans
      (SameBelow.attachAll hs fun u hu => h u (mem_cons_of_mem _ hu))

theorem Stands.attachAll : ∀ {m b : Forest Entry} {t : Tree}, t.Stands none low (f ++ (tree e b ++ (m ++ g))) →
    (t.attachAll e.slot m.rootSlots).Stands none low (f ++ (tree e (b ++ m) ++ g))
  | .nil, b, t, h => by simpa [Tree.attachAll] using h
  | .node c d r, b, t, h => by
    have h' := Stands.attachAll (m := r) (Stands.attach (d := d) h)
    rwa [append_assoc] at h'

/-! ## One level further down -/

variable {x : Entry} {k : Forest Entry}

theorem Stands.modify_child (change : Node → Node) (h : t.Stands p? low (tree e (tree c d) ++ g))
    (hc : ∀ cs q?, change (c.linked cs q?) = (⟨c.slot, change c.node⟩ : Entry).linked cs q?) :
    (t.modify c.slot change).Stands p? low (tree e (tree ⟨c.slot, change c.node⟩ d) ++ g) := by
  have hm := h.left
  have hnd := hm.nodup
  simp only [slots_tree, nodup_cons, mem_cons, not_or] at hnd
  obtain ⟨⟨hec, -⟩, hcd, -⟩ := hnd
  obtain ⟨he, hcd'⟩ := holds_tree.1 hm.holds
  refine h.replace_head ?_ (by simpa using hm.nodup) (by simp) (by simp) fun s hs _ => ?_
  · refine holds_tree.2 ⟨?_, hcd'.modify_root change (hm.bound _ (by simp)).2 hcd hc⟩
    rw [node_modify_ne hec, he]
    rfl
  · exact node_modify_ne fun hsc => hs (by simp [hsc])

theorem Stands.setSpan_child (h : t.Stands p? low (tree e (tree c d) ++ g)) (hp : c.Plain) (span : Span) :
    (t.setSpan c.slot span).Stands p? low (tree e (tree (.fresh c.slot c.node.construct span) d) ++ g) := by
  obtain ⟨s, construct, span', rfl⟩ := hp.exists_fresh
  exact h.modify_child ({ · with span := span }) fun _ _ => rfl

/-- The next tree of the forest becomes the last below the only child of `e`. -/
theorem Stands.attach_child (h : t.Stands none low (tree e (tree c d) ++ (tree x k ++ g))) :
    (t.attach c.slot x.slot).Stands none low (tree e (tree c (d ++ tree x k)) ++ g) := by
  rw [← append_assoc] at h
  have hm := h.left
  obtain ⟨he, hx⟩ := holds_append.1 hm.holds
  obtain ⟨he₁, he₂⟩ := holds_tree.1 he
  have hnd := hm.nodup
  have hcx : (tree c d ++ tree x k).slots.Nodup := by
    simp only [slots_append, slots_tree, cons_append, nodup_cons] at hnd ⊢
    exact hnd.2
  simp only [slots_append, slots_tree, cons_append, nodup_cons, mem_cons, mem_append, not_or] at hnd
  obtain ⟨⟨hec, -, hex, -⟩, -⟩ := hnd
  refine h.replace_head ?_ (by simpa using hm.nodup) (by simp) (Nat.le_of_eq (size_attach ..).symm) fun s hs _ => ?_
  · refine holds_tree.2 ⟨?_, he₂.attach hx hcx (hm.bound _ (by simp)).2 (hm.bound _ (by simp)).2⟩
    rw [node_attach_ne hec hex, he₁]
    rfl
  · simp only [slots_append, slots_tree, cons_append, mem_cons, mem_append, not_or] at hs
    exact node_attach_ne hs.2.1 hs.2.2.2.1

end Deferral.Tree
