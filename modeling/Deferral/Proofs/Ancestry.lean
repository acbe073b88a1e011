import Deferral.Proofs.Rendering

/-!
# Depths of ranges

The ranges of a tree are kept in a list, and only their depths tell which range is inside which. The depth of a range is
the number of collected nodes above its own, and the ranges after it, up to the first that is not deeper, are those of
the collected nodes below it (`Tree.ranges_of_collected`).
-/

namespace Deferral

open List

/-- Whether a node has a range of its own where all nodes above it stay. -/
def Node.shown (n : Node) : Bool :=
  !n.span.isEmpty || n.status == .added || n.status == .modified && n.replacement?.isSome

theorem Node.Stays.shown_eq {n : Node} (h : n.Stays) : n.shown = !n.span.isEmpty := by
  rcases h with h | ⟨h, hr⟩
  · rw [shown, h]
    cases n.span.isEmpty <;> rfl
  · rw [shown, h, hr]
    cases n.span.isEmpty <;> rfl

/-- A node that does not stay hides what is below it. -/
theorem Forest.collected_hiding {e : Entry} {b r : Forest Entry} (h : ¬e.node.Stays) :
    (node e b r).collected = (if e.node.shown then tree e nil else nil) ++ r.collected := by
  cases hs : e.node.status with
  | clean => exact absurd (.inl hs) h
  | added => simp [collected, Node.shown, hs]
  | removed => cases he : e.node.span.isEmpty <;> simp [collected, Node.shown, hs, he]
  | modified =>
    cases hr : e.node.replacement?.isSome with
    | false => exact absurd (.inr ⟨hs, hr⟩) h
    | true => simp [collected, Node.shown, hs, hr]

/-- Ranges that begin with one that is not below `r` change nothing about what is below it. -/
theorem Range.below_append_left {r : Range} {ys : List Range} (h : ∀ y ∈ ys.head?, y.depth ≤ r.depth)
    (xs : List Range) : r.below (xs ++ ys) = r.below xs := by
  rw [← below_append_beyond r xs, append_assoc]
  refine (below_append (fun x hx => depth_lt_of_mem_below hx) fun y hy => ?_).1.trans
    (below_append (fun x hx => depth_lt_of_mem_below hx) fun y hy => depth_le_of_head_beyond hy).1.symm
  cases hb : r.beyond xs with
  | nil => exact h y (by simpa [hb] using hy)
  | cons x rest =>
    have hy : y ∈ (r.beyond xs).head? := by simpa [hb] using hy
    exact depth_le_of_head_beyond hy

theorem suffix_append_cases {α : Type} {xs ys after : List α} {u : α} (h : u :: after <:+ xs ++ ys) :
    u :: after <:+ ys ∨ ∃ zs, u :: zs <:+ xs ∧ after = zs ++ ys := by
  obtain ⟨before, h⟩ := h
  rcases append_eq_append_iff.1 h with ⟨zs, hx, hu⟩ | ⟨zs, -, hy⟩
  · cases zs with
    | nil => exact .inl ⟨[], hu⟩
    | cons z zs =>
      obtain ⟨rfl, rfl⟩ := cons.inj hu
      exact .inr ⟨zs, ⟨before, hx.symm⟩, rfl⟩
  · exact .inl ⟨zs, hy.symm⟩

namespace Tree

open Forest Classical

variable {t : Tree} {p? : Option Slot} {e : Entry} {f b r : Forest Entry} {s u v : Slot} {k : Nat}

/-- `v` is `p?` or above it. -/
def Above (t : Tree) (p? : Option Slot) (v : Slot) : Prop := ∃ p, p? = some p ∧ t.Leads p v

/-- `v` is above `u`. -/
def Below (t : Tree) (u v : Slot) : Prop := t.Above (t.parent? u) v

/-- On a walk from `s` the node is collected: it has a range of its own, and as far as `s` all nodes above it stay. -/
def Collected (t : Tree) (s u : Slot) : Prop :=
  (t.node u).shown = true ∧ ∀ v ∈ t.subtree s, t.Below u v → (t.node v).Stays

/-- The nodes that are collected on a walk from `s`, in its order. -/
noncomputable def collectedFrom (t : Tree) (s : Slot) : List Slot := (t.subtree s).filter (t.Collected s ·)

/-- The range of a node, as deep as there are collected nodes above it. -/
noncomputable def rangeFrom (t : Tree) (s u : Slot) : Range :=
  (t.node u).range ((t.collectedFrom s).countP (t.Below u ·))

theorem above_some : t.Above (some u) v ↔ u = v ∨ t.Below u v := by
  simp only [Above, Below, Option.some.injEq, exists_eq_left']
  exact Relation.ReflTransGen.cases_head_iff

theorem Owned.not_below_self (ho : t.Owned) (u : Slot) : ¬t.Below u u := by
  rintro ⟨p, hp, hl⟩
  exact (ho.ends u).not_leads hp hl

theorem Owned.countP_above (ho : t.Owned) (u : Slot) {l : List Slot} (hn : l.Nodup) :
    l.countP (t.Above (some u) ·) = l.countP (t.Below u ·) + if u ∈ l then 1 else 0 := by
  induction l with
  | nil => rfl
  | cons v l ih =>
    obtain ⟨hv, hn⟩ := nodup_cons.1 hn
    rw [countP_cons, countP_cons, ih hn]
    by_cases huv : u = v
    · subst huv
      simp [above_some, ho.not_below_self, hv]
    · simp only [above_some, huv, false_or, mem_cons]
      omega

/-- Trees that are walked from `s`. Above them all nodes stay, and `k` of them are collected. -/
structure Walked (t : Tree) (s : Slot) (k : Nat) (p? : Option Slot) (f : Forest Entry) : Prop where
  holds : t.Holds p? f
  subset : f.slots ⊆ t.subtree s
  size : f.members.length ≤ t.size
  stays : ∀ v ∈ t.subtree s, t.Above p? v → (t.node v).Stays
  count : (t.collectedFrom s).countP (t.Above p? ·) = k

theorem Holds.below (h : t.Holds p? f) (hu : u ∈ f.slots) (hv : t.Above p? v) : t.Below u v := by
  induction f generalizing p? with
  | nil => cases hu
  | node e b r ihb ihr =>
    have he : t.Below e.slot v := by rwa [Below, h.parent?_eq]
    rw [slots_node, mem_cons, mem_append] at hu
    rcases hu with rfl | hu | hu
    · exact he
    · exact ihb h.2.1 hu (above_some.2 (.inr he))
    · exact ihr h.2.2 hu hv

namespace Walked

variable (h : t.Walked s k p? (.node e b r))
include h

theorem collected_iff : t.Collected s e.slot ↔ e.node.shown = true := by
  have hshown : (t.node e.slot).shown = e.node.shown := by rw [h.holds.1]; rfl
  simp only [Collected, hshown, Below, h.holds.parent?_eq]
  exact and_iff_left h.stays

theorem rangeFrom_eq : t.rangeFrom s e.slot = e.node.range k := by
  have hcount : (t.collectedFrom s).countP (t.Below e.slot ·) = k := by
    simp only [Below, h.holds.parent?_eq, h.count]
  rw [rangeFrom, hcount, h.holds.1]
  rfl

theorem rest : t.Walked s k p? r := by
  refine ⟨h.holds.2.2, fun u hu => h.subset (by simp [hu]), ?_, h.stays, h.count⟩
  have := h.size
  rw [length_node] at this
  omega

theorem below (ho : t.Owned) (hn : (t.subtree s).Nodup) (hs : e.node.Stays) :
    t.Walked s (k + if e.node.shown then 1 else 0) (some e.slot) b := by
  have hmem : e.slot ∈ t.subtree s := h.subset (by simp)
  have hcollected : e.slot ∈ t.collectedFrom s ↔ e.node.shown = true := by
    simp [collectedFrom, hmem, h.collected_iff]
  refine ⟨h.holds.2.1, fun u hu => h.subset (by simp [hu]), ?_, fun v hv ha => ?_, ?_⟩
  · have := h.size
    rw [length_node] at this
    omega
  · rcases above_some.1 ha with rfl | hb
    · rw [h.holds.1]
      exact hs
    · exact h.stays v hv (by rwa [Below, h.holds.parent?_eq] at hb)
  · have hnodup : (t.collectedFrom s).Nodup := hn.filter _
    rw [ho.countP_above e.slot hnodup]
    simp only [Below, h.holds.parent?_eq, h.count, hcollected]

/-- Below a node that does not stay nothing is collected. -/
theorem hidden (hs : ¬e.node.Stays) : b.slots.filter (t.Collected s ·) = [] := by
  refine filter_eq_nil_iff.2 fun u hu hc => hs ?_
  have hstays := (of_decide_eq_true hc).2 e.slot (h.subset (by simp)) (h.holds.2.1.below hu (above_some.2 (.inl rfl)))
  rw [h.holds.1] at hstays
  exact hstays

theorem subtree_eq : t.subtree e.slot = e.slot :: b.slots := by
  rw [subtree_eq_slots (holds_tree.2 ⟨h.holds.1, h.holds.2.1⟩), slots_tree]
  have := h.size
  simp only [members_node, members_tree, length_cons, length_append] at this ⊢
  omega

omit h

/-- The ranges of walked trees are those of the collected nodes among them. -/
theorem members_ranged (ho : t.Owned) (hn : (t.subtree s).Nodup) (h : t.Walked s k p? f) :
    (f.ranged k).members = (f.slots.filter (t.Collected s ·)).map (t.rangeFrom s) := by
  rw [ranged_eq_ranges]
  induction f generalizing k p? with
  | nil => rfl
  | node e b r ihb ihr =>
    rw [slots_node, filter_cons, filter_append]
    by_cases hs : e.node.Stays
    · have hb := ihb (h.below ho hn hs)
      cases he : e.node.span.isEmpty with
      | true => simp_all [collected_stays hs, hs.shown_eq, ranges_append, h.collected_iff, ihr h.rest]
      | false => simp_all [collected_stays hs, hs.shown_eq, Forest.ranges, h.collected_iff, h.rangeFrom_eq, ihr h.rest]
    · rw [collected_hiding hs, h.hidden hs]
      cases he : e.node.shown with
      | true => simp [Forest.ranges, h.collected_iff, he, h.rangeFrom_eq, ihr h.rest]
      | false => simp [h.collected_iff, he, ihr h.rest]

/-- The ranges below a collected node are those of the collected nodes after it in its subtree. -/
theorem below_rangeFrom (ho : t.Owned) (hn : (t.subtree s).Nodup) (h : t.Walked s k p? f) {after : List Slot}
    (hu : u :: after <:+ f.slots.filter (t.Collected s ·)) :
    (t.rangeFrom s u).below (after.map (t.rangeFrom s)) =
      ((t.subtree u).tail.filter (t.Collected s ·)).map (t.rangeFrom s) := by
  induction f generalizing k p? after with
  | nil => simp at hu
  | node e b r ihb ihr =>
    have hr := h.rest.members_ranged ho hn
    have hlevel := levelled_ranged r k
    rw [slots_node, filter_cons, filter_append] at hu
    have hcases : (t.Collected s e.slot ∧ u = e.slot ∧ after = b.slots.filter (t.Collected s ·) ++
        r.slots.filter (t.Collected s ·)) ∨
        u :: after <:+ b.slots.filter (t.Collected s ·) ++ r.slots.filter (t.Collected s ·) := by
      split at hu
      · rename_i hc
        exact (suffix_cons_iff.1 hu).imp_left fun hu => ⟨of_decide_eq_true hc, cons.inj hu⟩
      · exact .inr hu
    rcases hcases with ⟨hc, rfl, rfl⟩ | hu
    · rw [h.subtree_eq, tail_cons, h.rangeFrom_eq, List.map_append, ← hr]
      by_cases hs : e.node.Stays
      · have hbelow := h.below ho hn hs
        rw [if_pos (h.collected_iff.1 hc)] at hbelow
        rw [← hbelow.members_ranged ho hn]
        exact (Levelled.below_eq (r := e.node.range k) (levelled_ranged b _) hlevel).1
      · rw [h.hidden hs]
        exact (Levelled.below_eq (r := e.node.range k) (b := .nil) trivial hlevel).1
    · rcases suffix_append_cases hu with hbeside | ⟨zs, hbelow, rfl⟩
      · exact ihr h.rest hbeside
      · have hmem := hbelow.subset mem_cons_self
        have hs : e.node.Stays := by
          by_contra hs
          simp [h.hidden hs] at hmem
        have hwalked := h.below ho hn hs
        -- What stands beside `e` is not as deep as what is below it.
        have hdepth : k ≤ (t.rangeFrom s u).depth := by
          have hrange := mem_map_of_mem (f := t.rangeFrom s) hmem
          rw [← hwalked.members_ranged ho hn] at hrange
          exact Nat.le_of_add_right_le ((levelled_ranged b _).le_depth _ hrange)
        rw [List.map_append, ← hr, Range.below_append_left fun y hy => (hlevel.head_depth y hy).trans hdepth]
        exact ihb hwalked hbelow

end Walked

/-- **Depths tell what is above.** In a tree where every node has one place, the ranges of a walk are those of the
collected nodes in order, each as deep as there are collected nodes above its own. What comes after a range and is
deeper, up to the first that is not, are the ranges of the collected nodes below it. -/
theorem ranges_of_collected (t : Tree) (ho : t.Owned) (s : Slot) (hs : s.index < t.size) :
    (t.conduct s { enter := Range.Collection.visit t } {}).ranges.toList = (t.collectedFrom s).map (t.rangeFrom s) ∧
      ∀ u after, u :: after <:+ t.collectedFrom s →
        (t.rangeFrom s u).below (after.map (t.rangeFrom s)) =
          ((t.subtree u).tail.filter (t.Collected s ·)).map (t.rangeFrom s) := by
  obtain ⟨b, hgrow, hstands⟩ := ho.exists_stands hs
  have hsubtree := subtree_eq_slots hstands.holds hstands.length_le
  have hn : (t.subtree s).Nodup := hsubtree ▸ hstands.nodup
  -- No node of the walk is above `s`.
  have hnone : ∀ v ∈ t.subtree s, ¬t.Above (t.parent? s) v := by
    rintro v hv ⟨p, hp, hl⟩
    rw [hsubtree, ← hgrow] at hv
    obtain ⟨-, u, hu, hlead⟩ := ho.leads_of_mem_grow (by simpa using hs) hv
    obtain rfl := mem_singleton.1 hu
    exact (ho.ends u).not_leads hp (hl.trans hlead)
  have hwalked : t.Walked s 0 (t.parent? s) (.tree ⟨s, t.node s⟩ b) :=
    ⟨hstands.holds, hsubtree ▸ fun _ => id, hstands.length_le, fun v hv ha => absurd ha (hnone v hv),
      countP_eq_zero.2 fun v hv ha => hnone v (mem_filter.1 hv).1 (of_decide_eq_true ha)⟩
  rw [collectedFrom, hsubtree, Range.conduct_collect hstands]
  exact ⟨hwalked.members_ranged ho hn, fun u after hu => hwalked.below_rangeFrom ho hn hu⟩

/-- Of a tree with nodes of every kind, a new node is collected before one that comes earlier in the source. -/
theorem ranges_of_collected_patched :
    patched.Owned ∧ (Range.collect patched).map (·.depth) = [0, 1, 1, 1, 1, 1] ∧
      Range.collect patched = (patched.collectedFrom .root).map (patched.rangeFrom .root) :=
  ⟨owned_patched, by decide +kernel, (ranges_of_collected patched owned_patched .root (by decide)).1⟩

end Tree

end Deferral
