import Deferral.Proofs.Parents

/-!
# Unfolding a tree

A tree in slots whose children and parents agree is a forest: `Tree.forest` follows the children from the root, and its
entries stand in different slots (`Tree.Owned.stands_forest`). No way down is longer than the tree has slots, because no
slot is above itself.
-/

namespace Deferral.Tree

open Forest List

variable {t : Tree} {n : Nat} {s u p : Slot} {p? : Option Slot} {l above : List Slot}

/-- The given nodes and what is below them, as many levels as given. -/
def grow (t : Tree) : (levels : Nat) → List Slot → Forest Entry
  | 0, _ => .nil
  | n + 1, slots => slots.foldr (fun s rest => .node ⟨s, t.node s⟩ (t.grow n (t.children s)) rest) .nil

/-- Everything below the root. -/
def forest (t : Tree) : Forest Entry := t.grow t.size [.root]

@[simp] theorem grow_nil (n : Nat) : t.grow n [] = .nil := by cases n <;> rfl

theorem grow_cons (n : Nat) (s : Slot) (l : List Slot) :
    t.grow (n + 1) (s :: l) = .node ⟨s, t.node s⟩ (t.grow n (t.children s)) (t.grow (n + 1) l) := rfl

theorem rootSlots_grow (h : ∀ s ∈ l, 0 < n) : (t.grow n l).rootSlots = l := by
  induction l with
  | nil => simp
  | cons s l ih =>
    obtain ⟨m, rfl⟩ := Nat.exists_eq_succ_of_ne_zero (Nat.ne_of_gt (h s mem_cons_self))
    rw [grow_cons, rootSlots_node, ih fun u hu => h u (mem_cons_of_mem s hu)]

theorem forest_eq (h : 0 < t.size) : ∃ b, t.forest = .tree ⟨.root, t.node .root⟩ b := by
  obtain ⟨m, hm⟩ : ∃ m, t.size = m + 1 := ⟨t.size - 1, by omega⟩
  exact ⟨t.grow m (t.children .root), by rw [forest, hm, grow_cons, grow_nil]; rfl⟩

/-! ## Ways up -/

/-- Children and parents agree if they do in the slots in use, and parents come first. -/
theorem owned_of_slots (hchild : ∀ s ∈ t.slots, ∀ c ∈ t.children s, c.index < t.size ∧ t.parent? c = some s)
    (hnodup : ∀ s ∈ t.slots, (t.children s).Nodup)
    (hparent : ∀ s ∈ t.slots, ∀ p ∈ t.parent? s, p.index < s.index ∧ s ∈ t.children p) : t.Owned := by
  have hslots : ∀ {s : Slot}, s.index < t.size → s ∈ t.slots := fun {s} hs =>
    mem_map.2 ⟨s.index, mem_range.2 hs, rfl⟩
  have hup : ∀ {s p}, t.parent? s = some p → p.index < s.index ∧ s ∈ t.children p := fun {s p} hp => by
    by_cases hs : s.index < t.size
    · exact hparent s (hslots hs) p hp
    · simp [parent?_eq_none hs] at hp
  refine ⟨fun {p c} hc => hchild p (hslots (Owned.lt_of_child hc)) c hc, fun p => ?_, fun hp => .inl (hup hp).2,
    fun s => ?_⟩
  · by_cases hp : p.index < t.size
    · exact hnodup p (hslots hp)
    · simp [children_eq_nil hp]
  · induction hi : s.index using Nat.strongRecOn generalizing s with
    | ind i ih =>
      cases hp : t.parent? s with
      | none => exact .top hp
      | some p => exact .up hp (ih p.index (hi ▸ (hup hp).1) p rfl)

theorem Owned.not_leads_sibling (h : t.Owned) (hp : t.parent? s = t.parent? u) (hne : s ≠ u) : ¬t.Leads s u := by
  intro hl
  rcases hl.cases_head with rfl | ⟨v, hv, hl⟩
  · exact hne rfl
  · exact (h.ends u).not_leads (hp.symm.trans hv) hl

theorem Leads.total {v : Slot} (hs : t.Leads u s) (hv : t.Leads u v) : t.Leads s v ∨ t.Leads v s :=
  Relation.ReflTransGen.total_of_right_unique (fun _ _ _ h h' => Option.some.inj (h.symm.trans h')) hs hv

theorem Owned.leads_of_mem_grow (h : t.Owned) (hl : ∀ s ∈ l, s.index < t.size) (hu : u ∈ (t.grow n l).slots) :
    u.index < t.size ∧ ∃ s ∈ l, t.Leads u s := by
  induction n generalizing l with
  | zero => cases hu
  | succ n ih =>
    induction l with
    | nil => simp at hu
    | cons s l ihl =>
      rw [grow_cons, slots_node, mem_cons, mem_append] at hu
      rcases hu with rfl | hu | hu
      · exact ⟨hl _ mem_cons_self, _, mem_cons_self, .refl⟩
      · obtain ⟨hlt, c, hc, hlead⟩ := ih (fun c hc => (h.child hc).1) hu
        exact ⟨hlt, s, mem_cons_self, hlead.tail (h.child hc).2⟩
      · obtain ⟨hlt, v, hv, hlead⟩ := ihl (fun v hv => hl v (mem_cons_of_mem s hv)) hu
        exact ⟨hlt, v, mem_cons_of_mem s hv, hlead⟩

theorem Owned.nodup_grow (h : t.Owned) (hl : ∀ s ∈ l, s.index < t.size ∧ t.parent? s = p?) (hnd : l.Nodup) :
    (t.grow n l).slots.Nodup := by
  induction n generalizing l p? with
  | zero => exact .nil
  | succ n ih =>
    induction l with
    | nil => simp
    | cons s l ihl =>
      obtain ⟨hs, hnd⟩ := nodup_cons.1 hnd
      have hl' := fun v hv => hl v (mem_cons_of_mem s hv)
      have hbelow : ∀ u ∈ (t.grow n (t.children s)).slots, ∃ c ∈ t.children s, t.Leads u c := fun u hu =>
        (h.leads_of_mem_grow (fun c hc => (h.child hc).1) hu).2
      have hrest : ∀ u ∈ (t.grow (n + 1) l).slots, ∃ v, t.parent? s = t.parent? v ∧ s ≠ v ∧ t.Leads u v := by
        intro u hu
        obtain ⟨v, hv, hlead⟩ := (h.leads_of_mem_grow (fun v hv => (hl' v hv).1) hu).2
        exact ⟨v, (hl s mem_cons_self).2.trans (hl' v hv).2.symm, fun he => hs (he ▸ hv), hlead⟩
      rw [grow_cons, slots_node, nodup_cons, nodup_append, mem_append, not_or]
      refine ⟨⟨fun hm => ?_, fun hm => ?_⟩, ih (fun c hc => h.child hc) (h.nodup s), ihl hl' hnd, ?_⟩
      · obtain ⟨c, hc, hlead⟩ := hbelow s hm
        exact (h.ends c).not_leads (h.child hc).2 hlead
      · obtain ⟨v, hp, hne, hlead⟩ := hrest s hm
        exact h.not_leads_sibling hp hne hlead
      · rintro u hu _ hu' rfl
        obtain ⟨c, hc, hlead⟩ := hbelow u hu
        obtain ⟨v, hp, hne, hlead'⟩ := hrest u hu'
        -- `u` is below both `s` and its sibling `v`.
        rcases Leads.total (hlead.tail (h.child hc).2) hlead' with hsv | hvs
        · exact h.not_leads_sibling hp hne hsv
        · exact h.not_leads_sibling hp.symm hne.symm hvs

/-! ## Enough levels -/

/-- The way up from nodes with the parent `p?`, and as many levels as there are slots besides. -/
structure Room (t : Tree) (p? : Option Slot) (above : List Slot) (n : Nat) : Prop where
  nodup : above.Nodup
  bound : ∀ u ∈ above, u.index < t.size
  leads : ∀ u ∈ above, ∃ p, p? = some p ∧ t.Leads p u
  enough : t.size ≤ n + above.length

theorem length_le_size (hnd : l.Nodup) (hb : ∀ u ∈ l, u.index < t.size) : l.length ≤ t.size := by
  have hsub : l ⊆ t.slots := fun u hu => mem_map.2 ⟨u.index, mem_range.2 (hb u hu), rfl⟩
  simpa [Tree.slots] using (hnd.subperm hsub).length_le

namespace Room

theorem cons (h : t.Room p? above n) (ho : t.Owned) (hs : s.index < t.size ∧ t.parent? s = p?) :
    (s :: above).Nodup ∧ ∀ u ∈ s :: above, u.index < t.size := by
  refine ⟨nodup_cons.2 ⟨fun hm => ?_, h.nodup⟩, forall_mem_cons.2 ⟨hs.1, h.bound⟩⟩
  obtain ⟨p, hp, hlead⟩ := h.leads s hm
  exact (ho.ends s).not_leads (hs.2.trans hp) hlead

theorem pos (h : t.Room p? above n) (ho : t.Owned) (hs : s.index < t.size ∧ t.parent? s = p?) : 0 < n := by
  obtain ⟨hnd, hb⟩ := h.cons ho hs
  have hlen := length_le_size hnd hb
  have := h.enough
  rw [length_cons] at hlen
  omega

theorem down (h : t.Room p? above (n + 1)) (ho : t.Owned) (hs : s.index < t.size ∧ t.parent? s = p?) :
    t.Room (some s) (s :: above) n := by
  obtain ⟨hnd, hb⟩ := h.cons ho hs
  refine ⟨hnd, hb, forall_mem_cons.2 ⟨⟨s, rfl, .refl⟩, fun u hu => ⟨s, rfl, ?_⟩⟩, ?_⟩
  · obtain ⟨p, hp, hlead⟩ := h.leads u hu
    exact .head (hs.2.trans hp) hlead
  · have := h.enough
    rw [length_cons]
    omega

end Room

theorem Owned.holds_grow (h : t.Owned) (hl : ∀ s ∈ l, s.index < t.size ∧ t.parent? s = p?) (hr : t.Room p? above n) :
    t.Holds p? (t.grow n l) := by
  induction n generalizing l p? above with
  | zero => trivial
  | succ n ih =>
    induction l with
    | nil => trivial
    | cons s l ihl =>
      have hs := hl s mem_cons_self
      have hdown := hr.down h hs
      refine ⟨?_, ih (fun c hc => h.child hc) hdown, ihl fun v hv => hl v (mem_cons_of_mem s hv)⟩
      rw [rootSlots_grow fun c hc => hdown.pos h (h.child hc), ← hs.2]
      rfl

theorem Owned.exists_stands (h : t.Owned) (hs : s.index < t.size) :
    ∃ b, t.grow t.size [s] = .tree ⟨s, t.node s⟩ b ∧ t.Stands (t.parent? s) 0 (.tree ⟨s, t.node s⟩ b) := by
  have hl : ∀ u ∈ [s], u.index < t.size ∧ t.parent? u = t.parent? s := by simpa using hs
  obtain ⟨m, hm⟩ : ∃ m, t.size = m + 1 := ⟨t.size - 1, by omega⟩
  have hgrow : t.grow t.size [s] = .tree ⟨s, t.node s⟩ (t.grow m (t.children s)) := by
    rw [hm, grow_cons, grow_nil]
    rfl
  refine ⟨t.grow m (t.children s), hgrow, hgrow ▸ ⟨?_, ?_, fun u hu => ?_⟩⟩
  · exact h.holds_grow hl (n := t.size) ⟨.nil, by simp, by simp, Nat.le_refl _⟩
  · exact h.nodup_grow hl (by simp)
  · exact ⟨Nat.zero_le _, (h.leads_of_mem_grow (fun v hv => (hl v hv).1) hu).1⟩

theorem Owned.stands_forest (h : t.Owned) (hroot : t.parent? .root = none) (hsize : 0 < t.size) :
    t.Stands none 0 t.forest := by
  obtain ⟨b, hgrow, hb⟩ := h.exists_stands (s := .root) hsize
  rw [forest, hgrow, ← hroot]
  exact hb

end Deferral.Tree
