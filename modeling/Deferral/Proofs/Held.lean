import Deferral.Proofs.Forest
import Deferral.Tree.Walk
import Mathlib.Data.List.Perm.Subperm
import Mathlib.Data.List.Nodup

/-!
# Forests held in a tree

A tree in slots is a forest once it is known which nodes hang together. `Tree.Holds t parent? f` says so: the slots of
`f` hold its nodes, linked as `f` is, and the roots have the parent `parent?`. `Tree.Stands` adds that no slot occurs
twice and all are in use. The walk of a tree and its listing are then recursions over the forest
(`Tree.walk_eq_visit`, `Tree.subtree_eq_slots`).
-/

namespace Deferral

open List hiding append_assoc

theorem Construct.eq_deferred {c : Construct} (h : c.tag = .deferred) : c = .deferred := by
  cases c <;> first | rfl | cases h

theorem Construct.exists_function {c : Construct} (h : c.tag = .function) : ∃ form, c = .function form := by
  cases c <;> first | exact ⟨_, rfl⟩ | cases h

/-- The parameters of a function. -/
def Construct.params : Construct → List Slot
  | .function form => form.params
  | _ => []

theorem Construct.params_setBraced (b : Bool) (c : Construct) : (c.setBraced b).params = c.params := by
  cases c <;> rfl

/-- A slot and what it holds. The links of the node are left open. -/
structure Entry where
  slot : Slot
  node : Node

/-- The node with its links. -/
def Entry.linked (e : Entry) (children : List Slot) (parent? : Option Slot) : Node :=
  { e.node with children, parent? }

/-- An entry without changes since it was made. -/
def Entry.fresh (slot : Slot) (construct : Construct) (span : Span) : Entry :=
  ⟨slot, { construct, span, id := slot.index }⟩

variable {b r : Forest Entry} {low : Nat}

section Fresh

variable (s : Slot) (c : Construct) (span : Span)

@[simp] theorem Entry.slot_fresh : (fresh s c span).slot = s := rfl

@[simp] theorem Entry.construct_fresh : (fresh s c span).node.construct = c := rfl

@[simp] theorem Entry.span_fresh : (fresh s c span).node.span = span := rfl

end Fresh

/-- Not changed since it was made. -/
def Entry.Plain (e : Entry) : Prop := e = .fresh e.slot e.node.construct e.node.span

theorem Entry.plain_fresh (s : Slot) (c : Construct) (span : Span) : (fresh s c span).Plain := rfl

section Plain

variable {e : Entry}

theorem Entry.Plain.status_eq (h : e.Plain) : e.node.status = .clean := by rw [h]; rfl

theorem Entry.Plain.replacement?_eq (h : e.Plain) : e.node.replacement? = none := by rw [h]; rfl

theorem Entry.Plain.lead?_eq (h : e.Plain) : e.node.lead? = none := by rw [h]; rfl

theorem Entry.Plain.actions_eq (h : e.Plain) : e.node.actions = {} := by rw [h]; rfl

end Plain

theorem Entry.Plain.exists_fresh {e : Entry} (h : e.Plain) : ∃ s c span, e = .fresh s c span := ⟨_, _, _, h⟩

namespace Forest

def slots (f : Forest Entry) : List Slot := f.members.map (·.slot)

def rootSlots (f : Forest Entry) : List Slot := f.roots.map (·.slot)

@[simp] theorem slots_nil : (nil : Forest Entry).slots = [] := rfl

@[simp] theorem slots_node (e : Entry) (b r : Forest Entry) : (node e b r).slots = e.slot :: (b.slots ++ r.slots) := by
  simp [slots]

@[simp] theorem slots_append (f g : Forest Entry) : (f ++ g).slots = f.slots ++ g.slots := by simp [slots]

@[simp] theorem slots_tree (e : Entry) (b : Forest Entry) : (tree e b).slots = e.slot :: b.slots := by simp [slots]

@[simp] theorem rootSlots_nil : (nil : Forest Entry).rootSlots = [] := rfl

@[simp] theorem rootSlots_node (e : Entry) (b r : Forest Entry) : (node e b r).rootSlots = e.slot :: r.rootSlots := rfl

@[simp] theorem rootSlots_append (f g : Forest Entry) : (f ++ g).rootSlots = f.rootSlots ++ g.rootSlots := by
  simp [rootSlots]

@[simp] theorem rootSlots_tree (e : Entry) (b : Forest Entry) : (tree e b).rootSlots = [e.slot] := rfl

@[simp] theorem length_slots (f : Forest Entry) : f.slots.length = f.members.length := length_map _

theorem mem_slots {f : Forest Entry} {e : Entry} (h : e ∈ f.members) : e.slot ∈ f.slots := mem_map_of_mem h

theorem subtree_slot {f : Forest Entry} {e : Entry} (h : (e, b) ∈ f.subtrees) : e.slot ∈ f.slots :=
  mem_slots ((members_sublist h).subset (by simp))

theorem slots_subset {f : Forest Entry} {e : Entry} (h : (e, b) ∈ f.subtrees) :
    (tree e b).slots ⊆ f.slots :=
  (List.Sublist.map _ (members_sublist h)).subset

theorem slots_eq_map_subtrees (f : Forest Entry) : f.slots = f.subtrees.map (·.1.slot) := by
  induction f with
  | nil => rfl
  | node e b r ihb ihr => simp [subtrees, ihb, ihr]

theorem exists_subtree_slot {f : Forest Entry} {s : Slot} (h : s ∈ f.slots) :
    ∃ e b, (e, b) ∈ f.subtrees ∧ e.slot = s := by
  rw [slots_eq_map_subtrees] at h
  obtain ⟨⟨e, b⟩, hm, rfl⟩ := mem_map.1 h
  exact ⟨e, b, hm, rfl⟩

theorem subtree_unique {f : Forest Entry} (hn : f.slots.Nodup) {e e' : Entry} {b' : Forest Entry}
    (h : (e, b) ∈ f.subtrees) (h' : (e', b') ∈ f.subtrees) (hs : e.slot = e'.slot) : e = e' ∧ b = b' := by
  rw [slots_eq_map_subtrees] at hn
  exact Prod.mk.inj (inj_on_of_nodup_map hn h h' hs)

theorem rootSlots_subset {f : Forest Entry} {s : Slot} (h : s ∈ f.rootSlots) : s ∈ f.slots := by
  obtain ⟨e, he, rfl⟩ := mem_map.1 h
  exact mem_slots (mem_members_of_mem_roots he)

theorem eq_nil_of_rootSlots {f : Forest Entry} (h : f.rootSlots = []) : f = nil :=
  eq_nil_of_roots (map_eq_nil_iff.1 h)

theorem exists_tree_of_rootSlots {f : Forest Entry} {s : Slot} (h : f.rootSlots = [s]) :
    ∃ e b, f = tree e b ∧ e.slot = s := by
  obtain ⟨e, he, hs⟩ := map_eq_singleton_iff.1 h
  obtain ⟨b, hb⟩ := exists_tree_of_roots he
  exact ⟨e, b, hb, hs⟩

end Forest

namespace Tree

open Forest

variable {t t' : Tree} {s u : Slot}

/-! ## Nodes after a change -/

@[simp] theorem size_modify (t : Tree) (s : Slot) (f : Node → Node) : (t.modify s f).size = t.size := by
  simp [modify, size]

theorem node_modify (t : Tree) (s u : Slot) (f : Node → Node) :
    (t.modify s f).node u = if u = s ∧ s.index < t.size then f (t.node u) else t.node u := by
  obtain ⟨i⟩ := s
  obtain ⟨j⟩ := u
  simp only [modify, node, size, Array.getD_eq_getD_getElem?, Array.getElem?_modify, Slot.mk.injEq]
  by_cases h : i = j
  · subst h
    by_cases hi : i < t.nodes.size
    · simp [hi]
    · simp [hi]
  · have h' : ¬j = i := fun e => h e.symm
    simp [h, h']

theorem node_modify_self {f : Node → Node} (h : s.index < t.size) : (t.modify s f).node s = f (t.node s) := by
  rw [node_modify, if_pos ⟨rfl, h⟩]

theorem node_modify_ne {f : Node → Node} (h : u ≠ s) : (t.modify s f).node u = t.node u := by
  rw [node_modify, if_neg fun h' => h h'.1]

@[simp] theorem size_forget (t : Tree) (id : Nat) : (t.forget id).size = t.size := rfl

@[simp] theorem node_forget (t : Tree) (id : Nat) : (t.forget id).node u = t.node u := rfl

@[simp] theorem size_push (t : Tree) (c : Construct) (span : Span) : (t.push c span).2.size = t.size + 1 := by
  simp [push, size]

theorem node_push (t : Tree) (c : Construct) (span : Span) (u : Slot) :
    (t.push c span).2.node u = if u.index = t.size then { construct := c, span, id := t.size } else t.node u := by
  simp only [push, node, size, Array.getD_eq_getD_getElem?, Array.getElem?_push]
  split <;> simp_all

theorem node_push_self (t : Tree) (c : Construct) (span : Span) :
    (t.push c span).2.node ⟨t.size⟩ = { construct := c, span, id := t.size } := by rw [node_push, if_pos rfl]

theorem node_push_old {c : Construct} {span : Span} (h : u.index < t.size) :
    (t.push c span).2.node u = t.node u := by rw [node_push, if_neg (by omega)]

/-! ## Holding a forest -/

/-- The slots of the forest hold its nodes, linked as in the forest. -/
def Holds (t : Tree) (parent? : Option Slot) : Forest Entry → Prop
  | .nil => True
  | .node e below rest =>
    t.node e.slot = e.linked below.rootSlots parent? ∧ t.Holds (some e.slot) below ∧ t.Holds parent? rest

variable {p? : Option Slot} {f g : Forest Entry} {e : Entry}

@[simp] theorem holds_nil : t.Holds p? .nil ↔ True := Iff.rfl

theorem holds_node : t.Holds p? (.node e b r) ↔
    t.node e.slot = e.linked b.rootSlots p? ∧ t.Holds (some e.slot) b ∧ t.Holds p? r := Iff.rfl

theorem holds_append : ∀ {f g : Forest Entry}, t.Holds p? (f ++ g) ↔ t.Holds p? f ∧ t.Holds p? g
  | .nil, _ => by simp
  | .node e b r, g => by simp only [Forest.node_append, holds_node, holds_append (f := r), and_assoc]

theorem holds_tree : t.Holds p? (.tree e b) ↔
    t.node e.slot = e.linked b.rootSlots p? ∧ t.Holds (some e.slot) b := by
  simp [Forest.tree, holds_node]

theorem Holds.congr : ∀ {f : Forest Entry} {p? : Option Slot}, (∀ s ∈ f.slots, t'.node s = t.node s) → t.Holds p? f →
    t'.Holds p? f
  | .nil, _, _, _ => trivial
  | .node e b r, _, h, ⟨he, hb, hr⟩ => by
    simp only [Forest.slots_node, mem_cons, mem_append] at h
    exact ⟨(h _ (.inl rfl)).trans he, hb.congr fun s hs => h s (.inr (.inl hs)),
      hr.congr fun s hs => h s (.inr (.inr hs))⟩

/-- What a held forest says about one of its slots, whatever its links are. -/
theorem Holds.exists_linked : ∀ {f : Forest Entry} {p? : Option Slot}, t.Holds p? f → e ∈ f.members →
    ∃ children parent?, t.node e.slot = e.linked children parent?
  | .node _ b r, _, ⟨he, hb, hr⟩, h => by
    rcases mem_cons.1 h with rfl | h
    · exact ⟨_, _, he⟩
    · rcases mem_append.1 h with h | h
      · exact hb.exists_linked h
      · exact hr.exists_linked h

theorem Holds.construct_eq (h : t.Holds p? f) (he : e ∈ f.members) : t.construct e.slot = e.node.construct := by
  obtain ⟨_, _, h⟩ := h.exists_linked he
  rw [construct, h]; rfl

theorem Holds.tag_eq (h : t.Holds p? f) (he : e ∈ f.members) : t.tag e.slot = e.node.tag :=
  congrArg Construct.tag (h.construct_eq he)

theorem Holds.span_eq (h : t.Holds p? f) (he : e ∈ f.members) : t.span e.slot = e.node.span := by
  obtain ⟨_, _, h⟩ := h.exists_linked he
  rw [span, h]; rfl

theorem Holds.children_eq (h : t.Holds p? (.node e b r)) : t.children e.slot = b.rootSlots := by
  rw [children, h.1]; rfl

theorem Holds.parent?_eq (h : t.Holds p? (.node e b r)) : t.parent? e.slot = p? := by
  rw [parent?, h.1]; rfl

theorem Holds.every : ∀ {f : Forest Entry} {p? : Option Slot}, t.Holds p? f → f.Every fun e b =>
    t.node e.slot = e.linked b.rootSlots (t.parent? e.slot) ∧ t.Holds (some e.slot) b
  | .nil, _, _ => trivial
  | .node _ _ _, _, h => ⟨⟨by rw [h.parent?_eq]; exact h.1, h.2.1⟩, h.2.1.every, h.2.2.every⟩

theorem Holds.parent_root : ∀ {f : Forest Entry} {p? : Option Slot} {s : Slot}, t.Holds p? f → s ∈ f.rootSlots →
    t.parent? s = p?
  | .node e b r, p?, s, h, hs => by
    rcases mem_cons.1 hs with rfl | hs
    · exact h.parent?_eq
    · exact h.2.2.parent_root hs

/-- The forest stands in different slots, all of them in use and none below `low`. -/
structure Stands (t : Tree) (parent? : Option Slot) (low : Nat) (f : Forest Entry) : Prop where
  holds : t.Holds parent? f
  nodup : f.slots.Nodup
  bound : ∀ s ∈ f.slots, low ≤ s.index ∧ s.index < t.size

theorem stands_nil : t.Stands p? low .nil := ⟨trivial, .nil, by simp⟩

theorem Stands.length_le (h : t.Stands p? low f) : f.members.length ≤ t.size := by
  have hn : (f.slots.map Slot.index).Nodup := by
    refine h.nodup.map_on ?_
    rintro ⟨i⟩ _ ⟨j⟩ _ rfl
    rfl
  have hs : f.slots.map Slot.index ⊆ List.range t.size := by
    intro i hi
    obtain ⟨s, hs, rfl⟩ := mem_map.1 hi
    exact mem_range.2 (h.bound s hs).2
  simpa using (hn.subperm hs).length_le

/-! ## Walks and listings -/

section Path

variable {α : Type} {p q : α → Bool}

/-- On a way up, going as far as `q` allows first makes no difference to going as far as `p` allows. -/
theorem dropWhile_dropWhile (h : ∀ a, q a = true → p a = true) (l : List α) :
    (l.dropWhile q).dropWhile p = l.dropWhile p := by
  induction l with
  | nil => rfl
  | cons a l ih =>
    cases hq : q a with
    | true => simpa [hq, h a hq] using ih
    | false => simp [hq]

theorem takeWhile_append_takeWhile (h : ∀ a, q a = true → p a = true) (l : List α) :
    l.takeWhile q ++ (l.dropWhile q).takeWhile p = l.takeWhile p := by
  induction l with
  | nil => rfl
  | cons a l ih =>
    cases hq : q a with
    | true => simpa [hq, h a hq] using ih
    | false => simp [hq]

end Path

section Walk

variable {σ : Type}

/-- A walk over a forest, as a recursion. -/
def visitForest (visit : Slot → Nat → σ → σ × Bool) (depth : Nat) : Forest Entry → σ → σ
  | .nil, state => state
  | .node e below rest, state =>
    let (state, descend) := visit e.slot depth state
    let state := if descend then visitForest visit (depth + 1) below state else state
    visitForest visit depth rest state

variable (visit : Slot → Nat → σ → σ × Bool)

/-- Walking over the roots of a held forest is the recursion, and leaves enough steps for what comes after. -/
theorem walkFrom_roots : ∀ {f : Forest Entry} {p? : Option Slot} {n : Nat} (depth : Nat) (rest : List (Slot × Nat))
    (state : σ), t.Holds p? f → f.members.length ≤ n → ∃ m, n ≤ m + f.members.length ∧
      t.walkFrom visit n (f.rootSlots.map (·, depth) ++ rest) state =
        t.walkFrom visit m rest (visitForest visit depth f state)
  | .nil, _, n, _, _, _, _, _ => ⟨n, by simp, rfl⟩
  | .node e b r, _, 0, _, _, _, _, hn => by simp at hn
  | .node e b r, p?, n + 1, depth, rest, state, ⟨he, hb, hr⟩, hn => by
    rw [length_node] at hn ⊢
    have hc : t.children e.slot = b.rootSlots := by rw [children, he]; rfl
    simp only [rootSlots_node, map_cons, cons_append, walkFrom, visitForest, hc]
    cases hv : visit e.slot depth state with
    | mk st descend =>
      cases descend with
      | false =>
        obtain ⟨m, hm, h⟩ := walkFrom_roots (n := n) depth rest st hr (by omega)
        exact ⟨m, by omega, by simpa using h⟩
      | true =>
        obtain ⟨k, hk, hb'⟩ := walkFrom_roots (n := n) (depth + 1) (r.rootSlots.map (·, depth) ++ rest) st hb (by omega)
        obtain ⟨m, hm, hr'⟩ :=
          walkFrom_roots (n := k) depth rest (visitForest visit (depth + 1) b st) hr (by omega)
        exact ⟨m, by omega, by simp only [if_true, hb', hr']⟩

theorem walkFrom_nil (n : Nat) (state : σ) : t.walkFrom visit n [] state = state := by
  cases n <;> rfl

theorem walk_eq_visit (h : t.Stands p? low (.tree e b)) (state : σ) :
    t.walk e.slot visit state = visitForest visit 0 (.tree e b) state := by
  obtain ⟨m, -, hm⟩ := walkFrom_roots visit 0 [] state h.holds h.length_le
  rw [walk]
  simpa [walkFrom_nil] using hm

theorem Strategy.visit_enter (finish : σ → σ) : Strategy.visit { enter := visit, finish } t = visit := rfl

theorem conduct_eq_visit (h : t.Stands p? low (.tree e b)) (S : Strategy σ) (state : σ) :
    t.conduct e.slot S state = S.finish (visitForest (S.visit t) 0 (.tree e b) state) := by
  rw [conduct, walk_eq_visit _ h]

end Walk

theorem preorder_roots : ∀ {f : Forest Entry} {p? : Option Slot} {n : Nat} (rest : List Slot), t.Holds p? f →
    f.members.length ≤ n →
      t.preorder n (f.rootSlots ++ rest) = f.slots ++ t.preorder (n - f.members.length) rest
  | .nil, _, _, _, _, _ => by simp
  | .node e b r, _, 0, _, _, hn => by simp at hn
  | .node e b r, p?, n + 1, rest, ⟨he, hb, hr⟩, hn => by
    rw [length_node] at hn
    have hc : t.children e.slot = b.rootSlots := by rw [children, he]; rfl
    simp only [rootSlots_node, cons_append, preorder, hc]
    rw [preorder_roots _ hb (by omega), preorder_roots _ hr (by omega)]
    simp only [slots_node, members_node, length_cons, length_append, cons_append, List.append_assoc]
    congr 4
    omega

theorem preorder_nil (n : Nat) : t.preorder n [] = [] := by cases n <;> rfl

theorem subtree_eq_slots (h : t.Holds p? (.tree e b))
    (hn : (tree e b).members.length ≤ t.size) : t.subtree e.slot = (tree e b).slots := by
  have := preorder_roots [] h hn
  simpa [subtree, preorder_nil] using this

end Tree

end Deferral
