import Mathlib.Data.List.Basic
import Mathlib.Data.Nat.Basic

/-!
# Forests

A forest is a sequence of trees, kept as the first root, what is below it, and the trees after it. One induction thus
goes through nesting and sequence alike. `Forest.members` lists everything, parents first; `Forest.roots` lists the top
level. `Forest.Every` says something of each member together with what is below it.
-/

namespace Deferral

open List

/-- A sequence of trees: the first root, what is below it, and the rest. -/
inductive Forest (α : Type) where
  | nil
  | node (root : α) (below rest : Forest α)

namespace Forest

variable {α β : Type}

/-- Everything, parents before children. -/
def members : Forest α → List α
  | nil => []
  | node a below rest => a :: (below.members ++ rest.members)

/-- The top level. -/
def roots : Forest α → List α
  | nil => []
  | node a _ rest => a :: rest.roots

/-- One tree. -/
def tree (a : α) (below : Forest α) : Forest α := node a below nil

protected def append : Forest α → Forest α → Forest α
  | nil, g => g
  | node a below rest, g => node a below (rest.append g)

instance : Append (Forest α) := ⟨Forest.append⟩

def map (f : α → β) : Forest α → Forest β
  | nil => nil
  | node a below rest => node (f a) (below.map f) (rest.map f)

/-- Each member with the forest below it. -/
def subtrees : Forest α → List (α × Forest α)
  | nil => []
  | node a below rest => (a, below) :: (below.subtrees ++ rest.subtrees)

/-- `P` of each member and the forest below it. -/
def Every (P : α → Forest α → Prop) : Forest α → Prop
  | nil => True
  | node a below rest => P a below ∧ below.Every P ∧ rest.Every P

/-! ## Sequences of trees -/

@[simp] theorem nil_append (g : Forest α) : nil ++ g = g := rfl

@[simp] theorem node_append (a : α) (b r g : Forest α) : node a b r ++ g = node a b (r ++ g) := rfl

@[simp] theorem tree_append (a : α) (b g : Forest α) : tree a b ++ g = node a b g := rfl

@[simp] theorem append_nil : ∀ f : Forest α, f ++ nil = f
  | nil => rfl
  | node a b r => by rw [node_append, append_nil r]

theorem append_assoc : ∀ f g h : Forest α, f ++ g ++ h = f ++ (g ++ h)
  | nil, _, _ => rfl
  | node a b r, g, h => by simp only [node_append, append_assoc r g h]

@[simp] theorem members_nil : (nil : Forest α).members = [] := rfl

@[simp] theorem members_node (a : α) (b r : Forest α) : (node a b r).members = a :: (b.members ++ r.members) := rfl

@[simp] theorem members_append : ∀ f g : Forest α, (f ++ g).members = f.members ++ g.members
  | nil, _ => rfl
  | node a b r, g => by simp [members_append r g]

@[simp] theorem members_tree (a : α) (b : Forest α) : (tree a b).members = a :: b.members := by simp [tree]

theorem length_node (a : α) (b r : Forest α) :
    (node a b r).members.length = b.members.length + r.members.length + 1 := by
  simp only [members_node, length_cons, length_append]

@[simp] theorem roots_nil : (nil : Forest α).roots = [] := rfl

@[simp] theorem roots_node (a : α) (b r : Forest α) : (node a b r).roots = a :: r.roots := rfl

@[simp] theorem roots_append : ∀ f g : Forest α, (f ++ g).roots = f.roots ++ g.roots
  | nil, _ => rfl
  | node a b r, g => by simp [roots_append r g]

@[simp] theorem roots_tree (a : α) (b : Forest α) : (tree a b).roots = [a] := rfl

theorem roots_sublist : ∀ f : Forest α, f.roots.Sublist f.members
  | nil => .slnil
  | node a _ r => ((roots_sublist r).trans (sublist_append_right ..)).cons_cons a

theorem mem_members_of_mem_roots {a : α} {f : Forest α} (h : a ∈ f.roots) : a ∈ f.members := (roots_sublist f).subset h

theorem eq_nil_of_roots : ∀ {f : Forest α}, f.roots = [] → f = nil
  | nil, _ => rfl

theorem exists_append_of_roots : ∀ {f : Forest α} {xs ys : List α}, f.roots = xs ++ ys →
    ∃ g h, f = g ++ h ∧ g.roots = xs ∧ h.roots = ys
  | f, [], _, h => ⟨nil, f, rfl, rfl, h⟩
  | node a b r, x :: xs, ys, h => by
    obtain ⟨hx, hr⟩ := List.cons.inj h
    obtain ⟨g, k, rfl, hg, hk⟩ := exists_append_of_roots hr
    exact ⟨node a b g, k, rfl, by rw [roots_node, hx, hg], hk⟩

theorem exists_tree_of_roots {f : Forest α} {a : α} (h : f.roots = [a]) : ∃ b, f = tree a b := by
  match f, h with
  | node _ b r, h =>
    obtain ⟨rfl, hr⟩ := List.cons.inj h
    exact ⟨b, by rw [eq_nil_of_roots hr]; rfl⟩

theorem exists_last {f : Forest α} {xs : List α} {a : α} (h : f.roots = xs ++ [a]) :
    ∃ g b, f = g ++ tree a b ∧ g.roots = xs := by
  obtain ⟨g, k, rfl, hg, hk⟩ := exists_append_of_roots h
  obtain ⟨b, rfl⟩ := exists_tree_of_roots hk
  exact ⟨g, b, rfl, hg⟩

/-- Sequences of trees side by side. -/
def join (fs : List (Forest α)) : Forest α := fs.foldr (· ++ ·) nil

@[simp] theorem join_nil : join ([] : List (Forest α)) = nil := rfl

@[simp] theorem join_cons (f : Forest α) (fs : List (Forest α)) : join (f :: fs) = f ++ join fs := rfl

/-! ## Maps -/

@[simp] theorem map_nil (f : α → β) : (nil : Forest α).map f = nil := rfl

@[simp] theorem map_node (f : α → β) (a : α) (b r : Forest α) :
    (node a b r).map f = node (f a) (b.map f) (r.map f) := rfl

theorem map_append (m : α → β) (f g : Forest α) : (f ++ g).map m = f.map m ++ g.map m := by
  induction f with
  | nil => rfl
  | node a b r _ ihr => rw [node_append, map_node, map_node, node_append, ihr]

@[simp] theorem members_map (f : α → β) : ∀ g : Forest α, (g.map f).members = g.members.map f
  | nil => rfl
  | node a b r => by simp [members_map f b, members_map f r]

theorem map_congr {f g : α → β} : ∀ {h : Forest α}, (∀ a ∈ h.members, f a = g a) → h.map f = h.map g
  | nil, _ => rfl
  | node a b r, h => by
    simp only [members_node, mem_cons, mem_append] at h
    rw [map_node, map_node, h a (.inl rfl), map_congr fun x hx => h x (.inr (.inl hx)),
      map_congr fun x hx => h x (.inr (.inr hx))]

theorem map_map {γ : Type} (f : α → β) (g : β → γ) : ∀ h : Forest α, (h.map f).map g = h.map fun a => g (f a)
  | nil => rfl
  | node a b r => by simp only [map_node, map_map f g b, map_map f g r]

@[simp] theorem roots_map (f : α → β) : ∀ g : Forest α, (g.map f).roots = g.roots.map f
  | nil => rfl
  | node a b r => by simp [roots_map f r]

/-! ## Each member with what is below it -/

section Every

variable {P Q : α → Forest α → Prop}

@[simp] theorem every_nil : (nil : Forest α).Every P ↔ True := Iff.rfl

@[simp] theorem every_node {a : α} {b r : Forest α} : (node a b r).Every P ↔ P a b ∧ b.Every P ∧ r.Every P := Iff.rfl

@[simp] theorem every_append : ∀ {f g : Forest α}, (f ++ g).Every P ↔ f.Every P ∧ g.Every P
  | nil, _ => by simp
  | node a b r, g => by simp [every_append (f := r), and_assoc]

@[simp] theorem every_tree {a : α} {b : Forest α} : (tree a b).Every P ↔ P a b ∧ b.Every P := by simp [tree]

theorem Every.mono (h : ∀ a b, P a b → Q a b) : ∀ {f : Forest α}, f.Every P → f.Every Q
  | nil, _ => trivial
  | node _ _ _, hf => ⟨h _ _ hf.1, hf.2.1.mono h, hf.2.2.mono h⟩

theorem Every.and : ∀ {f : Forest α}, f.Every P → f.Every Q → f.Every fun a b => P a b ∧ Q a b
  | nil, _, _ => trivial
  | node _ _ _, hp, hq => ⟨⟨hp.1, hq.1⟩, hp.2.1.and hq.2.1, hp.2.2.and hq.2.2⟩

theorem Every.of_mem {a : α} {b : Forest α} : ∀ {f : Forest α}, f.Every P → (a, b) ∈ f.subtrees → P a b
  | node _ _ _, ⟨h, hb, hr⟩, ha => by
    rcases mem_cons.1 ha with heq | ha
    · cases heq
      exact h
    · exact (mem_append.1 ha).elim hb.of_mem hr.of_mem

theorem every_iff : ∀ {f : Forest α}, f.Every P ↔ ∀ a b, (a, b) ∈ f.subtrees → P a b
  | nil => by simp [subtrees]
  | node a b r => by
    rw [every_node, every_iff (f := b), every_iff (f := r)]
    simp only [subtrees, mem_cons, Prod.mk.injEq, mem_append]
    refine ⟨?_, fun h => ⟨h a b (.inl ⟨rfl, rfl⟩), fun x y hx => h x y (.inr (.inl hx)),
      fun x y hx => h x y (.inr (.inr hx))⟩⟩
    rintro ⟨ha, hb, hr⟩ x y (⟨rfl, rfl⟩ | h | h)
    · exact ha
    · exact hb x y h
    · exact hr x y h

theorem every_of_members {Q : α → Prop} : ∀ {f : Forest α}, (∀ a ∈ f.members, Q a) → f.Every fun a _ => Q a
  | nil, _ => trivial
  | node a b r, h => by
    simp only [members_node, mem_cons, mem_append] at h
    exact ⟨h a (.inl rfl), every_of_members fun x hx => h x (.inr (.inl hx)),
      every_of_members fun x hx => h x (.inr (.inr hx))⟩

theorem Every.below {a : α} {b : Forest α} : ∀ {f : Forest α}, f.Every P → (a, b) ∈ f.subtrees → b.Every P
  | node _ _ _, ⟨_, hb, hr⟩, ha => by
    rcases mem_cons.1 ha with heq | ha
    · cases heq
      exact hb
    · exact (mem_append.1 ha).elim hb.below hr.below

theorem subtrees_below {a : α} {b : Forest α} : ∀ {f : Forest α}, (a, b) ∈ f.subtrees → b.subtrees ⊆ f.subtrees
  | node _ _ _, ha, x, hx => by
    rcases mem_cons.1 ha with heq | ha
    · cases heq
      exact mem_cons_of_mem _ (mem_append_left _ hx)
    · refine mem_cons_of_mem _ (mem_append.2 ?_)
      exact (mem_append.1 ha).imp (fun h => subtrees_below h hx) fun h => subtrees_below h hx

theorem exists_subtree {a : α} : ∀ {f : Forest α}, a ∈ f.members → ∃ b, (a, b) ∈ f.subtrees
  | node x b r, ha => by
    simp only [members_node, mem_cons, mem_append] at ha
    rcases ha with rfl | ha | ha
    · exact ⟨b, mem_cons_self⟩
    · obtain ⟨d, hd⟩ := exists_subtree ha
      exact ⟨d, mem_cons_of_mem _ (mem_append_left _ hd)⟩
    · obtain ⟨d, hd⟩ := exists_subtree ha
      exact ⟨d, mem_cons_of_mem _ (mem_append_right _ hd)⟩

theorem Every.exists_below {a : α} {f : Forest α} (h : f.Every P) (ha : a ∈ f.members) : ∃ b, P a b :=
  (exists_subtree ha).imp fun _ => h.of_mem

/-- The members of a subtree are members of the forest, in the same order. -/
theorem members_sublist {a : α} {b : Forest α} : ∀ {f : Forest α}, (a, b) ∈ f.subtrees →
    (tree a b).members.Sublist f.members
  | node x d r, h => by
    rcases mem_cons.1 h with heq | h
    · cases heq
      simp
    · rcases mem_append.1 h with h | h
      · exact ((members_sublist h).trans (sublist_append_left ..)).cons _
      · exact ((members_sublist h).trans (sublist_append_right ..)).cons _

end Every

end Forest

end Deferral
