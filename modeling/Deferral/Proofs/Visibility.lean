import Deferral.Firing.Apply
import Deferral.Proofs.Copying
import Deferral.Proofs.Traces

/-!
# What is visible

Names are declared in blocks: a declaration is visible from where it stands to the end of its block, and hides earlier
ones of the same name. `Tree.views` says for each node of a tree what is visible there. Labels are no blocks, and the
header of a loop is in one block with the statements after it. In a tree with deferred statements in place, a value that
is stored is a declaration as well, up to the brace that is closed after the jump.
-/

namespace Deferral

/-- A name and the place where it is declared. -/
structure Declared where
  name : String
  span : Span
  deriving DecidableEq, Repr

/-- What is visible at a place in a list of statements, the latest first, and around each brace that is open there. -/
structure Block where
  visible : List Declared
  outer : List (List Declared) := []

namespace Block

/-- Before a node. -/
def opened (k : Block) (n : Node) : Block :=
  if n.actions.braceBefore then { k with outer := k.visible :: k.outer } else k

@[simp] theorem visible_opened (k : Block) (n : Node) : (k.opened n).visible = k.visible := by
  unfold opened
  split <;> rfl

/-- After a node. -/
def closed (k : Block) (n : Node) : Block := if n.actions.braceAfter then ⟨k.outer.headD [], k.outer.tail⟩ else k

end Block

/-- What is visible after a statement, where `inside` is visible at the end of what is below it. -/
def Construct.visibleAfter (c : Construct) (span : Span) (visible inside : List Declared) : List Declared :=
  match c with
  | .declaration _ name _ => ⟨name, span⟩ :: visible
  | .binary _ _ _ | .group | .caseLabel _ _ => inside
  | _ => visible

/-- What is visible after a node. One that was added is a copy of an expression or a block, neither of which declares
anything for what comes after it, or it is a stored value. -/
def Node.visibleAfter (n : Node) (visible inside : List Declared) : List Declared :=
  match n.status with
  | .removed => visible
  | .added => if n.lead?.isSome then ⟨Firing.storedValue, n.span⟩ :: visible else visible
  | .clean | .modified => n.construct.visibleAfter n.span visible inside

/-- A node and what is visible there. -/
structure View where
  entry : Entry
  visible : List Declared

/-- What a name means at a node; none if it is declared outside of the function. -/
def View.binding? (x : View) (name : String) : Option Declared := x.visible.find? (·.name = name)

def View.identifier? (x : View) : Option String :=
  match x.entry.node.construct with
  | .identifier name => some name
  | _ => none

/-- The nodes of a list of statements, and what is visible after it. -/
def Forest.views (params : Construct → List Declared) : Block → Forest Entry → Forest View × Block
  | k, .nil => (.nil, k)
  | k, .node e below rest =>
    let k := k.opened e.node
    let inside := views params ⟨params e.node.construct ++ k.visible, []⟩ below
    let after := views params
      (Block.closed { k with visible := e.node.visibleAfter k.visible inside.2.visible } e.node) rest
    (.node ⟨e, k.visible⟩ inside.1 after.1, after.2)

namespace Tree

/-- What the parameters of a function declare, the last first. -/
def parameters (t : Tree) (c : Construct) : List Declared :=
  c.params.reverse.filterMap fun p =>
    match t.construct p with
    | .declaration _ name _ => some ⟨name, t.span p⟩
    | _ => none

/-- All nodes of the tree, with what is visible there. -/
def views (t : Tree) : Forest View := ((t.unroll t.size [.root]).views t.parameters ⟨[], []⟩).1

end Tree

/-! ## Lists of statements -/

namespace Forest

variable {P : Construct → List Declared} {e : Entry} {b r f g : Forest Entry} {k : Block}

@[simp] theorem views_nil : (nil : Forest Entry).views P k = (nil, k) := rfl

theorem views_append : (f ++ g).views P k =
    ((f.views P k).1 ++ (g.views P (f.views P k).2).1, (g.views P (f.views P k).2).2) := by
  induction f generalizing k with
  | nil => rfl
  | node e b r _ ihr =>
    rw [node_append, views, ihr]
    rfl

theorem map_entry_views : (f.views P k).1.map View.entry = f := by
  induction f generalizing k with
  | nil => rfl
  | node e b r ihb ihr =>
    rw [views, map_node, ihb, ihr]

theorem entry_mem_of_views {x : View} (h : x ∈ (f.views P k).1.members) : x.entry ∈ f.members := by
  have hm : x.entry ∈ (f.views P k).1.members.map View.entry := List.mem_map_of_mem h
  rwa [← members_map, map_entry_views] at hm

theorem exists_below_of_views {x : View} {o : Forest View} (h : (x, o) ∈ (f.views P k).1.subtrees) :
    ∃ b, (x.entry, b) ∈ f.subtrees ∧ o = (b.views P ⟨P x.entry.node.construct ++ x.visible, []⟩).1 := by
  induction f generalizing k with
  | nil => cases h
  | node e b r ihb ihr =>
    rw [views, subtrees, List.mem_cons, List.mem_append] at h
    rw [subtrees]
    rcases h with heq | h | h
    · cases heq
      exact ⟨b, List.mem_cons_self, rfl⟩
    · obtain ⟨b', hb', ho⟩ := ihb h
      exact ⟨b', by simp [hb'], ho⟩
    · obtain ⟨b', hb', ho⟩ := ihr h
      exact ⟨b', by simp [hb'], ho⟩

/-- What is visible after a statement as it was made. -/
def plainAfter (P : Construct → List Declared) (e : Entry) (b : Forest Entry) (visible : List Declared) :
    List Declared :=
  e.node.construct.visibleAfter e.node.span visible (b.views P ⟨P e.node.construct ++ visible, []⟩).2.visible

theorem views_plain (h : e.Plain) : (node e b r).views P k =
    (.node ⟨e, k.visible⟩ (b.views P ⟨P e.node.construct ++ k.visible, []⟩).1
      (r.views P { k with visible := plainAfter P e b k.visible }).1,
      (r.views P { k with visible := plainAfter P e b k.visible }).2) := by
  have hopened : k.opened e.node = k := by simp [Block.opened, h.actions_eq]
  rw [views, hopened]
  simp [Block.closed, h.actions_eq, Node.visibleAfter, h.status_eq, plainAfter]

/-! ## Copies -/

/-- The same names in front of two lists. -/
def Shifted (V V' W W' : List Declared) : Prop := ∃ M, W = M ++ V ∧ W' = M ++ V'

theorem Shifted.visibleAfter {V V' visible visible' inside inside' : List Declared} (h : Shifted V V' visible visible')
    (hi : Shifted V V' inside inside') (c : Construct) (rename : Slot → Slot) (span : Span) :
    Shifted V V' (c.visibleAfter span visible inside) ((c.mapSlots rename).visibleAfter span visible' inside') := by
  cases c with
  | declaration type name isReference =>
    obtain ⟨M, rfl, rfl⟩ := h
    exact ⟨⟨name, span⟩ :: M, rfl, rfl⟩
  | binary | group | caseLabel => exact hi
  | _ => exact h

/-- In a copy elsewhere, the same is visible besides what is visible all around. -/
theorem views_copied {P' : Construct → List Declared} {V V' : List Declared} {rename : Slot → Slot} {k k' : Block}
    (hP : ∀ e ∈ b.members, P' (e.node.construct.mapSlots rename) = P e.node.construct)
    (hb : ∀ e ∈ b.members, e.Plain) (hk : Shifted V V' k.visible k'.visible) :
    Shifted V V' (b.views P k).2.visible ((b.map (Entry.copied rename)).views P' k').2.visible ∧
      List.Forall₂ (fun x x' => x'.entry = x.entry.copied rename ∧ Shifted V V' x.visible x'.visible)
        (b.views P k).1.members ((b.map (Entry.copied rename)).views P' k').1.members := by
  induction b generalizing k k' with
  | nil => exact ⟨hk, .nil⟩
  | node e b r ihb ihr =>
    simp only [members_node, List.forall_mem_cons, List.forall_mem_append] at hP hb
    have hcopied : (e.copied rename).Plain := rfl
    have hinside : Shifted V V' (P e.node.construct ++ k.visible)
        (P' (e.copied rename).node.construct ++ k'.visible) := by
      obtain ⟨M, hM, hM'⟩ := hk
      refine ⟨P e.node.construct ++ M, by rw [hM, List.append_assoc], ?_⟩
      rw [hM', ← List.append_assoc, ← hP.1]
      rfl
    obtain ⟨hvisible, hmembers⟩ := @ihb ⟨P e.node.construct ++ k.visible, []⟩
      ⟨P' (e.copied rename).node.construct ++ k'.visible, []⟩ hP.2.1 hb.2.1 hinside
    have hafter : Shifted V V' (plainAfter P e b k.visible)
        (plainAfter P' (e.copied rename) (b.map (Entry.copied rename)) k'.visible) :=
      hk.visibleAfter hvisible e.node.construct rename e.node.span
    obtain ⟨hend, hrest⟩ := @ihr { k with visible := plainAfter P e b k.visible }
      { k' with visible := plainAfter P' (e.copied rename) (b.map (Entry.copied rename)) k'.visible }
      hP.2.2 hb.2.2 hafter
    rw [map_node, views_plain hb.1, views_plain hcopied]
    exact ⟨hend, .cons ⟨rfl, hk⟩ (List.rel_append hmembers hrest)⟩

end Forest

/-! ## Trees -/

namespace Tree

open Forest

theorem views_eq {t : Tree} {f : Forest Entry} (h : t.Stands none 0 f) (hroot : f.rootSlots = [.root])
    (hu : ∀ e ∈ f.members, e.unlinked = e) : t.views = (f.views t.parameters ⟨[], []⟩).1 := by
  have hmap : ∀ {g : Forest Entry}, (∀ e ∈ g.members, e.unlinked = e) → g.map Entry.unlinked = g := by
    intro g hg
    induction g with
    | nil => rfl
    | node e b r ihb ihr =>
      simp only [members_node, List.forall_mem_cons, List.forall_mem_append] at hg
      rw [map_node, hg.1, ihb hg.2.1, ihr hg.2.2]
  rw [views, ← hroot, unroll_eq h.holds h.length_le, hmap hu]

end Tree

end Deferral
