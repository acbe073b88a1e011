import Deferral.Output.Range
import Deferral.Proofs.Held

/-!
# Ranges of a forest

The ranges of a tree are again a forest: a range lies below the range of the nearest node above it that has one. Nodes
without text give way to what is below them, and what is below a removed, an added or a replaced node does not show.
`Forest.ranged` is that forest, and `Range.collect_eq_members` says that collecting the ranges of a tree lists it.
-/

namespace Deferral

/-- How a node shows in the text. -/
inductive Showing where
  | hidden
  /-- One range, and nothing of what is below. -/
  | alone (range : Range)
  /-- Only what is below. -/
  | through
  /-- A range around what is below. -/
  | around (range : Range)

/-- A node that stays in place. -/
def Node.kept (n : Node) (depth : Nat) : Showing :=
  if n.span.isEmpty then .through else .around { Range.ofNode n depth with actions := n.actions }

/-- How a node shows that has ranges around it up to `depth`. -/
def Node.showing (n : Node) (depth : Nat) : Showing :=
  match n.status with
  | .removed =>
    if n.span.isEmpty then .hidden else .alone { Range.ofNode n depth with actions := { omitted := true } }
  | .added =>
    .alone { Range.ofNode n depth with
      spliced := true
      actions := ({ newlineBefore := true, semicolonAfter := true } : Actions).union n.actions }
  | .modified =>
    if n.replacement?.isSome then .alone { Range.ofNode n depth with actions := n.actions } else n.kept depth
  | .clean => n.kept depth

/-- A node that is neither new, removed nor replaced. -/
def Node.Stays (n : Node) : Prop := n.status = .clean ∨ n.status = .modified ∧ n.replacement?.isSome = false

theorem Node.Stays.showing_eq {n : Node} (h : n.Stays) (depth : Nat) : n.showing depth = n.kept depth := by
  unfold showing
  rcases h with h | ⟨h, hr⟩
  · simp only [h]
  · simp only [h, hr, Bool.false_eq_true, if_false]

/-- All ways in which a node shows. -/
inductive Node.Shows (n : Node) (depth : Nat) : Showing → Prop
  | gone (hs : n.status = .removed) (he : n.span.isEmpty = true) : n.Shows depth .hidden
  | omitted (hs : n.status = .removed) (he : n.span.isEmpty = false) :
    n.Shows depth (.alone { Range.ofNode n depth with actions := { omitted := true } })
  | spliced (hs : n.status = .added) :
    n.Shows depth (.alone { Range.ofNode n depth with
      spliced := true
      actions := ({ newlineBefore := true, semicolonAfter := true } : Actions).union n.actions })
  | replaced (hs : n.status = .modified) (hr : n.replacement?.isSome = true) :
    n.Shows depth (.alone { Range.ofNode n depth with actions := n.actions })
  | through (hs : n.Stays) (he : n.span.isEmpty = true) : n.Shows depth .through
  | around (hs : n.Stays) (he : n.span.isEmpty = false) :
    n.Shows depth (.around { Range.ofNode n depth with actions := n.actions })

theorem Node.shows_kept {n : Node} (h : n.Stays) (depth : Nat) : n.Shows depth (n.kept depth) := by
  rw [kept]
  split
  case isTrue he => exact .through h he
  case isFalse he => exact .around h (by simpa using he)

theorem Node.shows (n : Node) (depth : Nat) : n.Shows depth (n.showing depth) := by
  unfold showing
  cases hs : n.status with
  | removed =>
    cases he : n.span.isEmpty with
    | true => exact .gone hs he
    | false => exact .omitted hs he
  | added => exact .spliced hs
  | modified =>
    cases hr : n.replacement?.isSome with
    | true => exact .replaced hs hr
    | false => exact n.shows_kept (.inr ⟨hs, hr⟩) depth
  | clean => exact n.shows_kept (.inl hs) depth

/-- The ranges of a forest, below one another as its nodes are. -/
def Forest.ranged (depth : Nat) : Forest Entry → Forest Range
  | .nil => .nil
  | .node e below rest =>
    (match e.node.showing depth with
      | .hidden => .nil
      | .alone r => .tree r .nil
      | .through => below.ranged depth
      | .around r => .tree r (below.ranged (depth + 1))) ++ rest.ranged depth

namespace Range

open Forest

variable {t : Tree}

theorem Collection.visit_eq (s : Slot) (d : Nat) (c : Collection) :
    Collection.visit t s d c =
      let path := c.path.dropWhile (d ≤ ·)
      match (t.node s).showing path.length with
      | .hidden => ({ c with path }, false)
      | .alone r => ({ ranges := c.ranges.push r, path }, false)
      | .through => ({ c with path }, true)
      | .around r => ({ ranges := c.ranges.push r, path := d :: path }, true) := by
  unfold Collection.visit Node.showing Node.kept Collection.visit.keep
  cases hs : (t.node s).status with
  | removed => by_cases he : (t.node s).span.isEmpty <;> simp [hs, he]
  | added => simp [hs]
  | modified =>
    by_cases hr : (t.node s).replacement?.isSome
    · simp [hs, hr]
    · by_cases he : (t.node s).span.isEmpty <;> simp [hs, hr, he]
  | clean => by_cases he : (t.node s).span.isEmpty <;> simp [hs, he]

theorem dropWhile_succ {path upper : List Nat} {d : Nat} (h : path.dropWhile (d ≤ ·) = upper) :
    upper.dropWhile (d + 1 ≤ ·) = upper ∧ upper.dropWhile (d ≤ ·) = upper := by
  subst h
  induction path with
  | nil => exact ⟨rfl, rfl⟩
  | cons x xs ih =>
    by_cases hx : d ≤ x
    · simpa [hx] using ih
    · have hx' : ¬d + 1 ≤ x := by omega
      simp only [List.dropWhile_cons, hx, hx', decide_false, Bool.false_eq_true, if_false, and_self]

theorem dropWhile_of_below {path upper : List Nat} {d : Nat} (h : path.dropWhile (d + 1 ≤ ·) = upper) :
    path.dropWhile (d ≤ ·) = upper.dropWhile (d ≤ ·) := by
  rw [← h, Tree.dropWhile_dropWhile]
  intro x hx
  simp only [decide_eq_true_eq] at hx ⊢
  omega

/-- Walking over a held forest adds its ranges and leaves the path above it as it was. -/
theorem visitForest_collect {f : Forest Entry} {p? : Option Slot} {d : Nat} {c : Collection} {path : List Nat}
    (h : t.Holds p? f) (hp : c.path.dropWhile (d ≤ ·) = path) :
    (Tree.visitForest (Collection.visit t) d f c).ranges.toList = c.ranges.toList ++ (f.ranged path.length).members ∧
      (Tree.visitForest (Collection.visit t) d f c).path.dropWhile (d ≤ ·) = path := by
  induction f generalizing p? d c path with
  | nil => exact ⟨(List.append_nil _).symm, hp⟩
  | node e b r ihb ihr =>
    obtain ⟨he, hb, hr⟩ := h
    obtain ⟨hbelow, hsame⟩ := dropWhile_succ hp
    have hn : (t.node e.slot).showing path.length = e.node.showing path.length := by rw [he]; rfl
    simp only [Tree.visitForest, Collection.visit_eq, hp, hn, ranged]
    cases e.node.showing path.length with
    | hidden => simpa using ihr hr hsame
    | alone x =>
      obtain ⟨h₁, h₂⟩ := ihr (c := ⟨c.ranges.push x, path⟩) hr hsame
      exact ⟨by simp [h₁], h₂⟩
    | through =>
      obtain ⟨h₁, h₂⟩ := ihb (c := { c with path }) hb hbelow
      obtain ⟨h₃, h₄⟩ := ihr hr ((dropWhile_of_below h₂).trans hsame)
      exact ⟨by simp only [if_true, h₃, h₁, members_append, List.append_assoc], h₄⟩
    | around x =>
      have hx : (d :: path).dropWhile (d + 1 ≤ ·) = d :: path := by simp
      obtain ⟨h₁, h₂⟩ := ihb (c := ⟨c.ranges.push x, d :: path⟩) hb hx
      have hup : (d :: path).dropWhile (d ≤ ·) = path := (List.dropWhile_cons_of_pos (by simp)).trans hsame
      obtain ⟨h₃, h₄⟩ := ihr hr ((dropWhile_of_below h₂).trans hup)
      exact ⟨by simp [h₃, h₁], h₄⟩

theorem conduct_collect {p? : Option Slot} {e : Entry} {b : Forest Entry} {low : Nat}
    (h : t.Stands p? low (.tree e b)) :
    (t.conduct e.slot { enter := Collection.visit t } {}).ranges.toList = ((Forest.tree e b).ranged 0).members := by
  have hv := (visitForest_collect (d := 0) (c := {}) h.holds rfl).1
  rw [Tree.conduct_eq_visit h, Tree.Strategy.visit_enter]
  simpa using hv

theorem collect_eq_members {e : Entry} {b : Forest Entry} {low : Nat} (h : t.Stands none low (.tree e b))
    (he : e.slot = .root) : collect t = ((Forest.tree e b).ranged 0).members := by
  rw [collect, ← he, conduct_collect h]

end Range

namespace Forest

/-- The roots have the given depth, and what is below a range is one deeper. -/
def Levelled : Nat → Forest Range → Prop
  | _, nil => True
  | d, node r below rest => r.depth = d ∧ Levelled (d + 1) below ∧ Levelled d rest

variable {d : Nat}

theorem levelled_append {f g : Forest Range} : (f ++ g).Levelled d ↔ f.Levelled d ∧ g.Levelled d := by
  induction f with
  | nil => simp [Levelled]
  | node r b s _ ih => simp only [node_append, Levelled, ih, and_assoc]

theorem Levelled.le_depth {f : Forest Range} (h : f.Levelled d) : ∀ r ∈ f.members, d ≤ r.depth := by
  induction f generalizing d with
  | nil => simp
  | node x b s ihb ihs =>
    obtain ⟨hx, hb, hs⟩ := h
    intro r hr
    simp only [members_node, List.mem_cons, List.mem_append] at hr
    rcases hr with rfl | hr | hr
    · exact Nat.le_of_eq hx.symm
    · exact Nat.le_of_succ_le (ihb hb r hr)
    · exact ihs hs r hr

theorem levelled_ranged (f : Forest Entry) (d : Nat) : (f.ranged d).Levelled d := by
  induction f generalizing d with
  | nil => trivial
  | node e b r ihb ihr =>
    have hs := e.node.shows d
    rw [ranged]
    generalize e.node.showing d = s at hs
    cases hs with
    | gone => exact ihr d
    | omitted | spliced | replaced => exact ⟨rfl, trivial, ihr d⟩
    | through => exact levelled_append.2 ⟨ihb d, ihr d⟩
    | around => exact ⟨rfl, ihb (d + 1), ihr d⟩

theorem exists_shows {f : Forest Entry} {r : Range} (h : r ∈ (f.ranged d).members) :
    ∃ e ∈ f.members, ∃ k, e.node.Shows k (.alone r) ∨ e.node.Shows k (.around r) := by
  induction f generalizing d with
  | nil => cases h
  | node e b s ihb ihs =>
    have hbelow : (∃ k, r ∈ (b.ranged k).members) → ∃ x ∈ (node e b s).members, ∃ k,
        x.node.Shows k (.alone r) ∨ x.node.Shows k (.around r) := by
      rintro ⟨k, hk⟩
      obtain ⟨x, hx, hs⟩ := ihb hk
      exact ⟨x, by simp [hx], hs⟩
    have hs := e.node.shows d
    rw [ranged, members_append, List.mem_append] at h
    rcases h with h | h
    · generalize e.node.showing d = w at hs h
      cases w with
      | hidden => cases h
      | alone x =>
        obtain rfl : r = x := by simpa using h
        exact ⟨e, by simp, d, .inl hs⟩
      | through => exact hbelow ⟨d, h⟩
      | around x =>
        rcases List.mem_cons.1 h with rfl | h
        · exact ⟨e, by simp, d, .inr hs⟩
        · exact hbelow ⟨d + 1, by simpa using h⟩
    · obtain ⟨x, hx, hs⟩ := ihs h
      exact ⟨x, by simp [hx], hs⟩

end Forest

end Deferral
