import Deferral.Proofs.Building
import Deferral.Proofs.Climbing
import Deferral.Tree.Outline
import Mathlib.Data.List.Induction

/-!
# What prefix operators and suffixes are applied to

`Expr.tree` is the tree of an expression as C has it: parentheses leave no node, but what stands between them is one
operand. The events of an expression do not tell where parentheses stand. The assembly applies a prefix operator to the
next operand that something takes, and a suffix to the last operand without the operators that wait for it. So an
expression leaves its last operand on the stage, and prefix operators below it (`Expr.staged`); `Expr.built` is the tree
that comes out of it. The two trees agree exactly for faithful expressions (`Expr.built_iff`): no prefix operator stands
before a group with an operator between operands, and no suffix behind a group that is a prefix operator with its
operand.
-/

namespace Deferral

open List hiding take_add

namespace Term

variable {x y : Term} {op : String} {ops ops' : List String} {xs ys : List Term}

/-! ## Terms of expressions -/

/-- A prefix operator on the stage. -/
def waiting (op : String) : Term := ⟨.unary op none, .nil⟩

/-- A prefix operator with its operand. -/
def prefixed (op : String) (x : Term) : Term := ⟨.unary op (some .root), x.forest⟩

/-- Prefix operators, the innermost first, with their operand. -/
def wrap : List String → Term → Term
  | [], x => x
  | op :: ops, x => wrap ops (prefixed op x)

/-- An operator between its operands. -/
def infixed (op : String) (l r : Term) : Term := ⟨.binary op .root .root, .join [l.forest, r.forest]⟩

/-- A suffix with what it is applied to and its operands. -/
def applied (s : Suffix) (base : Term) (operands : List Term) : Term :=
  ⟨.suffixed s .root, base.forest ++ .join (operands.map forest)⟩

/-- No prefix operator with its operand, nor one without. -/
def Solid (x : Term) : Prop := x.label.tag ≠ .unary

theorem Solid.waits (h : x.Solid) : x.waits = false := by
  refine Bool.eq_false_iff.2 fun hw => h ?_
  obtain ⟨op, hop⟩ := Construct.exists_unary hw
  rw [hop]
  rfl

theorem wrap_append (x : Term) : ∀ (ops : List String) (op : String), wrap (ops ++ [op]) x = prefixed op (wrap ops x)
  | [], _ => rfl
  | op' :: ops, op => by rw [cons_append, wrap, wrap_append _ ops, wrap]

/-! ### Equal terms have equal parts -/

theorem forest_inj (h : x.forest = y.forest) : x = y := by
  obtain ⟨l, d⟩ := x
  obtain ⟨l', d'⟩ := y
  obtain ⟨rfl, rfl, -⟩ := Forest.node.inj h
  rfl

theorem join_forest_inj : ∀ {xs ys : List Term}, Forest.join (xs.map forest) = Forest.join (ys.map forest) → xs = ys
  | [], [], _ => rfl
  | [], _ :: _, h => by cases h
  | _ :: _, [], h => by cases h
  | x :: xs, y :: ys, h => by
    obtain ⟨hl, hd, hr⟩ := Forest.node.inj h
    rw [forest_inj (x := x) (y := y) (by rw [forest, forest, hl, hd]), join_forest_inj hr]

theorem prefixed_inj {op' : String} (h : prefixed op x = prefixed op' y) : op = op' ∧ x = y := by
  obtain ⟨hl, hd⟩ := Term.mk.inj h
  exact ⟨(Construct.unary.inj hl).1, forest_inj hd⟩

theorem infixed_inj {l r l' r' : Term} : infixed op l r = infixed op l' r' ↔ l = l' ∧ r = r' := by
  constructor
  · intro h
    have hlist : [l, r] = [l', r'] := join_forest_inj (Term.mk.inj h).2
    exact ⟨(List.cons.inj hlist).1, (List.cons.inj (List.cons.inj hlist).2).1⟩
  · rintro ⟨rfl, rfl⟩
    rfl

theorem applied_inj {s : Suffix} : applied s x xs = applied s y ys ↔ x = y ∧ xs = ys := by
  constructor
  · intro h
    have hlist : x :: xs = y :: ys := join_forest_inj (Term.mk.inj h).2
    exact List.cons.inj hlist
  · rintro ⟨rfl, rfl⟩
    rfl

theorem wrap_inj (hx : x.Solid) (hy : y.Solid) : wrap ops x = wrap ops' y ↔ ops = ops' ∧ x = y := by
  constructor
  · intro h
    -- The outermost operator is the last one.
    induction ops using List.reverseRecOn generalizing ops' with
    | nil =>
      cases ops' using List.reverseRecOn with
      | nil => exact ⟨rfl, h⟩
      | append_singleton ops' op' =>
        rw [wrap_append, wrap] at h
        exact absurd (by rw [h]; rfl) hx
    | append_singleton ops op ih =>
      rw [wrap_append] at h
      cases ops' using List.reverseRecOn with
      | nil =>
        rw [wrap] at h
        exact absurd (by rw [← h]; rfl) hy
      | append_singleton ops' op' =>
        rw [wrap_append] at h
        obtain ⟨rfl, hxy⟩ := prefixed_inj h
        obtain ⟨rfl, rfl⟩ := ih hxy
        exact ⟨rfl, rfl⟩
  · rintro ⟨rfl, rfl⟩
    rfl

/-! ### Operators on the stage -/

theorem fold_waiting (hs : Settled xs) : ∀ (ops : List String) (x : Term),
    fold x (ops.map waiting ++ xs) = (wrap ops x, xs)
  | [], _ => fold_of_settled hs
  | _ :: ops, x => (fold_waits rfl x _).trans (fold_waiting hs ops _)

theorem take_one_waiting (hs : Settled xs) (ops : List String) (x : Term) (later : List Term) :
    take 1 later (x :: (ops.map waiting ++ xs)) = (wrap ops x :: later, xs) := by
  rw [take, fold_waiting hs, take]

end Term

namespace Grammar

open Term

variable (source : List UInt8)

/-! ## The tree of an expression, and what is built -/

mutual

/-- The tree of an expression. -/
def Expr.tree : Expr → Term
  | .name t => ⟨.identifier t.1.literal, .nil⟩
  | .constant t => ⟨.constant t.1.literal, .nil⟩
  | .strings t more _ => ⟨.constant (sliceOf source t.start (lastStop t.stop more)), .nil⟩
  | .measure k g => ⟨.constant (sliceOf source k.1.start g.closing.stop), .nil⟩
  | .sign op e => prefixed op.1.text e.tree
  | .sizeOf _ e => prefixed "sizeof" e.tree
  | .cast g e => prefixed (sliceOf source g.opening.start g.closing.stop) e.tree
  | .group _ e _ => e.tree
  | .binary l op r => infixed op.token.text l.tree r.tree
  | .conditional c _ y _ n => infixed "?" c.tree (infixed ":" y.tree n.tree)
  | .call b _ as _ => applied .call b.tree as.trees
  | .index b _ e _ => applied .index b.tree [e.tree]
  | .member b p f => applied ((Assembly.member? (p.1.text ++ f.1.literal)).getD .call) b.tree []
  | .increment b op => applied ((Assembly.increment? op.1.text).getD .call) b.tree []

def Args.trees : Args → List Term
  | .none => []
  | .last e => [e.tree]
  | .more e _ rest => e.tree :: rest.trees

end

mutual

/-- What an expression leaves on the stage where the operators `ops` wait, the innermost first: its operand, and the
operators that still wait for it. -/
def Expr.staged (ops : List String) : Expr → Term × List String
  | .name t => (⟨.identifier t.1.literal, .nil⟩, ops)
  | .constant t => (⟨.constant t.1.literal, .nil⟩, ops)
  | .strings t more _ => (⟨.constant (sliceOf source t.start (lastStop t.stop more)), .nil⟩, ops)
  | .measure k g => (⟨.constant (sliceOf source k.1.start g.closing.stop), .nil⟩, ops)
  | .sign op e => e.staged (op.1.text :: ops)
  | .sizeOf _ e => e.staged ("sizeof" :: ops)
  | .cast g e => e.staged (sliceOf source g.opening.start g.closing.stop :: ops)
  | .group _ e _ => e.staged ops
  | .binary l op r =>
    (infixed op.token.text (wrap (l.staged ops).2 (l.staged ops).1) (wrap (r.staged []).2 (r.staged []).1), [])
  | .conditional c _ y _ n =>
    (infixed "?" (wrap (c.staged ops).2 (c.staged ops).1)
      (infixed ":" (wrap (y.staged []).2 (y.staged []).1) (wrap (n.staged []).2 (n.staged []).1)), [])
  | .call b _ as _ => (applied .call (b.staged ops).1 as.built, (b.staged ops).2)
  | .index b _ e _ => (applied .index (b.staged ops).1 [wrap (e.staged []).2 (e.staged []).1], (b.staged ops).2)
  | .member b p f =>
    (applied ((Assembly.member? (p.1.text ++ f.1.literal)).getD .call) (b.staged ops).1 [], (b.staged ops).2)
  | .increment b op => (applied ((Assembly.increment? op.1.text).getD .call) (b.staged ops).1 [], (b.staged ops).2)

def Args.built : Args → List Term
  | .none => []
  | .last e => [wrap (e.staged []).2 (e.staged []).1]
  | .more e _ rest => wrap (e.staged []).2 (e.staged []).1 :: rest.built

end

/-- The tree that is built for an expression after the operators `ops`. -/
def Expr.builtUnder (ops : List String) (e : Expr) : Term := wrap (e.staged source ops).2 (e.staged source ops).1

/-- The tree that is built for an expression. -/
def Expr.built (e : Expr) : Term := e.builtUnder source []

theorem Expr.solid_staged : ∀ (e : Expr) (ops : List String), (e.staged source ops).1.Solid
  | .name _, _ | .constant _, _ | .strings _ _ _, _ | .measure _ _, _ => nofun
  | .sign _ e, _ | .sizeOf _ e, _ | .cast _ e, _ | .group _ e _, _ => e.solid_staged _
  | .binary _ _ _, _ | .conditional _ _ _ _ _, _ | .call _ _ _ _, _ | .index _ _ _ _, _ | .member _ _ _, _
  | .increment _ _, _ => nofun

theorem Expr.settled_staged (e : Expr) (ops : List String) (xs : List Term) :
    Settled ((e.staged source ops).1 :: xs) :=
  settled_cons.2 (e.solid_staged source ops).waits

/-! ## The stage after an expression -/

theorem combined_waiting {op : String} {x y : Term} {xs : List Term} (hx : Settled xs) (hy : y.waits = false)
    (ops ops' : List String) :
    combined (.binary op .root .root) 2 (x :: (ops.map waiting ++ y :: (ops'.map waiting ++ xs))) =
      infixed op (wrap ops' y) (wrap ops x) :: xs := by
  have htake : take 2 [] (x :: (ops.map waiting ++ y :: (ops'.map waiting ++ xs))) =
      ([wrap ops' y, wrap ops x], xs) := by
    rw [take_add 1 1, take_one_waiting (settled_cons.2 hy), take_one_waiting hx]
  rw [combined, htake]
  rfl

theorem suffixed_waiting {s : Suffix} {n : Nat} {base : Term} {operands xs ys : List Term}
    (h : take n [] xs = (operands, base :: ys)) : suffixed s n xs = applied s base operands :: ys := by
  rw [suffixed, h]
  rfl

mutual

/-- What an expression leaves on the stack is what it leaves on the stage. -/
theorem Expr.push_eq : ∀ (e : Expr) (ops : List String) {xs : List Term}, Settled xs →
    e.push source (ops.map waiting ++ xs) = (e.staged source ops).1 :: ((e.staged source ops).2.map waiting ++ xs)
  | .name _, _, _, _ | .constant _, _, _, _ | .strings _ _ _, _, _, _ | .measure _ _, _, _, _ => rfl
  | .sign op e, ops, _, hs => e.push_eq (op.1.text :: ops) hs
  | .sizeOf _ e, ops, _, hs => e.push_eq ("sizeof" :: ops) hs
  | .cast _ e, ops, _, hs => e.push_eq (_ :: ops) hs
  | .group _ e _, ops, _, hs => e.push_eq ops hs
  | .binary l _ r, ops, xs, hs => by
    have hr := r.push_eq [] (l.settled_staged source ops ((l.staged source ops).2.map waiting ++ xs))
    simp only [map_nil, nil_append] at hr
    rw [Expr.push, l.push_eq ops hs, hr, combined_waiting hs (l.solid_staged source ops).waits]
    rfl
  | .conditional c _ y _ n, ops, xs, hs => by
    have hc := c.settled_staged source ops ((c.staged source ops).2.map waiting ++ xs)
    have hy := y.push_eq [] hc
    have hn := n.push_eq [] (y.settled_staged source [] ((y.staged source []).2.map waiting ++
      (c.staged source ops).1 :: ((c.staged source ops).2.map waiting ++ xs)))
    simp only [map_nil, nil_append] at hy hn
    rw [Expr.push, c.push_eq ops hs, hy, hn, combined_waiting hc (y.solid_staged source []).waits]
    exact combined_waiting hs (c.solid_staged source ops).waits [] _
  | .call b _ as _, ops, xs, hs => by
    rw [Expr.push, b.push_eq ops hs]
    exact suffixed_waiting ((as.take_push [] (b.settled_staged source ops _)).trans (by rw [append_nil]; rfl))
  | .index b _ e _, ops, xs, hs => by
    have hb := b.settled_staged source ops ((b.staged source ops).2.map waiting ++ xs)
    have he := e.push_eq [] hb
    simp only [map_nil, nil_append] at he
    rw [Expr.push, b.push_eq ops hs, he]
    exact suffixed_waiting (take_one_waiting hb _ _ _)
  | .member b _ _, ops, xs, hs | .increment b _, ops, xs, hs => by
    rw [Expr.push, b.push_eq ops hs]
    exact suffixed_waiting rfl

theorem Args.take_push : ∀ (as : Args) (later : List Term) {xs : List Term}, Settled xs →
    take as.count later (as.push source xs) = (as.built source ++ later, xs)
  | .none, _, _, _ => rfl
  | .last e, later, xs, hs => by
    have he := e.push_eq [] hs
    simp only [map_nil, nil_append] at he
    rw [Args.push, he]
    exact take_one_waiting hs _ _ _
  | .more e _ rest, later, xs, hs => by
    have he := e.push_eq [] hs
    simp only [map_nil, nil_append] at he
    rw [Args.push, he, Args.count, take_add, rest.take_push later (e.settled_staged source [] _)]
    exact take_one_waiting hs _ _ _

end

/-! ## Faithful expressions -/

/-- Behind its parentheses and suffixes, the expression has an operator between operands. -/
def Expr.isCompound : Expr → Bool
  | .binary .. | .conditional .. => true
  | .group _ e _ => e.isCompound
  | .call b _ _ _ | .index b _ _ _ | .member b _ _ | .increment b _ => b.isCompound
  | .name _ | .constant _ | .strings _ _ _ | .measure _ _ | .sign _ _ | .sizeOf _ _ | .cast _ _ => false

/-- Behind its parentheses, the expression is a prefix operator with its operand. -/
def Expr.isPrefixed : Expr → Bool
  | .sign .. | .sizeOf .. | .cast .. => true
  | .group _ e _ => e.isPrefixed
  | _ => false

mutual

/-- No prefix operator is applied to a compound expression, and no suffix to a prefixed one. -/
def Expr.isFaithful : Expr → Bool
  | .name _ | .constant _ | .strings _ _ _ | .measure _ _ => true
  | .sign _ e | .sizeOf _ e | .cast _ e => !e.isCompound && e.isFaithful
  | .group _ e _ => e.isFaithful
  | .binary l _ r => l.isFaithful && r.isFaithful
  | .conditional c _ y _ n => c.isFaithful && (y.isFaithful && n.isFaithful)
  | .call b _ as _ => (!b.isPrefixed && b.isFaithful) && as.isFaithful
  | .index b _ e _ => (!b.isPrefixed && b.isFaithful) && e.isFaithful
  | .member b _ _ | .increment b _ => !b.isPrefixed && b.isFaithful

def Args.isFaithful : Args → Bool
  | .none => true
  | .last e => e.isFaithful
  | .more e _ rest => e.isFaithful && rest.isFaithful

end

variable {source}

/-- Where the tree that is built is the tree of the expression, with the operators that wait before it, and where the
expression is left as one operand. -/
structure Expr.Grouped (source : List UInt8) (e : Expr) : Prop where
  built : ∀ ops, e.builtUnder source ops = wrap ops (e.tree source) ↔
    e.isFaithful = true ∧ (ops = [] ∨ e.isCompound = false)
  staged : ∀ ops, e.staged source ops = (e.tree source, ops) ↔
    (e.isPrefixed = false ∧ e.isFaithful = true) ∧ (ops = [] ∨ e.isCompound = false)

namespace Expr

theorem grouped_leaf {e : Expr} (hs : ∀ ops, e.staged source ops = (e.tree source, ops)) (hf : e.isFaithful = true)
    (hp : e.isPrefixed = false) (hc : e.isCompound = false) : e.Grouped source where
  built ops := by simp [builtUnder, hs, hf, hc]
  staged ops := by simp [hs, hf, hp, hc]

theorem grouped_prefixed {e e' : Expr} {op : String} (h : e.Grouped source)
    (hs : ∀ ops, e'.staged source ops = e.staged source (op :: ops)) (ht : e'.tree source = prefixed op (e.tree source))
    (hf : e'.isFaithful = (!e.isCompound && e.isFaithful)) (hp : e'.isPrefixed = true) (hc : e'.isCompound = false) :
    e'.Grouped source where
  built ops := by
    have hbuilt := h.built (op :: ops)
    simp only [builtUnder, hs, ht, hf, hc] at hbuilt ⊢
    simpa [wrap, and_comm] using hbuilt
  staged ops := by
    have hne : e'.staged source ops ≠ (e'.tree source, ops) := fun heq => by
      have hsolid := e'.solid_staged source ops
      rw [heq, ht] at hsolid
      exact hsolid rfl
    simp [hne, hp]

/-- An operator between operands takes the operators that wait before it to its left operand. -/
theorem grouped_compound {e l : Expr} {op : String} {x y : Term} {q : Bool} (h : l.Grouped source)
    (hs : ∀ ops, e.staged source ops = (infixed op (l.builtUnder source ops) x, []))
    (ht : e.tree source = infixed op (l.tree source) y) (hxy : x = y ↔ q = true)
    (hf : e.isFaithful = (l.isFaithful && q)) (hp : e.isPrefixed = false) (hc : e.isCompound = true) :
    e.Grouped source := by
  have hbuilt : l.builtUnder source [] = l.tree source ↔ l.isFaithful = true := by simpa [wrap] using h.built []
  constructor
  · intro ops
    have hx : (infixed op (l.builtUnder source ops) x).Solid := nofun
    have hy : (infixed op (l.tree source) y).Solid := nofun
    rw [builtUnder, hs, ht, wrap_inj hx hy, infixed_inj]
    dsimp only
    constructor
    · rintro ⟨rfl, hl, hr⟩
      simp [hf, hbuilt.1 hl, hxy.1 hr]
    · rintro ⟨hfaithful, rfl | hn⟩
      · rw [hf, Bool.and_eq_true] at hfaithful
        exact ⟨rfl, hbuilt.2 hfaithful.1, hxy.2 hfaithful.2⟩
      · rw [hc] at hn
        cases hn
  · intro ops
    rw [hs, ht, Prod.mk.injEq, infixed_inj]
    constructor
    · rintro ⟨⟨hl, hr⟩, rfl⟩
      simp [hf, hp, hbuilt.1 hl, hxy.1 hr]
    · rintro ⟨⟨-, hfaithful⟩, rfl | hn⟩
      · rw [hf, Bool.and_eq_true] at hfaithful
        exact ⟨⟨hbuilt.2 hfaithful.1, hxy.2 hfaithful.2⟩, rfl⟩
      · rw [hc] at hn
        cases hn

theorem grouped_suffixed {e b : Expr} {s : Suffix} {xs ys : List Term} {q : Bool} (h : b.Grouped source)
    (hs : ∀ ops, e.staged source ops = (applied s (b.staged source ops).1 xs, (b.staged source ops).2))
    (ht : e.tree source = applied s (b.tree source) ys) (hxy : xs = ys ↔ q = true)
    (hf : e.isFaithful = ((!b.isPrefixed && b.isFaithful) && q)) (hp : e.isPrefixed = false)
    (hc : e.isCompound = b.isCompound) : e.Grouped source := by
  have key (ops : List String) : ((b.staged source ops).1 = b.tree source ∧ xs = ys) ∧ (b.staged source ops).2 = ops ↔
      e.isFaithful = true ∧ (ops = [] ∨ e.isCompound = false) := by
    have hb := h.staged ops
    rw [Prod.ext_iff] at hb
    rw [and_right_comm, hb, hxy, hf, hc]
    simp only [Bool.and_eq_true, Bool.not_eq_true']
    rw [and_right_comm]
  constructor
  · intro ops
    have hx : (applied s (b.staged source ops).1 xs).Solid := nofun
    have hy : (applied s (b.tree source) ys).Solid := nofun
    rw [builtUnder, hs, ht, wrap_inj hx hy, applied_inj, and_comm, key]
  · intro ops
    rw [hs, ht, Prod.mk.injEq, applied_inj, key, hp]
    simp

end Expr

mutual

theorem Expr.grouped : ∀ e : Expr, e.Grouped source
  | .name _ | .constant _ | .strings _ _ _ | .measure _ _ => Expr.grouped_leaf (fun _ => rfl) rfl rfl rfl
  | .sign _ e | .sizeOf _ e | .cast _ e => Expr.grouped_prefixed e.grouped (fun _ => rfl) rfl rfl rfl rfl
  | .group _ e _ => ⟨e.grouped.built, e.grouped.staged⟩
  | .binary l _ r => Expr.grouped_compound l.grouped (fun _ => rfl) rfl r.built_iff rfl rfl rfl
  | .conditional c _ y _ n => by
    refine Expr.grouped_compound c.grouped (fun _ => rfl) rfl ?_ rfl rfl rfl
    rw [infixed_inj, Bool.and_eq_true]
    exact and_congr y.built_iff n.built_iff
  | .call b _ as _ => Expr.grouped_suffixed b.grouped (fun _ => rfl) rfl as.built_iff rfl rfl rfl
  | .index b _ e _ => by
    refine Expr.grouped_suffixed b.grouped (fun _ => rfl) rfl ?_ rfl rfl rfl
    rw [singleton_inj]
    exact e.built_iff
  | .member b _ _ | .increment b _ =>
    Expr.grouped_suffixed (q := true) b.grouped (fun _ => rfl) rfl (by simp) (by rw [Bool.and_true]; rfl) rfl rfl

theorem Expr.built_iff : ∀ e : Expr, e.builtUnder source [] = e.tree source ↔ e.isFaithful = true
  | e => by simpa [wrap] using e.grouped.built []

theorem Args.built_iff : ∀ as : Args, as.built source = as.trees source ↔ as.isFaithful = true
  | .none => by simp [Args.built, Args.trees, Args.isFaithful]
  | .last e => by
    rw [Args.built, Args.trees, singleton_inj]
    exact e.built_iff
  | .more e _ rest => by
    rw [Args.built, Args.trees, List.cons.injEq, Args.isFaithful, Bool.and_eq_true]
    exact and_congr e.built_iff rest.built_iff

end

end Grammar

/-! ## Terms in a tree -/

/-- The node in a slot, with everything below it, is the term `x`. -/
def Tree.Shows (t : Tree) (s : Slot) (x : Term) : Prop :=
  ∃ (p? : Option Slot) (y : Entry) (d : Forest Entry), t.Holds p? (Forest.tree y d) ∧ y.slot = s ∧ y.term d = x

theorem Tree.Holds.bare_unique {t : Tree} : ∀ {f g : Forest Entry} {p? q? : Option Slot}, t.Holds p? f → t.Holds q? g →
    f.rootSlots = g.rootSlots → f.map (·.node.construct.bare) = g.map (·.node.construct.bare)
  | .nil, .nil, _, _, _, _, _ => rfl
  | .nil, .node _ _ _, _, _, _, _, h => by cases h
  | .node _ _ _, .nil, _, _, _, _, h => by cases h
  | .node x b r, .node y d k, p?, q?, ⟨hx, hb, hr⟩, ⟨hy, hd, hk⟩, h => by
    obtain ⟨hslot, hroots⟩ := List.cons.inj h
    have hnode : x.linked b.rootSlots p? = y.linked d.rootSlots q? := by
      rw [← hx, ← hy, show x.slot = y.slot from hslot]
    obtain ⟨hconstruct, -, -, hchildren, -⟩ := Node.mk.inj hnode
    simp only [Forest.map, hconstruct, bare_unique hb hd hchildren, bare_unique hr hk hroots]

theorem Tree.Shows.unique {t : Tree} {s : Slot} {x y : Term} (hx : t.Shows s x) (hy : t.Shows s y) : x = y := by
  obtain ⟨_, x, d, hx, rfl, rfl⟩ := hx
  obtain ⟨_, y, k, hy, hs, rfl⟩ := hy
  exact Term.forest_inj (hx.bare_unique hy (by rw [Forest.rootSlots_tree, Forest.rootSlots_tree, hs]))

namespace Grammar

open Term Assembly

variable {source : List UInt8} {a : Assembly}

/-- Between statements, the events of an expression are taken, and there is then one operand to take. -/
theorem Expr.takes_built (hf : a.failure? = none) (hbase : a.statementBase = a.height) (e : Expr) {p : Nat}
    (ho : Ordered p e.tokens) (hl : ∀ ev ∈ e.events source, ev.legible = true) (stop : Event) :
    ∃ b s b', Takes a (e.events source) b ∧ popSingle stop b = .ok s b' ∧ b'.staged = a.staged ∧
      b'.tree.Shows s (e.built source) := by
  have H : Holding a a p p .nil .nil := ⟨.refl a, rfl, hbase, rfl, Tree.stands_nil, le_rfl, by simp⟩
  obtain ⟨t, l, f, htakes, H₁, hterms, -⟩ := H.run hf (Expr.rising ho) (e.pushes hl)
  obtain ⟨t', l', z, k, hz, H₂, -, htake⟩ := H₁.popSingle (e := stop) (hterms ▸ e.topped source [])
  have hnil : Settled [] := nofun
  have hpush := e.push_eq source [] hnil
  simp only [map_nil, nil_append] at hpush
  refine ⟨_, z.slot, _, htakes, hz, H₂.staged, none, z, k, by simpa using H₂.stands.holds, rfl, ?_⟩
  rw [hterms, Forest.terms_nil, hpush, Term.take,
    fold_waiting hnil (e.staged source []).2 (e.staged source []).1] at htake
  exact (List.cons.inj (congrArg Prod.fst htake)).1.symm

/-- **Grouping.** An expression with at least the parentheses that the ranks of its operators ask for is passed up to
the semicolon behind it, and its events leave one operand. Its tree is the tree of the expression exactly if the
expression is faithful: no prefix operator stands before a group with an operator between operands, and no suffix behind
a group that is a prefix operator with its operand. -/
theorem built_of_proper (source : List UInt8) (before rest : List Token) (e : Expr) (semicolon : Punct ";") (c : Cursor)
    (n : Nat) (a : Assembly) (stop : Event) (hsize : source.length < 2 ^ 64)
    (hscan : Token.scan source = .ok (before ++ (e.tokens ++ semicolon.1 :: rest))) (hsource : c.source = source)
    (hr : c.rest = e.tokens ++ semicolon.1 :: rest) (hkeyword : "sizeof" ∉ c.typeNames)
    (hproper : e.isProper c.typeNames = true) (hn : 3 * e.tokens.length < n) (hf : a.failure? = none)
    (hbase : a.statementBase = a.height) :
    ∃ c' b s b', expression n anyPower c = .ok () c' ∧ c'.rest = semicolon.1 :: rest ∧
      c'.events.toList = c.events.toList ++ e.events source ∧ Takes a (e.events source) b ∧
      popSingle stop b = .ok s b' ∧ b'.staged = a.staged ∧
      (∀ x, b'.tree.Shows s x ↔ x = e.built source) ∧ (b'.tree.Shows s (e.tree source) ↔ e.isFaithful = true) := by
  subst hsource
  obtain ⟨c', hm, he⟩ := e.recognized.climbs.passes anyPower (n := n) ⟨hkeyword, hproper, hr⟩
    (quiet_closing semicolon.2 (by decide)) (e.steps_le.trans_lt hn) (Nat.zero_le _)
  have hfits := (fits_append.1 (fits_append.1 (Token.scan_ordered hscan)).2).1
  obtain ⟨b, s, b', htakes, hpop, hstaged, hshows⟩ := e.takes_built hf hbase hfits.1 (Expr.legible hsize hfits) stop
  have huniq (x : Term) : b'.tree.Shows s x ↔ x = e.built c.source :=
    ⟨fun hx => hx.unique hshows, fun hx => hx ▸ hshows⟩
  refine ⟨c', b, s, b', he, hm.rest_eq hr, hm.events, htakes, hpop, hstaged, huniq, ?_⟩
  rw [huniq, eq_comm]
  exact e.built_iff

/-- A prefix operator before a suffix, and a suffix behind a group. -/
def gathered : List UInt8 := Utf8.encode "xs = -a[1] + (b, c).d;"

def gatheredExpr : Expr :=
  let token (kind : Token.Kind) (start : Nat) (text : String) : Token := ⟨kind, start, Utf8.encode text⟩
  .binary (.name ⟨token .word 0 "xs", by decide +kernel⟩)
    ⟨token .punct 3 "=", rightward assignmentPower .assignment, rfl, by decide +kernel, by decide +kernel⟩
    (.binary
      (.sign ⟨token .punct 5 "-", by decide +kernel⟩
        (.index (.name ⟨token .word 6 "a", by decide +kernel⟩) ⟨token .punct 7 "[", by decide +kernel⟩
          (.constant ⟨token .number 8 "1", by decide +kernel⟩) ⟨token .punct 9 "]", by decide +kernel⟩))
      ⟨token .punct 11 "+", leftward 12 .binaryOperator, rfl, by decide +kernel, by decide +kernel⟩
      (.member
        (.group ⟨token .punct 13 "(", by decide +kernel⟩
          (.binary (.name ⟨token .word 14 "b", by decide +kernel⟩)
            ⟨token .punct 15 ",", leftward commaPower .binaryOperator, rfl, by decide +kernel, by decide +kernel⟩
            (.name ⟨token .word 17 "c", by decide +kernel⟩))
          ⟨token .punct 18 ")", by decide +kernel⟩)
        ⟨token .punct 19 ".", by decide +kernel⟩ ⟨token .word 20 "d", by decide +kernel⟩))

def gatheredEnd : Punct ";" := ⟨⟨.punct, 21, Utf8.encode ";"⟩, by decide +kernel⟩

theorem scan_gathered : Token.scan gathered = .ok ([] ++ (gatheredExpr.tokens ++ [gatheredEnd.1])) := by
  have h : (Token.scan gathered).toOption = some ([] ++ (gatheredExpr.tokens ++ [gatheredEnd.1])) := by decide +kernel
  cases hs : Token.scan gathered with
  | ok tokens => rw [hs] at h; rw [Option.some.inj h]
  | error e => rw [hs] at h; cases h

set_option maxRecDepth 100000 in
theorem built_of_proper_gathered :
    Token.scan gathered = .ok ([] ++ (gatheredExpr.tokens ++ [gatheredEnd.1])) ∧
    gatheredExpr.isProper Token.libraryTypes = true ∧ gatheredExpr.isFaithful = true ∧
    ∃ b s b', Takes (start []) (gatheredExpr.events gathered) b ∧ popSingle (mark .statementEnd 22) b = .ok s b' ∧
      b'.staged = [] ∧ b'.tree.Shows s (gatheredExpr.tree gathered) := by
  have hproper : gatheredExpr.isProper Token.libraryTypes = true := by decide +kernel
  have hfaithful : gatheredExpr.isFaithful = true := by decide +kernel
  obtain ⟨_, b, s, b', -, -, -, htakes, hpop, hstaged, -, hshows⟩ :=
    built_of_proper gathered [] [] gatheredExpr gatheredEnd
      { source := gathered, rest := gatheredExpr.tokens ++ [gatheredEnd.1] }
      100 (start []) (mark .statementEnd 22) (by decide +kernel) scan_gathered rfl rfl (by decide +kernel) hproper
      (by decide +kernel) rfl rfl
  exact ⟨scan_gathered, hproper, hfaithful, b, s, b', htakes, hpop, hstaged, hshows.2 hfaithful⟩

/-- The negative of a sum. -/
def negatedSum : List UInt8 := Utf8.encode "void f()\x7b -(a + b); \x7d"

/-- The increment of a negative. -/
def incrementedNegative : List UInt8 := Utf8.encode "void f()\x7b (-a)++; \x7d"

set_option maxRecDepth 100000 in
/-- The negative of a sum is built as the sum with the negative of its first summand, and the increment of a negative as
the negative of an increment. -/
theorem not_tree_negatedSum :
    (∃ t, ((start []).build negatedSum).1 = .ok t ∧ t.outlineLines {} .root =
      ["TranslationUnit", "  Function f -> void ()", "    BinaryOp +", "      UnaryOp -", "        Identifier a",
        "      Identifier b"]) ∧
    ∃ t, ((start []).build incrementedNegative).1 = .ok t ∧ t.outlineLines {} .root =
      ["TranslationUnit", "  Function f -> void ()", "    UnaryOp -", "      PostfixExpression ++",
        "        Identifier a"] := by
  constructor
  · exact ⟨_, build_get _ _ (by decide +kernel), by decide +kernel⟩
  · exact ⟨_, build_get _ _ (by decide +kernel), by decide +kernel⟩

end Grammar

end Deferral
