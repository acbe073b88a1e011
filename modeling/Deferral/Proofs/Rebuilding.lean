import Deferral.Proofs.Lookup
import Mathlib.Data.List.Induction

/-!
# Expressions from their events

The events of an expression (`Expression.events`) have a prefix operator before its operand and every other operator
behind its operands. A prefix operator waits on the stage until its operand is taken, so an expression leaves the
operators before it and its last operand there (`Expression.Staged`), and other expressions may be staged on top of
that. Taking an operand folds the operators that wait below it; a suffix takes what it applies to as it is. What comes
out is the tree of the expression (`Expression.Is`), as long as no prefix operator is applied to something that is made
by taking two operands or a list of them, and no suffix to a prefix operator with its operand
(`Expression.isAdmissible`). This holds wherever the events come, after any calls (`rebuilt_of_admissible`).
-/

namespace Deferral

/-! ## Expressions and their places in a source -/

/-- A name, a constant or a prefix operator. Where it starts is reported, or its text is all of it. -/
structure Lexeme where
  text : String
  start : Nat
  stop : Nat
  reported : Bool

variable {w : Lexeme} {s s' : Span} {mid : Nat}

namespace Lexeme

def span (w : Lexeme) : Span := ⟨w.start, w.stop⟩

def event (w : Lexeme) (kind : Event.Kind) : Event := ⟨kind, w.stop, w.text, if w.reported then some w.start else none⟩

/-- It stands between two offsets. -/
structure Written (w : Lexeme) (lo hi : Nat) : Prop where
  text : w.text.isEmpty = false
  lower : lo ≤ w.start
  filled : w.start < w.stop
  upper : w.stop ≤ hi
  length : w.reported = false → w.start + w.text.utf8ByteSize = w.stop

instance (w : Lexeme) (lo hi : Nat) : Decidable (w.Written lo hi) :=
  decidable_of_iff (w.text.isEmpty = false ∧ lo ≤ w.start ∧ w.start < w.stop ∧ w.stop ≤ hi ∧
      (w.reported = false → w.start + w.text.utf8ByteSize = w.stop))
    ⟨fun ⟨h₁, h₂, h₃, h₄, h₅⟩ => ⟨h₁, h₂, h₃, h₄, h₅⟩, fun ⟨h₁, h₂, h₃, h₄, h₅⟩ => ⟨h₁, h₂, h₃, h₄, h₅⟩⟩

end Lexeme

namespace Suffix

/-- How a suffix with `n` operands that ends at `stop` is reported. -/
def event (n stop : Nat) : Suffix → Event
  | .call => ⟨.postfixCall, stop, toString n, none⟩
  | .index => ⟨.postfixIndex, stop, "", none⟩
  | .member field arrow => ⟨.postfixMember, stop, (member field arrow).text, none⟩
  | .increment down => ⟨.postfixIncrement, stop, (increment down).text, none⟩

/-- The suffix can have `n` operands. -/
def Fits (n : Nat) : Suffix → Prop
  | .call => True
  | .index => n = 1
  | .member field _ => n = 0 ∧ field.isEmpty = false
  | .increment _ => n = 0

end Suffix

mutual

/-- An expression as a tree. All but prefix operators are reported where they end, at `stop`. -/
inductive Expression where
  | name (w : Lexeme)
  | constant (w : Lexeme)
  | prefixed (op : Lexeme) (operand : Expression)
  | infixed (kind : { k : Event.Kind // k.isConnective = true }) (op : String) (left right : Expression) (stop : Nat)
  | suffixed (suffix : Suffix) (base : Expression) (operands : Expressions) (stop : Nat)
  | list (members : Expressions) (stop : Nat)

inductive Expressions where
  | none
  | more (first : Expression) (rest : Expressions)

end

def Expressions.count : Expressions → Nat
  | .none => 0
  | .more _ rest => rest.count + 1

mutual

/-- The events of an expression. -/
def Expression.events : Expression → List Event
  | .name w => [w.event .identifier]
  | .constant w => [w.event .constant]
  | .prefixed op x => op.event .unaryOperator :: x.events
  | .infixed kind op l r stop => l.events ++ (r.events ++ [⟨kind, stop, op, none⟩])
  | .suffixed s x xs stop => x.events ++ (xs.events ++ [s.event xs.count stop])
  | .list xs stop => xs.events ++ [⟨.initializerList, stop, toString xs.count, none⟩]

def Expressions.events : Expressions → List Event
  | .none => []
  | .more x xs => x.events ++ xs.events

end

mutual

/-- The text of the expression lies between two offsets, with its parts in order. -/
def Expression.Written : Expression → (lo hi : Nat) → Prop
  | .name w, lo, hi => w.Written lo hi
  | .constant w, lo, hi => w.Written lo hi
  | .prefixed op x, lo, hi => op.Written lo op.stop ∧ x.Written op.stop hi
  | .infixed _ op l r stop, lo, hi => op.isEmpty = false ∧ ∃ mid, l.Written lo mid ∧ r.Written mid stop ∧ stop ≤ hi
  | .suffixed s x xs stop, lo, hi => s.Fits xs.count ∧ ∃ mid, x.Written lo mid ∧ xs.Written mid stop ∧ stop ≤ hi
  | .list xs stop, lo, hi => lo < stop ∧ xs.Written lo stop ∧ stop ≤ hi

def Expressions.Written : Expressions → (lo hi : Nat) → Prop
  | .none, lo, hi => lo ≤ hi
  | .more x xs, lo, hi => ∃ mid, x.Written lo mid ∧ xs.Written mid hi

end

namespace Expression

/-- Going down through prefix operators and what suffixes apply to leads to a name or a constant. -/
def isTight : Expression → Bool
  | .name _ | .constant _ => true
  | .prefixed _ x => x.isTight
  | .suffixed _ x _ _ => x.isTight
  | .infixed .. | .list .. => false

def isPrefixed : Expression → Bool
  | .prefixed .. => true
  | _ => false

end Expression

mutual

/-- Prefix operators are applied to tight expressions only, and suffixes to no prefixed ones. -/
def Expression.isAdmissible : Expression → Bool
  | .name _ | .constant _ => true
  | .prefixed _ x => x.isTight && x.isAdmissible
  | .infixed _ _ l r _ => l.isAdmissible && r.isAdmissible
  | .suffixed _ x xs _ => (!x.isPrefixed && x.isAdmissible) && xs.isAdmissible
  | .list xs _ => xs.isAdmissible

def Expressions.isAdmissible : Expressions → Bool
  | .none => true
  | .more x xs => x.isAdmissible && xs.isAdmissible

end

/-! ## Trees of expressions -/

mutual

/-- The text of an expression in the tree. -/
def Expression.span : Expression → Span
  | .name w | .constant w => w.span
  | .prefixed op x => op.span.merge x.span
  | .infixed _ _ l r _ => l.span.merge r.span
  | .suffixed _ x _ stop => ⟨x.span.start, stop⟩
  | .list xs stop => ⟨xs.start?.getD stop, stop⟩

def Expressions.start? : Expressions → Option Nat
  | .none => .none
  | .more x _ => x.span.start

end

mutual

/-- The entry `e` over the forest `d` is the tree of the expression: its operands are below it, in order, and the slots
in its construct are theirs. -/
def Expression.Is : Expression → (e : Entry) → (d : Forest Entry) → Prop
  | .name w, e, d => e = .fresh e.slot (.identifier w.text) w.span ∧ d = .nil
  | .constant w, e, d => e = .fresh e.slot (.constant w.text) w.span ∧ d = .nil
  | .prefixed op x, e, d => ∃ k kd, d = .tree k kd ∧ x.Is k kd ∧
    e = .fresh e.slot (.unary op.text (some k.slot)) (op.span.merge x.span)
  | .infixed _ op l r _, e, d => ∃ k kd m md, d = .tree k kd ++ .tree m md ∧ l.Is k kd ∧ r.Is m md ∧
    e = .fresh e.slot (.binary op k.slot m.slot) (l.span.merge r.span)
  | .suffixed s x xs stop, e, d => ∃ k kd ds, d = .tree k kd ++ ds ∧ x.Is k kd ∧ xs.Are ds ∧
    e = .fresh e.slot (.suffixed s k.slot) ⟨x.span.start, stop⟩
  | .list xs stop, e, d => xs.Are d ∧ e = .fresh e.slot .initializerList ⟨xs.start?.getD stop, stop⟩

/-- The trees of the expressions, in order. -/
def Expressions.Are : Expressions → (d : Forest Entry) → Prop
  | .none, d => d = .nil
  | .more x xs, d => ∃ k kd ds, d = .tree k kd ++ ds ∧ x.Is k kd ∧ xs.Are ds

end

namespace Expression

variable {x : Expression} {e : Entry} {d : Forest Entry}

theorem Is.fresh (h : x.Is e d) : ∃ c, e = .fresh e.slot c x.span ∧ c.waits = false := by
  cases x with
  | name | constant => exact ⟨_, h.1, rfl⟩
  | prefixed => obtain ⟨_, _, -, -, he⟩ := h; exact ⟨_, he, rfl⟩
  | infixed => obtain ⟨_, _, _, _, -, -, -, he⟩ := h; exact ⟨_, he, rfl⟩
  | suffixed => obtain ⟨_, _, _, -, -, -, he⟩ := h; exact ⟨_, he, rfl⟩
  | list => exact ⟨_, h.2, rfl⟩

theorem Is.span_eq (h : x.Is e d) : e.node.span = x.span := by
  obtain ⟨c, he, -⟩ := h.fresh
  rw [he]
  rfl

theorem Is.waits (h : x.Is e d) : e.node.construct.waits = false := by
  obtain ⟨c, he, hc⟩ := h.fresh
  rwa [he]

end Expression

theorem Expressions.Are.start?_eq {xs : Expressions} {d : Forest Entry} (h : xs.Are d) :
    xs.start? = d.roots.head?.map (·.node.span.start) := by
  cases xs with
  | none => rw [h]; rfl
  | more x xs =>
    obtain ⟨k, kd, ds, rfl, hx, -⟩ := h
    simp [Expressions.start?, hx.span_eq]

/-! ### Spans cover what is below -/

/-- A text that lies between two offsets and ends after the first. -/
structure Span.Between (s : Span) (lo hi : Nat) : Prop where
  lower : lo ≤ s.start
  ordered : s.start ≤ s.stop
  ends : lo < s.stop
  upper : s.stop ≤ hi

theorem Lexeme.Written.between {lo hi : Nat} (h : w.Written lo hi) : w.span.Between lo hi :=
  ⟨h.lower, h.filled.le, h.lower.trans_lt h.filled, h.upper⟩

theorem Span.Between.merge_eq {lo hi : Nat} (h : s.Between lo mid) (h' : s'.Between mid hi) :
    s.merge s' = ⟨s.start, s'.stop⟩ := by
  obtain ⟨-, hs, hlo, hmid⟩ := h
  obtain ⟨hmid', hs', hstop, -⟩ := h'
  have hne : s.isAbsent = false := by
    simp only [isAbsent, beq_eq_false_iff_ne]
    rintro rfl
    exact absurd hlo (Nat.not_lt_zero _)
  have hne' : s'.isAbsent = false := by
    simp only [isAbsent, beq_eq_false_iff_ne]
    rintro rfl
    exact absurd hstop (Nat.not_lt_zero _)
  simp only [merge, hne, hne', Bool.false_eq_true, if_false]
  rw [Nat.min_eq_left (by omega), Nat.max_eq_right (by omega)]

theorem Span.Between.merge {lo hi : Nat} (h : s.Between lo mid) (h' : s'.Between mid hi) :
    (s.merge s').Between lo hi := by
  rw [h.merge_eq h']
  obtain ⟨hlo, hs, -, hmid⟩ := h
  obtain ⟨hmid', hs', hstop, hhi⟩ := h'
  exact ⟨hlo, by simp only; omega, by simp only; omega, hhi⟩

mutual

theorem Expression.Written.between : ∀ {x : Expression} {lo hi : Nat}, x.Written lo hi → x.span.Between lo hi
  | .name _, _, _, h | .constant _, _, _, h => Lexeme.Written.between h
  | .prefixed _ _, _, _, ⟨hop, hx⟩ => hop.between.merge hx.between
  | .infixed _ _ _ _ _, _, _, ⟨_, _, hl, hr, hstop⟩ => by
    obtain ⟨hlo, hs, hlt, hle⟩ := hl.between.merge hr.between
    exact ⟨hlo, hs, hlt, hle.trans hstop⟩
  | .suffixed _ _ _ _, _, _, ⟨_, mid, hx, hxs, hstop⟩ => by
    obtain ⟨hlo, hs, hlt, hle⟩ := hx.between
    obtain ⟨hmid, -⟩ := hxs.between
    exact ⟨hlo, by simp only [Expression.span]; omega, by simp only [Expression.span]; omega, hstop⟩
  | .list xs stop, _, _, ⟨hlt, hxs, hstop⟩ => by
    obtain ⟨hle, hstart, hend⟩ := hxs.between
    exact ⟨hstart, hend, hlt, hstop⟩

theorem Expressions.Written.between : ∀ {xs : Expressions} {lo hi : Nat}, xs.Written lo hi →
    lo ≤ hi ∧ lo ≤ xs.start?.getD hi ∧ xs.start?.getD hi ≤ hi
  | .none, _, _, h => ⟨h, h, le_rfl⟩
  | .more x xs, lo, hi, ⟨mid, hx, hxs⟩ => by
    obtain ⟨hlo, hs, hlt, hle⟩ := hx.between
    obtain ⟨hmid, -⟩ := hxs.between
    simp only [Expressions.start?, Option.getD_some]
    omega

end

theorem Expressions.Written.count_le : ∀ {xs : Expressions} {lo hi : Nat}, xs.Written lo hi → lo + xs.count ≤ hi
  | .none, _, _, h => h
  | .more x xs, lo, hi, ⟨mid, hx, hxs⟩ => by
    obtain ⟨-, -, hlt, hle⟩ := hx.between
    have := hxs.count_le
    simp only [count]
    omega

theorem Span.contains_iff {outer inner : Span} :
    outer.contains inner = true ↔ outer.start ≤ inner.start ∧ inner.stop ≤ outer.stop := by simp [contains]

theorem Span.Between.merge_contains {lo hi : Nat} (h : s.Between lo mid) (h' : s'.Between mid hi) :
    (s.merge s').contains s = true ∧ (s.merge s').contains s' = true := by
  rw [h.merge_eq h', contains_iff, contains_iff]
  obtain ⟨-, hs, -, hmid⟩ := h
  obtain ⟨hmid', hs', -, -⟩ := h'
  exact ⟨⟨le_rfl, by simp only; omega⟩, by simp only; omega, le_rfl⟩

theorem Expression.Is.contains {x : Expression} {e : Entry} {d : Forest Entry} {outer : Span} (h : x.Is e d)
    (hd : ∀ k ∈ d.members, x.span.contains k.node.span = true) (ho : outer.contains x.span = true) :
    ∀ k ∈ (Forest.tree e d).members, outer.contains k.node.span = true := by
  rw [Forest.members_tree]
  refine List.forall_mem_cons.2 ⟨by rw [h.span_eq]; exact ho, fun k hk => ?_⟩
  have := hd k hk
  rw [Span.contains_iff] at *
  omega

mutual

/-- The text of an expression covers that of everything below it in its tree. -/
theorem Expression.Is.covers : ∀ {x : Expression} {lo hi : Nat} {e : Entry} {d : Forest Entry}, x.Is e d →
    x.Written lo hi → ∀ k ∈ d.members, x.span.contains k.node.span = true
  | .name _, _, _, _, _, h, _ | .constant _, _, _, _, _, h, _ => by
    rw [h.2]
    simp
  | .prefixed op x, _, _, _, _, h, ⟨hop, hx⟩ => by
    obtain ⟨k, kd, rfl, hk, -⟩ := h
    rw [Expression.span]
    exact hk.contains (hk.covers hx) (hop.between.merge_contains hx.between).2
  | .infixed _ _ _ _ _, _, _, _, _, h, ⟨_, _, hl, hr, _⟩ => by
    obtain ⟨k, kd, m, md, rfl, hk, hm, -⟩ := h
    obtain ⟨hkc, hmc⟩ := hl.between.merge_contains hr.between
    rw [Expression.span, Forest.members_append, List.forall_mem_append]
    exact ⟨hk.contains (hk.covers hl) hkc, hm.contains (hm.covers hr) hmc⟩
  | .suffixed _ x xs stop, _, _, _, _, h, ⟨_, _, hx, hxs, _⟩ => by
    obtain ⟨k, kd, ds, rfl, hk, hds, -⟩ := h
    obtain ⟨-, hs, -, hmid⟩ := hx.between
    obtain ⟨hstop, hstart, -⟩ := hxs.between
    rw [Expression.span, Forest.members_append, List.forall_mem_append]
    refine ⟨hk.contains (hk.covers hx) (Span.contains_iff.2 ⟨le_rfl, hmid.trans hstop⟩), fun m hm => ?_⟩
    have := hds.covers hxs m hm
    rw [Span.contains_iff] at this ⊢
    exact ⟨((hs.trans hmid).trans hstart).trans this.1, this.2⟩
  | .list _ _, _, _, _, _, h, ⟨_, hxs, _⟩ => h.1.covers hxs

theorem Expressions.Are.covers : ∀ {xs : Expressions} {lo hi : Nat} {d : Forest Entry}, xs.Are d → xs.Written lo hi →
    ∀ k ∈ d.members, (⟨xs.start?.getD hi, hi⟩ : Span).contains k.node.span = true
  | .none, _, _, _, h, _ => by
    rw [h]
    simp
  | .more x xs, _, hi, _, h, ⟨_, hx, hxs⟩ => by
    obtain ⟨k, kd, ds, rfl, hk, hds⟩ := h
    obtain ⟨-, hs, -, hmid⟩ := hx.between
    obtain ⟨hle, hstart, -⟩ := hxs.between
    rw [Expressions.start?, Forest.members_append, List.forall_mem_append]
    refine ⟨hk.contains (hk.covers hx) (Span.contains_iff.2 ⟨le_rfl, hmid.trans hle⟩), fun m hm => ?_⟩
    have := hds.covers hxs m hm
    rw [Span.contains_iff] at this ⊢
    exact ⟨((hs.trans hmid).trans hstart).trans this.1, this.2⟩

end

/-! ## Expressions on the stage -/

/-- Prefix operators, the outermost first, applied to an expression. -/
def Expression.under (x : Expression) (ops : List Lexeme) : Expression := ops.foldr .prefixed x

theorem Expression.under_append (x : Expression) (ops : List Lexeme) (op : Lexeme) :
    x.under (ops ++ [op]) = (Expression.prefixed op x).under ops := by
  simp [under]

namespace Forest

/-- Prefix operators that wait in the given slots. -/
def waiting : List (Lexeme × Slot) → Forest Entry
  | [] => nil
  | (op, s) :: ops => tree (.fresh s (.unary op.text none) op.span) nil ++ waiting ops

theorem waiting_append (ops : List (Lexeme × Slot)) (op : Lexeme) (s : Slot) :
    waiting (ops ++ [(op, s)]) = waiting ops ++ tree (.fresh s (.unary op.text none) op.span) nil := by
  induction ops with
  | nil => rfl
  | cons x ops ih => simp [waiting, ih]

@[simp] theorem rootSlots_waiting (ops : List (Lexeme × Slot)) : (waiting ops).rootSlots = ops.map Prod.snd := by
  induction ops with
  | nil => rfl
  | cons x ops ih => simp [waiting, ih]

/-- No operator waits in the last tree. -/
def Rests (f : Forest Entry) : Prop := ∀ y ∈ f.roots.getLast?, y.node.construct.waits = false

theorem rests_nil : (nil : Forest Entry).Rests := by simp [Rests]

theorem rests_append_tree {f d : Forest Entry} {y : Entry} :
    (f ++ tree y d).Rests ↔ y.node.construct.waits = false := by simp [Rests]

end Forest

/-- What an expression leaves on the stage: the prefix operators before it, and the tree of what they apply to. -/
def Expression.Staged (x : Expression) (f : Forest Entry) : Prop :=
  ∃ (ops : List (Lexeme × Slot)) (core : Expression) (y : Entry) (d : Forest Entry),
    x = core.under (ops.map Prod.fst) ∧ core.Is y d ∧ f = Forest.waiting ops ++ .tree y d

def Expressions.Staged : Expressions → (f : Forest Entry) → Prop
  | .none, f => f = .nil
  | .more x xs, f => ∃ g g', f = g ++ g' ∧ x.Staged g ∧ xs.Staged g'

theorem Expression.Is.staged {x : Expression} {y : Entry} {d : Forest Entry} (h : x.Is y d) : x.Staged (.tree y d) :=
  ⟨[], x, y, d, rfl, h, rfl⟩

theorem Expression.Staged.exists_tree {x : Expression} {f : Forest Entry} (h : x.Staged f) (hx : x.isPrefixed = false) :
    ∃ y d, f = .tree y d ∧ x.Is y d := by
  obtain ⟨ops, core, y, d, rfl, hy, rfl⟩ := h
  cases ops with
  | nil => exact ⟨y, d, rfl, hy⟩
  | cons => cases hx

theorem Expression.Staged.rests {x : Expression} {f g : Forest Entry} (h : x.Staged f) : (g ++ f).Rests := by
  obtain ⟨ops, core, y, d, rfl, hy, rfl⟩ := h
  rw [← Forest.append_assoc]
  exact Forest.rests_append_tree.2 hy.waits

namespace Assembly

open Forest

/-- No operator waits on top of the stage, and the current statement stands on it. -/
structure Calm (a : Assembly) : Prop where
  based : a.statementBase ≤ a.height
  bound : ∀ s ∈ a.staged, s.index < a.tree.size
  top : ∀ s, topOperand? a = some s → isWaiting a.tree s = false

/-- Since `a`, the trees of `f` have been staged and those of `h` are in hand. All else is as it was. -/
structure Heaped (a b : Assembly) (f h : Forest Entry) : Prop extends Piled a.tree.size a.staged b f h where
  same : Tree.SameBelow a.tree.size a.tree b.tree
  kept : ∀ t l, b.put t l = a.put t l

variable {a b : Assembly} {f g h m d : Forest Entry} {x : Expression} {xs : Expressions} {y : Entry} {e : Event}
  {lo hi : Nat}

theorem Calm.heaped (ha : a.Calm) : Heaped a a .nil .nil :=
  ⟨⟨ha.based, rfl, Tree.stands_nil, trivial, le_rfl⟩, .refl _ _, fun _ _ => rfl⟩

namespace Heaped

theorem failure?_eq (H : Heaped a b f h) : b.failure? = a.failure? := by
  have h := congrArg (·.failure?) (H.kept b.tree b.staged)
  exact h

theorem statementBase_eq (H : Heaped a b f h) : b.statementBase = a.statementBase := by
  have h := congrArg (·.statementBase) (H.kept b.tree b.staged)
  exact h

theorem unstage (H : Heaped a b (g ++ Forest.tree y d) h) :
    Heaped a (b.put b.tree b.staged.tail) g (Forest.tree y d ++ h) :=
  ⟨H.toPiled.unstage, H.same, H.kept⟩

theorem bundle (H : Heaped a b f m) (c : Construct) (span : Span) :
    Heaped a (b.bundled c span m.rootSlots) (f ++ Forest.tree (.fresh ⟨b.tree.size⟩ c span) m) .nil where
  toPiled := H.toPiled.bundle c span
  same := (H.same.trans (.push c span H.low)).trans
    (.attachAll H.low fun u hu => (H.stands.bound u (by simp [rootSlots_subset hu])).1)
  kept := H.kept

theorem top (H : Heaped a b f h) (ha : a.Calm) (hf : f.Rests) {s : Slot} (hs : topOperand? b = some s) :
    isWaiting b.tree s = false := by
  by_cases hn : f.roots = []
  · -- What is on top was there before.
    obtain rfl := eq_nil_of_roots hn
    have hstaged : b.staged = a.staged := H.staged
    have htop : topOperand? a = some s := by
      rw [← hs]
      unfold topOperand? Assembly.hasOperands height
      rw [hstaged, H.statementBase_eq]
    have hmem : s ∈ a.staged := by
      unfold topOperand? at htop
      split at htop
      · exact List.mem_of_mem_head? htop
      · cases htop
    rw [isWaiting_eq, Tree.construct, H.same.nodes s (ha.bound s hmem)]
    exact (isWaiting_eq ..).symm.trans (ha.top s htop)
  · obtain ⟨g, d, hg, -⟩ := exists_last (List.dropLast_concat_getLast hn).symm
    rw [hg] at H hf
    obtain rfl := Option.some.inj (H.topOperand?.symm.trans hs)
    rw [isWaiting_eq, H.construct_eq]
    exact rests_append_tree.1 hf

/-! ### Taking expressions from the stage -/

theorem applyWaiting_of_rests (H : Heaped a b f h) (ha : a.Calm) (hf : f.Rests) (n : Nat) (s : Slot) :
    Assembly.applyWaiting n s b = .ok s b := by
  cases n with
  | zero => rfl
  | succ n =>
    rw [Assembly.applyWaiting, get_bind]
    cases htop : topOperand? b with
    | none => rfl
    | some s =>
      simp only [H.top ha hf htop]
      rfl

/-- The operators that wait for what is in hand take it, the innermost first. -/
theorem applyWaiting (ha : a.Calm) (hf : f.Rests) (ops : List (Lexeme × Slot)) : ∀ {n : Nat} {b : Assembly}
    {x : Expression} {y : Entry} {d : Forest Entry}, Heaped a b (f ++ waiting ops) (Forest.tree y d ++ h) → x.Is y d →
      ops.length ≤ n → ∃ b' z k, Assembly.applyWaiting n y.slot b = .ok z.slot b' ∧
        Heaped a b' f (Forest.tree z k ++ h) ∧ (x.under (ops.map Prod.fst)).Is z k := by
  induction ops using List.reverseRecOn with
  | nil =>
    intro n b x y d H hx _
    rw [waiting, append_nil] at H
    exact ⟨b, y, d, H.applyWaiting_of_rests ha hf n y.slot, H, hx⟩
  | append_singleton ops op ih =>
    obtain ⟨op, s⟩ := op
    intro n b x y d H hx hn
    cases n with
    | zero => simp at hn
    | succ n =>
      rw [waiting_append, ← append_assoc] at H
      have hwaits : isWaiting b.tree s = true := by
        rw [isWaiting_eq]
        exact congrArg Construct.waits H.construct_eq
      obtain ⟨t, ht, hsame, P⟩ := H.unstage.applyOperator (show _ = Construct.unary op.text none from rfl)
      rw [hx.span_eq] at P
      have H' : Heaped a _ (f ++ waiting ops) _ := ⟨P, H.same.trans hsame, H.kept⟩
      obtain ⟨b', z, k, hz, H'', hk⟩ := ih H' (x := .prefixed op x) ⟨y, d, rfl, hx, rfl⟩ (by simp at hn; omega)
      refine ⟨b', z, k, ?_, H'', ?_⟩
      · rw [Assembly.applyWaiting, get_bind]
        simp only [H.topOperand?, Entry.slot_fresh, hwaits, if_true, set_bind]
        exact bind_ok.2 ⟨(), _, ht, hz⟩
      · rw [List.map_append, List.map_singleton, Expression.under_append]
        exact hk

theorem popOperand (H : Heaped a b (f ++ g) h) (ha : a.Calm) (hf : f.Rests) (hx : x.Staged g) :
    ∃ b' z k, Assembly.popOperand e b = .ok z.slot b' ∧ Heaped a b' f (Forest.tree z k ++ h) ∧ x.Is z k := by
  obtain ⟨ops, core, y, d, rfl, hy, rfl⟩ := hx
  rw [← append_assoc] at H
  obtain ⟨b', z, k, hz, H', hk⟩ := H.unstage.applyWaiting ha hf ops
    (n := (b.put b.tree b.staged.tail).height) hy (by
      rw [height, H.unstage.staged]
      simp)
  refine ⟨b', z, k, ?_, H', hk⟩
  rw [Assembly.popOperand]
  exact bind_ok.2 ⟨_, _, H.popRaw hy.waits, hz⟩

theorem popTree (H : Heaped a b (f ++ Forest.tree y d) h) (ha : a.Calm) (hf : f.Rests)
    (hy : y.node.construct.waits = false) :
    Assembly.popOperand e b = .ok y.slot (b.put b.tree b.staged.tail) := by
  rw [Assembly.popOperand]
  exact bind_ok.2 ⟨_, _, H.popRaw hy, H.unstage.applyWaiting_of_rests ha hf _ y.slot⟩

end Heaped

theorem popOperands_snoc {n : Nat} : ∀ {later ss : List Slot} {b b₁ b₂ : Assembly} {s : Slot},
    popOperands e n later b = .ok ss b₁ → popOperand e b₁ = .ok s b₂ →
    popOperands e (n + 1) later b = .ok (s :: ss) b₂ := by
  induction n with
  | zero =>
    intro later ss b b₁ b₂ s h h'
    cases h
    exact bind_ok.2 ⟨s, b₂, h', rfl⟩
  | succ n ih =>
    intro later ss b b₁ b₂ s h h'
    obtain ⟨u, b₃, hu, hn⟩ := bind_ok.1 h
    exact bind_ok.2 ⟨u, b₃, hu, ih hn h'⟩

theorem Heaped.popOperands (ha : a.Calm) : ∀ {xs : Expressions} {b : Assembly} {f g : Forest Entry},
    Heaped a b (f ++ g) .nil → f.Rests → xs.Staged g →
    ∃ b' m, Assembly.popOperands e xs.count [] b = .ok m.rootSlots b' ∧
      Heaped a b' f m ∧ xs.Are m
  | .none, b, f, g, H, hf, hg => by
    obtain rfl := hg
    exact ⟨b, .nil, rfl, by simpa using H, rfl⟩
  | .more x xs, b, f, g, H, hf, hg => by
    obtain ⟨g₁, g₂, rfl, hx, hxs⟩ := hg
    rw [← append_assoc] at H
    obtain ⟨b₁, m, hm, H₁, hare⟩ := Heaped.popOperands ha H hx.rests hxs
    obtain ⟨b₂, z, k, hz, H₂, his⟩ := H₁.popOperand ha hf hx
    exact ⟨b₂, Forest.tree z k ++ m, popOperands_snoc hm hz, H₂, z, k, m, rfl, his, hare⟩

/-! ### Staging expressions -/

theorem leafSpan_event (hw : w.Written lo hi) (kind : Event.Kind) : leafSpan (w.event kind) b = .ok w.span b := by
  obtain ⟨htext, -, hfilled, -, hlength⟩ := hw
  have hne : ¬(w.event kind).literal.isEmpty = true := by simp [Lexeme.event, htext]
  rw [leafSpan, if_neg hne, Lexeme.event]
  cases hr : w.reported with
  | true =>
    simp only [if_true, if_pos hfilled]
    rfl
  | false =>
    have hsize := hlength hr
    have hstart : w.stop - w.text.utf8ByteSize = w.start := by omega
    simp only [Bool.false_eq_true, if_false, if_pos (show w.text.utf8ByteSize ≤ w.stop by omega), hstart]
    rfl

theorem suffix?_event {suffix : Suffix} {n stop : Nat} (hs : suffix.Fits n) (hn : n < UInt64.size) :
    (suffix.event n stop).suffix? = some (suffix, n) := by
  cases suffix with
  | call =>
    have hcount : count? (toString n) = some n := by rw [count?_toString, if_pos hn]
    exact congrArg (Option.map (Suffix.call, ·)) hcount
  | index =>
    obtain rfl : n = 1 := hs
    rfl
  | member field arrow =>
    obtain ⟨rfl, hfield⟩ := hs
    have hmember : member? (Suffix.member field arrow).text = some (.member field arrow) := by
      have hne : field.toList.isEmpty = false := by simpa [String.isEmpty_iff] using hfield
      cases arrow <;> simp [member?, Suffix.text, hne]
    exact congrArg (Option.map (·, 0)) hmember
  | increment down =>
    obtain rfl : n = 0 := hs
    have hincrement : increment? (Suffix.increment down).text = some (.increment down) := by
      cases down <;> rfl
    exact congrArg (Option.map (·, 0)) hincrement

namespace Heaped

theorem leaf (H : Heaped a b f .nil) (ha : a.failure? = none) (kind : Event.Kind) {c : Construct}
    (hw : w.Written lo hi) (hc : (w.event kind).leaf? = some c) :
    ∃ b' s, Takes b [w.event kind] b' ∧ Heaped a b' (f ++ Forest.tree (.fresh s c w.span) .nil) .nil :=
  ⟨_, _, .of_dispatch (H.failure?_eq.trans ha) (dispatch_leaf hc (leafSpan_event hw kind)), H.bundle c w.span⟩

theorem infixed (H : Heaped a b (f ++ (g ++ h)) .nil) (ha : a.Calm) (hf : f.Rests) {l r : Expression} (hl : l.Staged g)
    (hr : r.Staged h) (kind : { k : Event.Kind // k.isConnective = true }) {op : String} (hop : op.isEmpty = false)
    (stop : Nat) : ∃ b' z k, dispatch ⟨kind, stop, op, none⟩ b = .ok () b' ∧ Heaped a b' (f ++ Forest.tree z k) .nil ∧
      (Expression.infixed kind op l r stop).Is z k := by
  rw [← append_assoc] at H
  obtain ⟨b₁, y, d, hy, H₁, hrs⟩ := H.popOperand (e := ⟨kind, stop, op, none⟩) ha hl.rests hr
  obtain ⟨b₂, z, k, hz, H₂, hls⟩ := H₁.popOperand (e := ⟨kind, stop, op, none⟩) ha hf hl
  rw [append_nil] at H₂
  refine ⟨_, _, _, H₂.connect kind.2 hop hy hz, H₂.bundle _ _, z, k, y, d, rfl, hls, hrs, ?_⟩
  rw [hls.span_eq, hrs.span_eq]
  rfl

theorem suffixed (H : Heaped a b (f ++ (Forest.tree y d ++ g)) .nil) (ha : a.Calm) (hx : x.Is y d) (hxs : xs.Staged g)
    {suffix : Suffix} (hs : suffix.Fits xs.count) (hn : xs.count < UInt64.size) (stop : Nat) :
    ∃ b' z k, dispatch (suffix.event xs.count stop) b = .ok () b' ∧ Heaped a b' (f ++ Forest.tree z k) .nil ∧
      (Expression.suffixed suffix x xs stop).Is z k := by
  rw [← append_assoc] at H
  obtain ⟨b₁, m, hm, H₁, hare⟩ := H.popOperands (e := suffix.event xs.count stop) ha (rests_append_tree.2 hx.waits) hxs
  have H₂ := H₁.unstage
  have hoffset : (suffix.event xs.count stop).offset = stop := by cases suffix <;> rfl
  refine ⟨_, _, _, H₂.suffix (suffix?_event hs hn) hm (H₁.popRaw hx.waits), H₂.bundle _ _, y, d, m, rfl, hx, hare, ?_⟩
  rw [hoffset, hx.span_eq]
  rfl

theorem list (H : Heaped a b (f ++ g) .nil) (ha : a.Calm) (hf : f.Rests) (hxs : xs.Staged g)
    (hn : xs.count < UInt64.size) (stop : Nat) :
    ∃ b' z k, dispatch ⟨.initializerList, stop, toString xs.count, none⟩ b = .ok () b' ∧
      Heaped a b' (f ++ Forest.tree z k) .nil ∧ (Expression.list xs stop).Is z k := by
  obtain ⟨b₁, m, hm, H₁, hare⟩ := H.popOperands (e := ⟨.initializerList, stop, toString xs.count, none⟩) ha hf hxs
  have hcount : count? (toString xs.count) = some xs.count := by rw [count?_toString, if_pos hn]
  refine ⟨_, _, _, H₁.toPiled.list rfl hcount hm, H₁.bundle _ _, hare, ?_⟩
  rw [← hare.start?_eq]
  rfl

end Heaped

mutual

/-- The events of an expression are taken and leave it on the stage. Operators may wait below a tight one. -/
theorem Heaped.takes (ha : a.Calm) (hfail : a.failure? = none) : ∀ {x : Expression} {b : Assembly} {f : Forest Entry}
    {lo hi : Nat}, Heaped a b f .nil → x.isAdmissible = true → x.Written lo hi → hi < UInt64.size →
      (x.isTight = true ∨ f.Rests) → ∃ b' g, Takes b x.events b' ∧ Heaped a b' (f ++ g) .nil ∧ x.Staged g
  | .name w, b, f, lo, hi, H, _, hw, _, _ => by
    obtain ⟨b', s, hb', H'⟩ := H.leaf hfail .identifier (c := .identifier w.text) hw rfl
    exact ⟨b', _, hb', H', Expression.Is.staged ⟨rfl, rfl⟩⟩
  | .constant w, b, f, lo, hi, H, _, hw, _, _ => by
    obtain ⟨b', s, hb', H'⟩ := H.leaf hfail .constant (c := .constant w.text) hw rfl
    exact ⟨b', _, hb', H', Expression.Is.staged ⟨rfl, rfl⟩⟩
  | .prefixed op x, b, f, lo, hi, H, hx, ⟨hop, hw⟩, hhi, _ => by
    obtain ⟨htight, hx⟩ := Bool.and_eq_true_iff.1 hx
    obtain ⟨b₁, s, h₁, H₁⟩ := H.leaf hfail .unaryOperator (c := .unary op.text none) hop rfl
    obtain ⟨b₂, g, h₂, H₂, ops, core, y, d, rfl, hy, rfl⟩ := Heaped.takes ha hfail H₁ hx hw hhi (.inl htight)
    rw [append_assoc] at H₂
    exact ⟨b₂, _, h₁.trans h₂, H₂, (op, s) :: ops, core, y, d, rfl, hy, rfl⟩
  | .infixed kind op l r stop, b, f, lo, hi, H, hx, ⟨hop, mid, hl, hr, hstop⟩, hhi, hf => by
    obtain ⟨hla, hra⟩ := Bool.and_eq_true_iff.1 hx
    have hrests := hf.resolve_left Bool.false_ne_true
    obtain ⟨-, -, hlt, hle⟩ := hr.between
    obtain ⟨b₁, g, h₁, H₁, hg⟩ := Heaped.takes ha hfail H hla hl (by omega) (.inr hrests)
    obtain ⟨b₂, g', h₂, H₂, hg'⟩ := Heaped.takes ha hfail H₁ hra hr (by omega) (.inr hg.rests)
    rw [append_assoc] at H₂
    obtain ⟨b₃, z, k, h₃, H₃, hk⟩ := H₂.infixed ha hrests hg hg' kind hop stop
    exact ⟨b₃, _, h₁.trans (h₂.trans (.of_dispatch (H₂.failure?_eq.trans hfail) h₃)), H₃, hk.staged⟩
  | .suffixed s x xs stop, b, f, lo, hi, H, hx, ⟨hs, mid, hw, hws, hstop⟩, hhi, hf => by
    obtain ⟨hxa, hxsa⟩ := Bool.and_eq_true_iff.1 hx
    obtain ⟨hprefixed, hxa⟩ := Bool.and_eq_true_iff.1 hxa
    have hmid := hws.count_le
    obtain ⟨b₁, g, h₁, H₁, hg⟩ := Heaped.takes ha hfail H hxa hw (by omega) hf
    obtain ⟨y, d, rfl, hy⟩ := hg.exists_tree (by simpa using hprefixed)
    obtain ⟨b₂, g', h₂, H₂, hg'⟩ := Heaped.takesAll ha hfail H₁ hxsa hws (by omega) (rests_append_tree.2 hy.waits)
    rw [append_assoc] at H₂
    obtain ⟨b₃, z, k, h₃, H₃, hk⟩ := H₂.suffixed ha hy hg' hs (by omega) stop
    exact ⟨b₃, _, h₁.trans (h₂.trans (.of_dispatch (H₂.failure?_eq.trans hfail) h₃)), H₃, hk.staged⟩
  | .list xs stop, b, f, lo, hi, H, hx, ⟨_, hws, hstop⟩, hhi, hf => by
    have hrests := hf.resolve_left Bool.false_ne_true
    have hcount := hws.count_le
    obtain ⟨b₁, g, h₁, H₁, hg⟩ := Heaped.takesAll ha hfail H hx hws (by omega) hrests
    obtain ⟨b₂, z, k, h₂, H₂, hk⟩ := H₁.list ha hrests hg (by omega) stop
    exact ⟨b₂, _, h₁.trans (.of_dispatch (H₁.failure?_eq.trans hfail) h₂), H₂, hk.staged⟩

theorem Heaped.takesAll (ha : a.Calm) (hfail : a.failure? = none) : ∀ {xs : Expressions} {b : Assembly}
    {f : Forest Entry} {lo hi : Nat}, Heaped a b f .nil → xs.isAdmissible = true → xs.Written lo hi → hi < UInt64.size →
      f.Rests → ∃ b' g, Takes b xs.events b' ∧ Heaped a b' (f ++ g) .nil ∧ xs.Staged g
  | .none, b, f, _, _, H, _, _, _, _ => ⟨b, .nil, takes_nil.2 rfl, by rwa [append_nil], rfl⟩
  | .more x xs, b, f, lo, hi, H, hx, ⟨mid, hw, hws⟩, hhi, hf => by
    obtain ⟨hxa, hxsa⟩ := Bool.and_eq_true_iff.1 hx
    have hmid := hws.count_le
    obtain ⟨b₁, g, h₁, H₁, hg⟩ := Heaped.takes ha hfail H hxa hw (by omega) (.inr hf)
    obtain ⟨b₂, g', h₂, H₂, hg'⟩ := Heaped.takesAll ha hfail H₁ hxsa hws hhi hg.rests
    rw [append_assoc] at H₂
    exact ⟨b₂, _, h₁.trans h₂, H₂, g, g', rfl, hg, hg'⟩

end

/-! ## After any calls -/

theorem based_dispatch {u : Unit} (hb : a.statementBase ≤ a.height) (h : dispatch e a = .ok u b) :
    b.statementBase ≤ b.height := by
  by_cases hk : e.kind = .deferred
  · rw [dispatch, hk] at h
    exact (onDeferred_settled h).le
  · have hgoes := proper_dispatch hk [] [] a
    rw [h] at hgoes
    exact Acts.based hgoes hb

/-- The current statement stands on the stage after every call that returns, unless there is a fault. -/
theorem based_call (c : Call) (hb : a.failure? = none → a.statementBase ≤ a.height)
    (hc : ∀ halt, (a.call c).2 = some halt → ∃ f, halt = .fault f) (hf : (a.call c).1.failure? = none) :
    (a.call c).1.statementBase ≤ (a.call c).1.height := by
  cases c with
  | startUnit | take => exact Nat.le_refl 0
  | event e =>
    simp only [call, handle] at hc hf ⊢
    cases hfail : a.failure? with
    | some f => simp [hfail] at hf
    | none =>
      rw [hfail] at hc hf
      cases hd : dispatch e a with
      | ok u b => exact based_dispatch (hb hfail) hd
      | error halt b =>
        rw [hd] at hc hf
        cases halt with
        | fault f => simp at hf
        | outOfRange low high =>
          obtain ⟨f, h⟩ := hc _ rfl
          cases h

theorem based_after : ∀ (calls : List Call) {a : Assembly}, (a.failure? = none → a.statementBase ≤ a.height) →
    (∀ halt, some halt ∈ a.answers calls → ∃ f, halt = .fault f) → (a.after calls).failure? = none →
      (a.after calls).statementBase ≤ (a.after calls).height
  | [], _, hb, _, hf => hb hf
  | c :: calls, a, hb, hanswers, hf => by
    rw [answers] at hanswers
    have hc : ∀ halt, (a.call c).2 = some halt → ∃ f, halt = .fault f := fun halt hh =>
      hanswers halt (hh ▸ List.mem_cons_self)
    exact based_after calls (based_call c hb hc) (fun halt hm => hanswers halt (List.mem_cons_of_mem _ hm)) hf

/-- **Expressions are rebuilt.** After any calls that return and leave no fault, where no prefix operator of the current
statement waits on top of the stage, the events of an admissible expression are all taken. An operand that is taken then
is the tree of the expression in new slots; its text covers that of everything below it, and the stage and all nodes
that were there before are as they were. -/
theorem rebuilt_of_admissible (path : Path) (calls : List Call) {a : Assembly} (hreached : (start path).after calls = a)
    (hanswers : ∀ halt, some halt ∈ (start path).answers calls → ∃ f, halt = .fault f) (hfail : a.failure? = none)
    (htop : ∀ s, topOperand? a = some s → isWaiting a.tree s = false) {x : Expression} (hx : x.isAdmissible = true)
    {lo hi : Nat} (hw : x.Written lo hi) (hhi : hi < UInt64.size) (e : Event) :
    ∃ b t y d, Takes a x.events b ∧ popOperand e b = .ok y.slot (a.put t a.staged) ∧ x.Is y d ∧
      t.Stands none a.tree.size (.tree y d) ∧ (∀ k ∈ d.members, y.node.span.contains k.node.span = true) ∧
      Tree.SameBelow a.tree.size a.tree t := by
  have hkept := ((kept_start path).after calls (indexed_start path) hanswers).1
  have hbased := based_after calls (fun _ => le_rfl) hanswers (hreached ▸ hfail)
  rw [hreached] at hkept hbased
  have ha : a.Calm := ⟨hbased, fun s hs => (hkept.owning.sound.free s (by simp [Work.loose, hs])).1, htop⟩
  obtain ⟨b, g, hb, H, hg⟩ := Heaped.takes ha hfail ha.heaped hx hw hhi (.inr rests_nil)
  obtain ⟨b', y, d, hy, H', hd⟩ := H.popOperand (e := e) ha rests_nil hg
  rw [append_nil] at H'
  refine ⟨b, b'.tree, y, d, hb, ?_, hd, H'.stands, ?_, H'.same⟩
  · have hput : b'.put b'.tree a.staged = a.put b'.tree a.staged := H'.kept _ _
    rw [hy, ← hput, ← show b'.staged = a.staged from H'.staged]
    rfl
  · rw [hd.span_eq]
    exact hd.covers hw

/-- Prefix operators before and behind others, with suffixes and a list: `-a[i] + g(!b, {1})`. -/
def mixed : Expression :=
  .infixed ⟨.binaryOperator, rfl⟩ "+"
    (.prefixed ⟨"-", 2, 3, true⟩
      (.suffixed .index (.name ⟨"a", 3, 4, false⟩) (.more (.name ⟨"i", 5, 6, true⟩) .none) 7))
    (.suffixed .call (.name ⟨"g", 8, 9, false⟩)
      (.more (.prefixed ⟨"!", 10, 11, false⟩ (.name ⟨"b", 11, 12, true⟩))
        (.more (.list (.more (.constant ⟨"1", 14, 15, false⟩) .none) 16) .none)) 17) 17

theorem written_mixed : mixed.Written 2 17 := by
  simp only [mixed, Expression.Written, Expressions.Written, Suffix.Fits, Expressions.count]
  refine ⟨rfl, 7, ⟨by decide, trivial, 4, by decide, ⟨6, by decide, by decide⟩, by decide⟩,
    ⟨trivial, 9, by decide, ?_, ?_⟩, ?_⟩
  · exact ⟨12, ⟨by decide, by decide⟩, 16, ⟨by decide, ⟨15, by decide, by decide⟩, by decide⟩, by decide⟩
  · exact Nat.le_refl 17
  · exact Nat.le_refl 17

/-- An operand of the current statement is staged already. -/
def operandFirst : List Call := [.event ⟨.identifier, 1, "q", none⟩]

theorem rebuilt_mixed : ((start []).after operandFirst).staged = [⟨1⟩] ∧ mixed.isAdmissible = true ∧
    ∃ b t y d, Takes ((start []).after operandFirst) mixed.events b ∧
      popOperand ⟨.statementEnd, 18, "", none⟩ b = .ok y.slot (((start []).after operandFirst).put t [⟨1⟩]) ∧
      mixed.Is y d ∧ t.Stands none 2 (.tree y d) ∧ (∀ k ∈ d.members, y.node.span.contains k.node.span = true) ∧
      Tree.SameBelow 2 ((start []).after operandFirst).tree t := by
  have hanswers : (start []).answers operandFirst = [none] := by decide +kernel
  refine ⟨by decide +kernel, by decide +kernel, rebuilt_of_admissible [] operandFirst rfl ?_
    (by decide +kernel) ?_ (by decide +kernel) written_mixed (by decide) _⟩
  · rw [hanswers]
    simp
  · intro s hs
    have htop : topOperand? ((start []).after operandFirst) = some ⟨1⟩ := by decide +kernel
    obtain rfl := Option.some.inj (htop.symm.trans hs)
    decide +kernel

end Assembly

end Deferral
