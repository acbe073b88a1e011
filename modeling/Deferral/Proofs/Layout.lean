import Deferral.Proofs.Grafting
import Deferral.Proofs.Phrases
import Deferral.Tree.Absorption

/-!
# The layout of a tree

What the forest of a source looks like, apart from its slots. `Forest.Within` is about text: spans are nested, and those
side by side are in order. `Shape` is about sorts: it says for each construct what may stand below it, and that the
statements of one list leave no gap between them.
-/

namespace Deferral

open List

variable {span : Span} {s : Slot}

/-! ## Sorts of nodes -/

/-- Sorts of nodes that expressions and declarations are made of. -/
def Construct.Tag.isOperand : Construct.Tag → Bool
  | .declaration | .suffixed | .binary | .identifier | .constant | .unary | .initializerList => true
  | _ => false

/-- Sorts of statements. Labels are not among them: they hold the statements after them. -/
def Construct.Tag.isStatement : Construct.Tag → Bool
  | .unit | .function | .group | .caseLabel => false
  | _ => true

theorem Construct.Tag.isStatement_of_isOperand {tag : Construct.Tag} (h : tag.isOperand = true) :
    tag.isStatement = true := by
  cases tag <;> first | rfl | cases h

/-- Sorts of statements that leave scopes. -/
def Construct.Tag.isJump : Construct.Tag → Bool
  | .returned | .jump => true
  | _ => false

theorem Construct.Tag.isJump_of_isOperand {tag : Construct.Tag} (h : tag.isOperand = true) : tag.isJump = false := by
  cases tag <;> first | rfl | cases h

/-! ## Nested spans -/

theorem Span.ne_absent (h : 0 < span.stop) : span ≠ .absent := fun ha => by
  simp [ha, Span.absent] at h

/-- The text from the start of one span to the end of another, where a missing one adds nothing. -/
def Span.over : Option Span → Option Span → Option Span
  | some s, some t => some ⟨s.start, t.stop⟩
  | some s, none => some s
  | none, t? => t?

@[simp] theorem Span.over_none (s? : Option Span) : Span.over s? none = s? := by cases s? <;> rfl

@[simp] theorem Span.none_over (s? : Option Span) : Span.over none s? = s? := rfl

@[simp] theorem Span.some_over_some (s t : Span) : Span.over (some s) (some t) = some ⟨s.start, t.stop⟩ := rfl

@[simp] theorem Span.over_over_some (s u : Span) (t? : Option Span) :
    Span.over (some s) (Span.over t? (some u)) = some ⟨s.start, u.stop⟩ := by
  cases t? <;> rfl

theorem Span.over_assoc (s? t? u? : Option Span) :
    Span.over (Span.over s? t?) u? = Span.over s? (Span.over t? u?) := by
  cases s? <;> cases t? <;> cases u? <;> rfl

namespace Forest

/-- The text lies between `lo` and `hi`, that of a child inside its parent's, and siblings are in order. What has no
text has nothing below it. -/
def Within : Nat → Nat → Forest Entry → Prop
  | lo, hi, .nil => lo ≤ hi
  | lo, hi, .node e below rest =>
    (e.node.span = .absent ∧ below = .nil ∧ Within lo hi rest) ∨
    (e.node.span ≠ .absent ∧ lo ≤ e.node.span.start ∧ Within e.node.span.start e.node.span.stop below ∧
      Within e.node.span.stop hi rest)

variable {lo hi mid : Nat} {e : Entry} {b f g r : Forest Entry}

@[simp] theorem within_nil : (nil : Forest Entry).Within lo hi ↔ lo ≤ hi := Iff.rfl

theorem within_node : (node e b r).Within lo hi ↔
    (e.node.span = .absent ∧ b = .nil ∧ r.Within lo hi) ∨
    (e.node.span ≠ .absent ∧ lo ≤ e.node.span.start ∧ b.Within e.node.span.start e.node.span.stop ∧
      r.Within e.node.span.stop hi) := Iff.rfl

theorem Within.le : ∀ {f : Forest Entry} {lo hi : Nat}, f.Within lo hi → lo ≤ hi
  | .nil, _, _, h => h
  | .node _ b r, lo, hi, h => by
    rcases h with ⟨-, -, hr⟩ | ⟨-, hlo, hb, hr⟩
    · exact hr.le
    · have := hb.le
      have := hr.le
      omega

theorem Within.mono : ∀ {f : Forest Entry} {lo hi lo' hi' : Nat}, f.Within lo hi → lo' ≤ lo → hi ≤ hi' →
    f.Within lo' hi'
  | .nil, _, _, _, _, h, hl, hh => Nat.le_trans hl (Nat.le_trans h hh)
  | .node _ _ _, _, _, _, _, .inl ⟨ha, hb, hr⟩, hl, hh => .inl ⟨ha, hb, hr.mono hl hh⟩
  | .node _ _ _, _, _, _, _, .inr ⟨ha, hlo, hb, hr⟩, hl, hh =>
    .inr ⟨ha, Nat.le_trans hl hlo, hb, hr.mono (Nat.le_refl _) hh⟩

theorem Within.append : ∀ {f : Forest Entry} {lo : Nat}, f.Within lo mid → g.Within mid hi → (f ++ g).Within lo hi
  | .nil, _, hf, hg => hg.mono hf (Nat.le_refl _)
  | .node _ _ _, _, .inl ⟨ha, hb, hr⟩, hg => .inl ⟨ha, hb, hr.append hg⟩
  | .node _ _ _, _, .inr ⟨ha, hlo, hb, hr⟩, hg => .inr ⟨ha, hlo, hb, hr.append hg⟩

theorem exists_within_of_append : ∀ {f : Forest Entry} {lo : Nat}, (f ++ g).Within lo hi →
    ∃ mid, f.Within lo mid ∧ g.Within mid hi
  | .nil, lo, h => ⟨lo, Nat.le_refl _, h⟩
  | .node _ _ _, _, .inl ⟨ha, hb, h⟩ =>
    have ⟨mid, hf, hg⟩ := exists_within_of_append h
    ⟨mid, .inl ⟨ha, hb, hf⟩, hg⟩
  | .node _ _ _, _, .inr ⟨ha, hlo, hb, h⟩ =>
    have ⟨mid, hf, hg⟩ := exists_within_of_append h
    ⟨mid, .inr ⟨ha, hlo, hb, hf⟩, hg⟩

theorem Within.cons (hp : 0 < e.node.span.stop) (hlo : lo ≤ e.node.span.start)
    (hb : b.Within e.node.span.start e.node.span.stop) (hr : r.Within e.node.span.stop hi) :
    (node e b r).Within lo hi := .inr ⟨Span.ne_absent hp, hlo, hb, hr⟩

theorem within_present (h : e.node.span ≠ .absent) : (node e b r).Within lo hi ↔
    lo ≤ e.node.span.start ∧ b.Within e.node.span.start e.node.span.stop ∧ r.Within e.node.span.stop hi := by
  simp [within_node, h]

theorem Within.from_start (h : (node e b r).Within lo hi) (hp : e.node.span ≠ .absent) :
    lo ≤ e.node.span.start ∧ (node e b r).Within e.node.span.start hi := by
  obtain ⟨hlo, hb, hr⟩ := (within_present hp).1 h
  exact ⟨hlo, (within_present hp).2 ⟨Nat.le_refl _, hb, hr⟩⟩

theorem within_tree (h : e.node.span ≠ .absent) : (tree e b).Within lo hi ↔
    lo ≤ e.node.span.start ∧ b.Within e.node.span.start e.node.span.stop ∧ e.node.span.stop ≤ hi := by
  simp [tree, within_node, h]

/-- Text from `lo` to `hi` with that of `below` inside it, or no text at all. -/
def Spanned (lo hi : Nat) (span : Span) (below : Forest Entry) : Prop :=
  (span = .absent ∧ below = nil) ∨ (lo ≤ span.start ∧ span.stop ≤ hi ∧ below.Within span.start span.stop)

theorem Spanned.mono {lo' hi' : Nat} (h : Spanned lo hi span b) (hlo : lo' ≤ lo)
    (hhi : hi ≤ hi') : Spanned lo' hi' span b :=
  h.imp_right fun ⟨hl, hh, hb⟩ => ⟨Nat.le_trans hlo hl, Nat.le_trans hh hhi, hb⟩

theorem Spanned.below (h : Spanned lo hi span b) (hp : span ≠ .absent) :
    b.Within span.start span.stop := by
  rcases h with ⟨ha, -⟩ | ⟨-, -, hb⟩
  · exact absurd ha hp
  · exact hb

theorem Within.spanned : ∀ {f : Forest Entry} {lo hi : Nat}, f.Within lo hi →
    f.Every fun e b => Spanned lo hi e.node.span b
  | nil, _, _, _ => trivial
  | node _ _ _, _, _, .inl ⟨ha, hb, hr⟩ => ⟨.inl ⟨ha, hb⟩, hb ▸ trivial, hr.spanned⟩
  | node _ _ _, _, _, .inr ⟨_, hlo, hb, hr⟩ =>
    ⟨.inr ⟨hlo, hr.le, hb⟩, hb.spanned.mono fun _ _ h => h.mono hlo hr.le,
      hr.spanned.mono fun _ _ h => h.mono (Nat.le_trans hlo hb.le) (Nat.le_refl _)⟩

theorem Within.stop_le (h : f.Within lo hi) (he : e ∈ f.members) :
    e.node.span.stop ≤ hi := by
  obtain ⟨_, h⟩ := h.spanned.exists_below he
  rcases h with ⟨ha, -⟩ | ⟨-, hstop, -⟩
  · rw [ha]
    exact Nat.zero_le hi
  · exact hstop

end Forest

/-- The text from the start of the first tree to the end of the last. -/
def Forest.hull : Forest Entry → Option Span
  | .nil => none
  | .node e _ r => Span.over (some e.node.span) r.hull

section Hull

variable {e : Entry} {b f g r : Forest Entry}

@[simp] theorem Forest.hull_nil : (Forest.nil : Forest Entry).hull = none := rfl

@[simp] theorem Forest.hull_node : (Forest.node e b r).hull = Span.over (some e.node.span) r.hull := rfl

@[simp] theorem Forest.hull_tree : (Forest.tree e b).hull = some e.node.span := rfl

@[simp] theorem Forest.hull_append : ∀ {f : Forest Entry}, (f ++ g).hull = Span.over f.hull g.hull
  | .nil => rfl
  | .node _ _ r => by simp [Forest.hull_append (f := r), Span.over_assoc]

end Hull

theorem Span.merge_eq {x y : Span} (hx : x ≠ .absent) (hy : y ≠ .absent) (hstart : x.start ≤ y.start)
    (hstop : x.stop ≤ y.stop) : x.merge y = ⟨x.start, y.stop⟩ := by
  simp [Span.merge, Span.isAbsent, hx, hy, Nat.min_eq_left hstart, Nat.max_eq_right hstop]

/-! ## Operands -/

/-- A part of an expression or declaration. -/
structure Operand (e : Entry) : Prop where
  plain : e.Plain
  tag : e.node.tag.isOperand = true
  present : 0 < e.node.span.stop

section Operands

variable {e x y : Entry} {b d f g k r : Forest Entry}

theorem Operand.span_ne (h : Operand e) : e.node.span ≠ .absent := Span.ne_absent h.present

/-- All members are operands. -/
def Operands (f : Forest Entry) : Prop := ∀ e ∈ f.members, Operand e

@[simp] theorem operands_nil : Operands .nil ↔ True := by simp [Operands]

@[simp] theorem operands_append : Operands (f ++ g) ↔ Operands f ∧ Operands g := by
  simp [Operands, or_imp, forall_and]

@[simp] theorem operands_node : Operands (.node e b r) ↔ Operand e ∧ Operands b ∧ Operands r := by
  simp [Operands, or_imp, forall_and]

@[simp] theorem operands_tree : Operands (.tree e b) ↔ Operand e ∧ Operands b := by
  simp [Forest.tree]

theorem Operand.merge_eq {lo hi : Nat} (hx : Operand x) (hy : Operand y)
    (h : (Forest.node x d (Forest.node y k r)).Within lo hi) :
    x.node.span.merge y.node.span = ⟨x.node.span.start, y.node.span.stop⟩ := by
  rw [Forest.within_present hx.span_ne, Forest.within_present hy.span_ne] at h
  obtain ⟨-, hd, hxy, hk, -⟩ := h
  have := hd.le
  have := hk.le
  exact Span.merge_eq hx.span_ne hy.span_ne (by omega) (by omega)

theorem Operand.fresh {c : Construct} (hc : c.tag.isOperand = true) (hs : 0 < span.stop) :
    Operand (.fresh s c span) := ⟨rfl, hc, hs⟩

end Operands

/-! ## Lists of statements -/

/-- The entries have text from `lo` to `hi`, with no gap between one and the next. -/
def Tiles : Nat → Nat → List Entry → Prop
  | lo, hi, [] => lo = hi
  | lo, hi, k :: ks =>
    k.node.span.start = lo ∧ lo ≤ k.node.span.stop ∧ 0 < k.node.span.stop ∧ Tiles k.node.span.stop hi ks

section Lists

variable {k : Entry} {ks ls : List Entry} {braced : Bool} {lo hi stop : Nat}

theorem Tiles.append : ∀ {ks : List Entry} {lo mid : Nat}, Tiles lo mid ks →
    Tiles mid hi ls → Tiles lo hi (ks ++ ls)
  | [], _, _, h, h' => h ▸ h'
  | _ :: _, _, _, ⟨hs, hle, hpos, h⟩, h' => ⟨hs, hle, hpos, h.append h'⟩

theorem Tiles.le : ∀ {ks : List Entry} {lo hi : Nat}, Tiles lo hi ks → lo ≤ hi
  | [], _, _, h => Nat.le_of_eq h
  | _ :: _, _, _, ⟨_, hle, _, h⟩ => Nat.le_trans hle h.le

theorem Tiles.stop_le : ∀ {ks : List Entry} {lo hi : Nat}, Tiles lo hi ks → k ∈ ks → k.node.span.stop ≤ hi
  | [], _, _, _, hk => absurd hk not_mem_nil
  | _ :: _, _, _, ⟨_, _, _, h⟩, hk => by
    rcases mem_cons.1 hk with rfl | hk
    · exact h.le
    · exact h.stop_le hk

theorem Tiles.present (h : Tiles lo hi ks) (hk : k ∈ ks) : k.node.span ≠ .absent := by
  induction ks generalizing lo with
  | nil => simp at hk
  | cons x ks ih =>
    rcases mem_cons.1 hk with rfl | hk
    · exact Span.ne_absent h.2.2.1
    · exact ih h.2.2.2 hk

/-- A statement of a list. A scope without braces is the body of another statement, and never stands in a list. -/
def Entry.IsStatement (k : Entry) : Prop := k.node.tag.isStatement = true ∧ k.node.construct ≠ .scope false

theorem Entry.IsStatement.of_tag (h : k.node.tag.isStatement = true) (hs : k.node.tag ≠ .scope) :
    k.IsStatement := ⟨h, fun hc => hs (congrArg Construct.tag hc)⟩

theorem Entry.IsStatement.of_block (h : k.node.construct = .scope true) : k.IsStatement :=
  ⟨by rw [Node.tag, h]; rfl, by simp [h]⟩

/-- Statements, and labels after them. -/
def Sequence (ks : List Entry) : Prop :=
  ∃ ss ls, ks = ss ++ ls ∧ (∀ k ∈ ss, k.IsStatement) ∧ ∀ k ∈ ls, k.node.tag = .caseLabel

theorem Sequence.tag_ne (h : Sequence ks) (hk : k ∈ ks) :
    k.node.tag ≠ .group ∧ k.node.tag ≠ .function ∧ k.node.tag ≠ .unit := by
  obtain ⟨ss, ls, rfl, hs, hl⟩ := h
  rcases mem_append.1 hk with hk | hk
  · have := (hs k hk).1
    refine ⟨?_, ?_, ?_⟩ <;> rintro h <;> simp [h, Construct.Tag.isStatement] at this
  · simp [hl k hk]

theorem Sequence.construct_ne (h : Sequence ks) (hk : k ∈ ks) : k.node.construct ≠ .scope false := by
  obtain ⟨ss, ls, rfl, hs, hl⟩ := h
  rcases mem_append.1 hk with hk | hk
  · exact (hs k hk).2
  · intro hc
    have := hl k hk
    simp [Node.tag, hc, Construct.tag] at this

theorem Sequence.label (h : Sequence ks) (hk : k.node.tag = .caseLabel) : Sequence (ks ++ [k]) := by
  obtain ⟨ss, ls, rfl, hs, hl⟩ := h
  refine ⟨ss, ls ++ [k], append_assoc .., hs, fun x hx => ?_⟩
  rcases mem_append.1 hx with hx | hx
  · exact hl x hx
  · exact mem_singleton.1 hx ▸ hk

/-- The statements of one list. -/
def Items (ks : List Entry) : Prop := (∃ lo hi, Tiles lo hi ks) ∧ Sequence ks

/-- A keyword `else` starts at `p` or later and ends at `q`. -/
def ElseBetween (tokens : List Token) (p q : Nat) : Prop :=
  ∃ t ∈ tokens, t.isWord "else" = true ∧ p ≤ t.start ∧ t.stop = q

/-- The keyword `defer` stands within a span. -/
def DeferWithin (tokens : List Token) (span : Span) : Prop :=
  ∃ t ∈ tokens, t.isWord "defer" = true ∧ span.start ≤ t.start ∧ t.stop ≤ span.stop

/-- In `span` stand a keyword, the tokens `ts` and a semicolon. -/
def Wraps (tokens : List Token) (word : String) (span : Span) (ts : List Token) : Prop :=
  ∃ (k : Grammar.Keyword word) (s : Grammar.Punct ";"),
    Grammar.Occurs tokens span.start (k.1 :: (ts ++ [s.1])) ∧ s.1.stop = span.stop

/-- The expression `y` stands between a keyword and a semicolon in `outer`, and `inner` is its core. -/
def Quotes (tokens : List Token) (word : String) (y : Grammar.Expr) (outer inner : Span) : Prop :=
  Wraps tokens word outer y.tokens ∧ inner = y.core

/-- How far the jumps of a list go in a text up to `stop`: with braces around the list, a brace comes after them, and
without braces a jump is all of the list. -/
def Fills (braced : Bool) (stop : Nat) (kids : List Entry) : Prop :=
  ∀ k ∈ kids, k.node.tag.isJump = true → (k.node.span.stop < stop ↔ braced = true)

/-- What a construct governs: a list of statements, or a scope that has them. -/
def Governs (braced : Bool) (stop : Nat) (kids : List Entry) : Prop :=
  (Items kids ∧ Fills braced stop kids) ∨ ∃ x, kids = [x] ∧ x.node.tag = .scope ∧ x.node.span.stop = stop

theorem Governs.tag_ne (h : Governs braced stop ks) (hk : k ∈ ks) : k.node.tag ≠ .group := by
  rcases h with ⟨⟨-, hs⟩, -⟩ | ⟨x, rfl, hx, -⟩
  · exact (hs.tag_ne hk).1
  · obtain rfl := mem_singleton.1 hk
    simp [hx]

/-- A header and what it governs. -/
def Headed (braced : Bool) (stop : Nat) (kids : List Entry) : Prop :=
  ∃ g ks, kids = g :: ks ∧ g.node.tag = .group ∧ Governs braced stop ks

/-- A header and two alternatives. -/
def Alternatives (tokens : List Token) (kids : List Entry) : Prop :=
  ∃ g x y, kids = [g, x, y] ∧ g.node.tag = .group ∧ x.node.tag = .scope ∧ y.node.tag = .scope ∧
    ElseBetween tokens x.node.span.stop y.node.span.start

end Lists

/-- What may stand below a node. -/
def Shape (tokens : List Token) (node : Node) (kids : List Entry) : Prop :=
  match node.construct with
  | .unit _ => (∃ lo hi, Tiles lo hi kids) ∧ ∀ k ∈ kids, k.node.tag = .function
  | .function form => Governs form.braced node.span.stop kids
  | .scope braced => Items kids ∧ Fills braced node.span.stop kids
  | .caseLabel _ _ => Items kids
  | .switch _ braced => Headed braced node.span.stop kids
  | .branch _ braced => Headed braced node.span.stop kids ∨ Alternatives tokens kids
  | .loop l =>
    if l.form = .doLoop then ∃ x g, kids = [x, g] ∧ x.node.tag = .scope ∧ g.node.tag = .group
    else Headed l.braced node.span.stop kids
  | .returned value? =>
    node.span.start < node.span.stop ∧ kids.map (·.slot) = value?.toList ∧
      ∀ k ∈ kids, Operand k ∧ ∃ y, Quotes tokens "return" y node.span k.node.span
  | .deferred =>
    node.span.start < node.span.stop ∧ DeferWithin tokens node.span ∧ ∃ k, kids = [k] ∧
      ((k.node.tag.isOperand = true ∧ ∃ y : Grammar.Bare, Quotes tokens "defer" y.1 node.span k.node.span) ∨
        k.node.tag = .scope)
  | .jump _ => node.span.start < node.span.stop ∧ kids = []
  | .emptyStatement => kids = []
  | .group | .declaration _ _ _ | .suffixed _ _ | .binary _ _ _ | .identifier _ | .constant _ | .unary _ _
  | .initializerList => ∀ k ∈ kids, Operand k

/-! ## Labels -/

def Entry.isBreak (e : Entry) : Bool := e.node.construct == .jump .break

namespace Forest

/-- Whether the last of some statements is a `break`, or a block whose last statement is one. -/
def endsInBreak : Forest Entry → Bool
  | .nil => false
  | .node e b .nil => e.isBreak || (e.node.tag == .scope && b.roots.getLast?.any Entry.isBreak)
  | .node _ _ (.node e b r) => endsInBreak (.node e b r)

/-- After a label come only labels. It is noted whether it falls through: if another one comes after it or there is
`more`, and no `break` ends it. -/
def Marked (more : Bool) : Forest Entry → Prop
  | .nil => True
  | .node e b r => (e.node.tag = .caseLabel → (∀ k ∈ r.roots, k.node.tag = .caseLabel) ∧
      ∃ text, e.node.construct = .caseLabel text ((more || !r.roots.isEmpty) && !b.endsInBreak)) ∧ Marked more r

variable {more : Bool} {e : Entry} {b f g : Forest Entry}

theorem marked_of_tag_ne (h : ∀ k ∈ f.roots, k.node.tag ≠ .caseLabel) : f.Marked more := by
  induction f with
  | nil => trivial
  | node e b r _ ih =>
    obtain ⟨he, hr⟩ := forall_mem_cons.1 h
    exact ⟨fun hl => absurd hl he, ih hr⟩

theorem Marked.label {text : String} (h : f.Marked true)
    (he : e.node.construct = .caseLabel text (more && !b.endsInBreak)) : (f ++ tree e b).Marked more := by
  induction f with
  | nil => exact ⟨fun _ => ⟨by simp, text, by simpa using he⟩, trivial⟩
  | node x d r _ ih =>
    rw [node_append]
    refine ⟨fun hx => ?_, ih h.2⟩
    obtain ⟨hr, text', hx'⟩ := h.1 hx
    rw [roots_append, roots_tree]
    refine ⟨?_, text', by rw [hx']; cases r.roots <;> simp⟩
    exact forall_mem_append.2 ⟨hr, forall_mem_singleton.2 (by rw [Node.tag, he]; rfl)⟩

theorem Marked.right (h : (f ++ g).Marked more) : g.Marked more := by
  induction f with
  | nil => exact h
  | node _ _ _ _ ih => exact ih h.2

theorem Marked.pairwise (h : f.Marked more) :
    f.roots.Pairwise fun k k' => k.node.tag = .caseLabel → k'.node.tag = .caseLabel := by
  induction f with
  | nil => exact .nil
  | node e b r _ ih => exact .cons (fun k hk hl => (h.1 hl).1 k hk) (ih h.2)

theorem endsInBreak_append (f : Forest Entry) (e : Entry) (b : Forest Entry) : (f ++ tree e b).endsInBreak =
    (e.isBreak || (e.node.tag == .scope && b.roots.getLast?.any Entry.isBreak)) := by
  induction f with
  | nil => rfl
  | node x d r _ ih => cases r <;> exact ih

end Forest

theorem Tree.Holds.endsInBreak_eq {t : Tree} {p? : Option Slot} {f : Forest Entry} (h : t.Holds p? f)
    (hs : t.children s = f.rootSlots) : t.endsInBreak s = f.endsInBreak := by
  have hbreak : ∀ k ∈ f.members, t.isBreak k.slot = k.isBreak := fun k hk => by
    rw [Tree.isBreak, h.construct_eq hk]
    rfl
  by_cases hn : f.roots = []
  · rw [Forest.eq_nil_of_roots hn] at hs ⊢
    simp [Tree.endsInBreak, hs, Forest.endsInBreak]
  · obtain ⟨g, d, hf, -⟩ := Forest.exists_last (dropLast_concat_getLast hn).symm
    generalize f.roots.getLast hn = x at hf
    subst hf
    have hd : t.children x.slot = d.rootSlots := (Tree.holds_append.1 h).2.children_eq
    have hlast : (t.children x.slot).getLast?.any t.isBreak = d.roots.getLast?.any Entry.isBreak := by
      rw [hd, Forest.rootSlots, getLast?_map]
      cases hl : d.roots.getLast? with
      | none => rfl
      | some k => exact hbreak k (by simp [Forest.mem_members_of_mem_roots (mem_of_getLast? hl)])
    simp [Tree.endsInBreak, hs, Forest.endsInBreak_append, hbreak x (by simp), Tree.isScope, h.tag_eq (e := x), hlast]

/-- Every member is as it was made and has below it what it may have, with labels that are marked. -/
def Shaped (tokens : List Token) : Forest Entry → Prop :=
  Forest.Every fun e below => e.Plain ∧ Shape tokens e.node below.roots ∧ below.Marked false

/-! ## Children -/

/-- What stands below a node: a function, an operand, what is deferred, a header or a body, or a member of a list of
statements. -/
inductive Child (n : Node) (k : Entry) : Prop
  | function (hn : n.tag = .unit) (hk : k.node.tag = .function)
  | operand (hk : Operand k)
  | operation (hn : n.tag = .deferred) (hk : k.node.tag.isOperand = true)
  | part (hk : k.node.tag = .group ∨ k.node.tag = .scope)
  | item {ks : List Entry} (hn : n.tag.holdsStatements = true) (hks : Items ks)
      (hfills : n.tag ≠ .caseLabel → Fills n.construct.braced n.span.stop ks) (hk : k ∈ ks)

section Child

variable {tokens : List Token} {n : Node} {kids : List Entry} {k : Entry}

theorem shape_of_isOperand (hn : n.tag.isOperand = true) (h : ∀ k ∈ kids, Operand k) : Shape tokens n kids := by
  unfold Node.tag at hn
  unfold Shape
  generalize n.construct = c at hn
  cases c <;> first | exact h | cases hn

theorem Shape.operands (h : Shape tokens n kids) (hn : n.tag.isOperand = true) : ∀ k ∈ kids, Operand k := by
  unfold Node.tag at hn
  unfold Shape at h
  generalize n.construct = c at hn h
  cases c <;> first | exact h | cases hn

theorem Governs.child (h : Governs n.construct.braced n.span.stop kids) (hn : n.tag.holdsStatements = true)
    (hk : k ∈ kids) : Child n k := by
  rcases h with ⟨hks, hfills⟩ | ⟨x, rfl, hx, -⟩
  · exact .item hn hks (fun _ => hfills) hk
  · exact .part (.inr (mem_singleton.1 hk ▸ hx))

theorem Headed.child (h : Headed n.construct.braced n.span.stop kids) (hn : n.tag.holdsStatements = true)
    (hk : k ∈ kids) : Child n k := by
  obtain ⟨g, ks, rfl, hg, hks⟩ := h
  rcases mem_cons.1 hk with rfl | hk
  · exact .part (.inl hg)
  · exact hks.child hn hk

theorem Shape.child (h : Shape tokens n kids) (hk : k ∈ kids) : Child n k := by
  have htag : n.tag = n.construct.tag := rfl
  unfold Shape at h
  cases hc : n.construct <;> simp only [hc] at h <;> rw [hc] at htag
  case unit => exact .function htag (h.2 k hk)
  case function => exact Governs.child (by rwa [hc]) (by rw [htag]; rfl) hk
  case scope => exact .item (by rw [htag]; rfl) h.1 (fun _ => by rw [hc]; exact h.2) hk
  case caseLabel => exact .item (by rw [htag]; rfl) h (fun hne => absurd htag hne) hk
  case switch => exact Headed.child (by rwa [hc]) (by rw [htag]; rfl) hk
  case branch =>
    rcases h with h | ⟨g, x, y, rfl, hg, hx, hy, -⟩
    · exact Headed.child (by rwa [hc]) (by rw [htag]; rfl) hk
    · simp only [mem_cons, not_mem_nil, or_false] at hk
      rcases hk with rfl | rfl | rfl
      exacts [.part (.inl hg), .part (.inr hx), .part (.inr hy)]
  case loop =>
    split at h
    · obtain ⟨x, g, rfl, hx, hg⟩ := h
      simp only [mem_cons, not_mem_nil, or_false] at hk
      rcases hk with rfl | rfl
      exacts [.part (.inr hx), .part (.inl hg)]
    · exact Headed.child (by rwa [hc]) (by rw [htag]; rfl) hk
  case returned => exact .operand (h.2.2 k hk).1
  case deferred =>
    obtain ⟨-, -, x, rfl, hx⟩ := h
    obtain rfl := mem_singleton.1 hk
    exact hx.elim (fun hx => .operation htag hx.1) fun hx => .part (.inr hx)
  case jump => simp [h] at hk
  case emptyStatement => simp [h] at hk
  all_goals exact .operand (h k hk)

/-- How far jumps go in their parent, whichever it is. Labels have no end of their own. -/
theorem Shape.fills (h : Shape tokens n kids) (hn : n.tag ≠ .caseLabel) :
    Fills n.construct.braced n.span.stop kids := by
  intro k hk hj
  cases h.child hk with
  | function _ hk => simp [hk, Construct.Tag.isJump] at hj
  | operand hk => simp [Construct.Tag.isJump_of_isOperand hk.tag] at hj
  | operation _ hk => simp [Construct.Tag.isJump_of_isOperand hk] at hj
  | part hk => rcases hk with hk | hk <;> simp [hk, Construct.Tag.isJump] at hj
  | item _ _ hfills hk => exact hfills hn k hk hj

/-- Functions stand directly below the whole source, and nothing else does. -/
theorem Shape.tag_ne (h : Shape tokens n kids) (hn : n.tag ≠ .unit) :
    ∀ k ∈ kids, k.node.tag ≠ .function ∧ k.node.tag ≠ .unit := by
  have hoperand {tag : Construct.Tag} (htag : tag.isOperand = true) : tag ≠ .function ∧ tag ≠ .unit := by
    constructor <;> rintro rfl <;> cases htag
  intro k hk
  cases h.child hk with
  | function hu => exact absurd hu hn
  | operand hk => exact hoperand hk.tag
  | operation _ hk => exact hoperand hk
  | part hk => rcases hk with hk | hk <;> simp [hk]
  | item _ hks _ hk => exact (hks.2.tag_ne hk).2

theorem Shape.present (h : Shape tokens n kids) (hn : n.tag ≠ .deferred) :
    ∀ k ∈ kids, k.node.tag = .declaration → k.node.span ≠ .absent := by
  intro k hk hd
  cases h.child hk with
  | function _ hk => simp [hk] at hd
  | operand hk => exact hk.span_ne
  | operation hu => exact absurd hu hn
  | part hk => rcases hk with hk | hk <;> simp [hk] at hd
  | item _ hks _ hk =>
    obtain ⟨⟨_, _, htiles⟩, -⟩ := hks
    exact htiles.present hk

theorem Shape.present_of_returned {v : Entry} (h : Shape tokens n [v])
    (hn : n.construct = .returned (some s)) : v.node.span ≠ .absent := by
  simp only [Shape, hn] at h
  exact (h.2.2 v (mem_singleton_self v)).1.span_ne

end Child

theorem Shaped.isOperand {tokens : List Token} {f : Forest Entry} (hs : Shaped tokens f)
    (h : ∀ k ∈ f.roots, k.node.tag.isOperand = true) : ∀ k ∈ f.members, k.node.tag.isOperand = true := by
  induction f with
  | nil => simp
  | node e b r ihb ihr =>
    obtain ⟨⟨-, he, -⟩, hb, hr⟩ := hs
    obtain ⟨htag, h⟩ := forall_mem_cons.1 h
    intro k hk
    simp only [Forest.members_node, mem_cons, mem_append] at hk
    rcases hk with rfl | hk | hk
    · exact htag
    · exact ihb hb (fun k hk => (he.operands htag k hk).tag) k hk
    · exact ihr hr h k hk

theorem Operands.marked {f : Forest Entry} (h : Operands f) : f.Marked false :=
  Forest.marked_of_tag_ne fun k hk hl => by
    have := (h k (Forest.mem_members_of_mem_roots hk)).tag
    simp [hl, Construct.Tag.isOperand] at this

theorem shaped_of_operands {tokens : List Token} : ∀ {f : Forest Entry}, Operands f → Shaped tokens f
  | .nil, _ => trivial
  | .node e b r, h => by
    obtain ⟨he, hb, hr⟩ := operands_node.1 h
    refine ⟨⟨he.plain, shape_of_isOperand he.tag fun k hk => ?_, hb.marked⟩, shaped_of_operands hb,
      shaped_of_operands hr⟩
    exact hb k (Forest.mem_members_of_mem_roots hk)

end Deferral
