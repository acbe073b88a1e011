import Deferral.Proofs.Staging

/-!
# The core of an expression

A parenthesis around an operand leaves no event. So the operands that an expression leaves on the stage have the text of
its core (`Expr.widen_events`), and this is all of its text if and only if neither its first nor its last operand stands
in parentheses (`Expr.core_eq_extent`).
-/

namespace Deferral.Grammar

variable {p : Nat} {t : Token} {source : List UInt8}

/-! ## The text of operands -/

/-- The text of an operator before its operand is known from its end and its length. -/
theorem widen_operator (hne : t.text ≠ "") (s? : Option Span) :
    (mark .unaryOperator t.stop t.text).widen s? = Span.over s? (some t.span) := by
  have hstart : (mark .unaryOperator t.stop t.text).start = t.start := by
    show t.stop - t.text.utf8ByteSize = t.start
    rw [Token.size_text hne, Token.stop, Nat.add_sub_cancel]
  rw [Event.widen_leaf rfl, hstart]
  rfl

theorem widen_sign (op : Sign) (s? : Option Span) :
    (mark .unaryOperator op.1.stop op.1.text).widen s? = Span.over s? (some op.1.span) := by
  have hsigns : "" ∉ signs := by decide
  exact widen_operator (fun hnil => hsigns (hnil ▸ List.contains_iff_mem.1 (Bool.and_eq_true_iff.1 op.2).2)) s?

theorem widen_sizeof (k : Keyword "sizeof") (s? : Option Span) :
    (mark .unaryOperator k.1.stop "sizeof").widen s? = Span.over s? (some k.1.span) := by
  have htext : k.1.text = "sizeof" := by simpa [Token.isWord] using (Bool.and_eq_true_iff.1 k.2).2
  have h := widen_operator (t := k.1) (by rw [htext]; decide) s?
  rwa [htext] at h

theorem widen_connective (op : Connective) (n : Nat) (literal : String) (s? : Option Span) :
    (mark op.operator.kind n literal).widen s? = s? := by
  refine Event.widen_connective ?_ s?
  show op.operator.kind.isConnective = true
  rcases kind_of_operator? op.known with h | h | h <;> rw [h] <;> rfl

mutual

theorem Expr.widen_events : ∀ (e : Expr) (s? : Option Span),
    widenAll (e.events source) s? = Span.over s? (some e.core)
  | .name _, _ | .constant _, _ | .strings _ _ _, _ | .measure _ _, _ => rfl
  | .sign op e, s? => by
    rw [Expr.events, widenAll_cons, widen_sign, e.widen_events, Span.over_assoc]
    rfl
  | .sizeOf k e, s? => by
    rw [Expr.events, widenAll_cons, widen_sizeof, e.widen_events, Span.over_assoc]
    rfl
  | .cast g e, s? => by
    rw [Expr.events, widenAll_cons, e.widen_events, Event.widen_leaf rfl, Span.over_assoc]
    rfl
  | .group _ e _, s? => e.widen_events s?
  | .binary l op r, s? => by
    simp only [Expr.events, widenAll_append, widenAll_cons, widenAll_nil, widen_connective, l.widen_events,
      r.widen_events, Span.over_assoc]
    rfl
  | .conditional c _ y _ n, s? => by
    have h (n : Nat) (literal : String) (s? : Option Span) : (mark .binaryOperator n literal).widen s? = s? := rfl
    simp only [Expr.events, widenAll_append, widenAll_cons, widenAll_nil, h, c.widen_events, y.widen_events,
      n.widen_events, Span.over_assoc]
    rfl
  | .call b _ as c, s? => by
    obtain ⟨t?, ht⟩ := as.widen_events (Span.over s? (some b.core))
    simp only [Expr.events, widenAll_append, b.widen_events, ht, widenAll_cons, widenAll_nil,
      Event.widen_compound (e := mark .postfixCall _ _) rfl rfl, Span.over_assoc, Span.over_over_some]
    rfl
  | .index b _ e c, s? => by
    simp only [Expr.events, widenAll_append, b.widen_events, e.widen_events, widenAll_cons, widenAll_nil,
      Event.widen_compound (e := mark .postfixIndex _ _) rfl rfl, Span.over_assoc, Span.over_over_some]
    rfl
  | .member b _ f, s? => by
    simp only [Expr.events, widenAll_append, b.widen_events, widenAll_cons, widenAll_nil,
      Event.widen_compound (e := mark .postfixMember _ _) rfl rfl, Span.over_assoc, Span.some_over_some]
    rfl
  | .increment b op, s? => by
    simp only [Expr.events, widenAll_append, b.widen_events, widenAll_cons, widenAll_nil,
      Event.widen_compound (e := mark .postfixIncrement _ _) rfl rfl, Span.over_assoc, Span.some_over_some]
    rfl

theorem Args.widen_events : ∀ (as : Args) (s? : Option Span), ∃ t?, widenAll (as.events source) s? = Span.over s? t?
  | .none, s? => ⟨none, (Span.over_none s?).symm⟩
  | .last e, s? => ⟨some e.core, e.widen_events s?⟩
  | .more e _ rest, s? => by
    obtain ⟨t?, ht⟩ := rest.widen_events (Span.over s? (some e.core))
    exact ⟨Span.over (some e.core) t?, by rw [Args.events, widenAll_append, e.widen_events, ht, Span.over_assoc]⟩

end

/-! ## Parentheses at the ends -/

@[simp] theorem Expr.head?_tokens (e : Expr) : e.tokens.head?.map Token.start = some e.start := by
  cases e with
  | name | constant | strings | measure | sign | sizeOf | cast | group => rfl
  | binary l | conditional l | call l | index l | member l | increment l =>
    obtain ⟨t, ht, hstart⟩ := Option.map_eq_some_iff.1 l.head?_tokens
    simp [Expr.tokens, Expr.start, ht, hstart]

theorem Expr.extent_tokens (e : Expr) : extent e.tokens = ⟨e.start, e.stop⟩ := by
  simp [extent]

theorem Expr.le_start {e : Expr} (h : Ordered p e.tokens) : p ≤ e.start := by
  obtain ⟨t, ht, hstart⟩ := Option.map_eq_some_iff.1 e.head?_tokens
  obtain ⟨ts, hts⟩ := List.head?_eq_some_iff.1 ht
  rw [hts] at h
  exact hstart ▸ h.1

/-- The core starts where the expression does, unless the first operand stands in parentheses. -/
theorem Expr.coreStart_spec {p : Nat} : ∀ {e : Expr}, Ordered p e.tokens →
    e.start ≤ e.coreStart ∧ (e.coreStart = e.start ↔ e.startsGrouped = false)
  | .name _, _ | .constant _, _ | .strings _ _ _, _ | .measure _ _, _ | .sign _ _, _ | .sizeOf _ _, _ | .cast _ _, _ =>
    ⟨le_rfl, by simp [Expr.coreStart, Expr.start, Expr.startsGrouped]⟩
  | .group o e _, ⟨_, ho, he⟩ => by
    have hinner := (ordered_append.1 he).1
    have hle := Expr.le_start hinner
    have hcore := (Expr.coreStart_spec hinner).1
    simp only [Expr.coreStart, Expr.start, Expr.startsGrouped]
    exact ⟨by omega, by simp; omega⟩
  | .binary l _ _, h | .conditional l _ _ _ _, h | .call l _ _ _, h | .index l _ _ _, h | .member l _ _, h
  | .increment l _, h => Expr.coreStart_spec (e := l) (ordered_append.1 h).1

/-- The core ends where the expression does, unless the last operand stands in parentheses. -/
theorem Expr.coreStop_spec {p : Nat} : ∀ {e : Expr}, Ordered p e.tokens →
    e.coreStop ≤ e.stop ∧ (e.coreStop = e.stop ↔ e.endsGrouped = false)
  | .name _, _ | .constant _, _ | .strings _ _ _, _ | .measure _ _, _ | .call _ _ _ _, _ | .index _ _ _ _, _
  | .member _ _ _, _ | .increment _ _, _ => ⟨le_rfl, by simp [Expr.coreStop, Expr.stop, Expr.endsGrouped]⟩
  | .sign _ e, ⟨_, _, he⟩ | .sizeOf _ e, ⟨_, _, he⟩ => Expr.coreStop_spec (e := e) he
  | .cast _ e, h => Expr.coreStop_spec (e := e) (ordered_append.1 h).2
  | .group o e c, ⟨_, _, he⟩ => by
    obtain ⟨hinner, hc, hc', -⟩ := ordered_append.1 he
    have hcore := (Expr.coreStop_spec hinner).1
    rw [Expr.lastStop_tokens] at hc
    simp only [Expr.coreStop, Expr.stop, Expr.endsGrouped]
    exact ⟨by omega, by simp; omega⟩
  | .binary _ _ r, h => Expr.coreStop_spec (e := r) (ordered_append.1 h).2.2.2
  | .conditional _ _ _ _ n, h => by
    have hrest := (ordered_append.1 h).2.2.2
    exact Expr.coreStop_spec (e := n) (ordered_append.1 hrest).2.2.2

/-- The core is the whole text of an expression, unless there is a parenthesis around an operand at one of its ends. -/
theorem Expr.core_eq_extent {e : Expr} (h : Ordered p e.tokens) :
    e.core = extent e.tokens ↔ e.startsGrouped = false ∧ e.endsGrouped = false := by
  rw [Expr.extent_tokens, Expr.core, Span.mk.injEq, (Expr.coreStart_spec h).2, (Expr.coreStop_spec h).2]

end Deferral.Grammar
