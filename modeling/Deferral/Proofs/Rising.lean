import Deferral.Proofs.TokenOrder

/-!
# Events in order

The events of an expression come in the order of the text: each ends no earlier than the one before it, and the text of
a leaf starts after what came before (`Expr.rising`).
-/

namespace Deferral

variable {kind : Event.Kind}

/-- Kinds of events that stage a leaf of an expression, or an operator that waits. -/
def Event.Kind.isLeaf : Event.Kind → Bool
  | .identifier | .constant | .unaryOperator => true
  | _ => false

/-- Kinds of events that combine what is staged. -/
def Event.Kind.isCompound : Event.Kind → Bool
  | .assignment | .relational | .binaryOperator | .postfixCall | .postfixIndex | .postfixMember | .postfixIncrement
  | .initializerList | .arraySuffix => true
  | _ => false

namespace Grammar

/-- The text of a leaf starts at `p` or later. -/
def LeafAfter (p : Nat) (e : Event) : Prop :=
  match e.start? with
  | some start => p ≤ start
  | none => p + e.literal.utf8ByteSize ≤ e.offset

theorem LeafAfter.mono {p q : Nat} {e : Event} (h : LeafAfter p e) (hq : q ≤ p) : LeafAfter q e := by
  unfold LeafAfter at *
  split at h <;> omega

/-- An event of an expression after text that ends at `p`. -/
structure Follows (p : Nat) (e : Event) : Prop where
  pos : 0 < e.offset
  le : p ≤ e.offset
  kind : (e.kind.isLeaf = true ∧ LeafAfter p e) ∨ e.kind.isCompound = true

/-- Events of expressions in text between `p` and `q`. -/
def Rising : Nat → List Event → Nat → Prop
  | p, [], q => p ≤ q
  | p, e :: es, q => Follows p e ∧ Rising e.offset es q

variable {p q r : Nat} {es es' : List Event} {t : Token} {source : List UInt8}

theorem Follows.mono {e : Event} (h : Follows p e) (hq : q ≤ p) : Follows q e :=
  ⟨h.pos, hq.trans h.le, h.kind.imp_left fun h => ⟨h.1, h.2.mono hq⟩⟩

theorem Rising.mono_left (hq : q ≤ p) : ∀ {es : List Event}, Rising p es r → Rising q es r
  | [], h => hq.trans h
  | _ :: _, ⟨he, h⟩ => ⟨he.mono hq, h⟩

theorem Rising.append : ∀ {p : Nat} {es : List Event}, Rising p es q → Rising q es' r → Rising p (es ++ es') r
  | _, [], h, h' => h'.mono_left h
  | _, _ :: _, ⟨he, h⟩, h' => ⟨he, h.append h'⟩

theorem Rising.mono_right (hr : q ≤ r) (h : Rising p es q) : Rising p es r := by
  have : Rising p (es ++ []) r := h.append hr
  rwa [List.append_nil] at this

/-! ## Single events -/

theorem rising_compound {n : Nat} {literal : String} (hk : kind.isCompound = true) (hp : p ≤ n)
    (hn : 0 < n) : Rising p [mark kind n literal] n :=
  ⟨⟨hn, hp, .inr hk⟩, le_rfl⟩

theorem rising_tokenLeaf (hk : kind.isLeaf = true) (h : Ordered p [t]) :
    Rising p [tokenLeaf kind t] t.stop := by
  obtain ⟨hp, ht, -⟩ := h
  exact ⟨⟨show 0 < t.stop by omega, show p ≤ t.stop by omega, .inl ⟨hk, hp⟩⟩, le_rfl⟩

theorem rising_textLeaf {start stop : Nat} (hk : kind.isLeaf = true) (hp : p ≤ start)
    (hs : start < stop) : Rising p [textLeaf source kind start stop] stop :=
  ⟨⟨show 0 < stop by omega, show p ≤ stop by omega, .inl ⟨hk, hp⟩⟩, le_rfl⟩

theorem leafAfter_text (h : p ≤ t.start) : LeafAfter p (mark kind t.stop t.text) := by
  have := t.size_text_le
  show p + t.text.utf8ByteSize ≤ t.stop
  rw [Token.stop]
  omega

theorem rising_text (hk : kind.isLeaf = true) (h : Ordered p [t]) :
    Rising p [mark kind t.stop t.text] t.stop := by
  obtain ⟨hp, ht, -⟩ := h
  exact ⟨⟨show 0 < t.stop by omega, show p ≤ t.stop by omega, .inl ⟨hk, leafAfter_text hp⟩⟩, le_rfl⟩

/-! ## Expressions -/

theorem Expr.tokens_ne_nil (e : Expr) : e.tokens ≠ [] := by
  cases e <;> simp [Expr.tokens, Enclosed.tokens]

theorem Expr.le_stop {e : Expr} (h : Ordered p e.tokens) : p ≤ e.stop := by
  have := h.le_lastStop
  rwa [Expr.lastStop_tokens] at this

@[simp] theorem Enclosed.ordered_tokens {g : Enclosed} : Ordered p g.tokens ↔
    p ≤ g.opening.start ∧ g.opening.start < g.opening.stop ∧ Ordered g.opening.stop g.inside ∧
      lastStop g.opening.stop g.inside ≤ g.closing.start ∧ g.closing.start < g.closing.stop := by
  simp [Enclosed.tokens]

theorem Enclosed.lt_stop {g : Enclosed} (h : Ordered p g.tokens) : g.opening.start < g.closing.stop := by
  obtain ⟨-, ho, hi, hc, hc'⟩ := Enclosed.ordered_tokens.1 h
  have := hi.le_lastStop
  omega

mutual

theorem Expr.rising {p : Nat} : ∀ {e : Expr}, Ordered p e.tokens → Rising p (e.events source) e.stop
  | .name _, h | .constant _, h => rising_tokenLeaf rfl h
  | .strings t more _, ⟨hp, ht, hm⟩ => by
    have := hm.le_lastStop
    exact rising_textLeaf rfl hp (by omega)
  | .measure k g, ⟨hp, hk, hg⟩ => by
    have := Enclosed.lt_stop hg
    have := (Enclosed.ordered_tokens.1 hg).1
    exact rising_textLeaf rfl hp (by omega)
  | .sign op e, ⟨hp, hop, he⟩ => (rising_text rfl ⟨hp, hop, trivial⟩).append (Expr.rising he)
  | .sizeOf k e, ⟨hp, hk, he⟩ => by
    have htext : k.1.text = "sizeof" := by simpa [Token.isWord] using (Bool.and_eq_true_iff.1 k.2).2
    have hleaf : Rising p [mark .unaryOperator k.1.stop k.1.text] k.1.stop := rising_text rfl ⟨hp, hk, trivial⟩
    rw [htext] at hleaf
    exact hleaf.append (Expr.rising he)
  | .cast g e, h => by
    simp only [Expr.tokens, ordered_append, Enclosed.lastStop_tokens] at h
    exact (rising_textLeaf rfl (Enclosed.ordered_tokens.1 h.1).1 (Enclosed.lt_stop h.1)).append (Expr.rising h.2)
  | .group o e c, h => by
    simp only [Expr.tokens, ordered_cons, ordered_append, Expr.lastStop_tokens] at h
    obtain ⟨ho, ho', he, hc, hc', -⟩ := h
    exact ((Expr.rising he).mono_left (by omega)).mono_right (by simp only [Expr.stop]; omega)
  | .binary l op r, h => by
    simp only [Expr.tokens, ordered_cons, ordered_append, Expr.lastStop_tokens] at h
    obtain ⟨hl, hop, hop', hr⟩ := h
    have hk : op.operator.kind.isCompound = true := by
      rcases kind_of_operator? op.known with h | h | h <;> rw [h] <;> rfl
    have := Expr.le_stop hr
    exact (Expr.rising hl).append (((Expr.rising hr).mono_left (by omega)).append
      (rising_compound hk le_rfl (by omega)))
  | .conditional c q y k n, h => by
    simp only [Expr.tokens, ordered_cons, ordered_append, Expr.lastStop_tokens] at h
    obtain ⟨hc, hq, hq', hy, hk, hk', hn⟩ := h
    have := Expr.le_stop hn
    exact (Expr.rising hc).append (((Expr.rising hy).mono_left (by omega)).append
      (((Expr.rising hn).mono_left (by omega)).append
        ((rising_compound rfl le_rfl (by omega)).append (rising_compound rfl le_rfl (by omega)))))
  | .call b o as c, h => by
    simp only [Expr.tokens, ordered_cons, ordered_append, Expr.lastStop_tokens] at h
    obtain ⟨hb, ho, ho', has, hc, hc', -⟩ := h
    exact (Expr.rising hb).append (((Args.rising has).mono_left (by omega)).append
      (rising_compound rfl (by omega) (by omega)))
  | .index b o e c, h => by
    simp only [Expr.tokens, ordered_cons, ordered_append, Expr.lastStop_tokens] at h
    obtain ⟨hb, ho, ho', he, hc, hc', -⟩ := h
    exact (Expr.rising hb).append (((Expr.rising he).mono_left (by omega)).append
      (rising_compound rfl (by omega) (by omega)))
  | .member b d f, h => by
    simp only [Expr.tokens, ordered_cons, ordered_append, Expr.lastStop_tokens] at h
    obtain ⟨hb, hd, hd', hf, hf', -⟩ := h
    exact (Expr.rising hb).append (rising_compound rfl (by omega) (by omega))
  | .increment b op, h => by
    simp only [Expr.tokens, ordered_cons, ordered_append, Expr.lastStop_tokens] at h
    obtain ⟨hb, hop, hop', -⟩ := h
    exact (Expr.rising hb).append (rising_compound rfl (by omega) (by omega))

theorem Args.rising {p : Nat} : ∀ {as : Args}, Ordered p as.tokens →
    Rising p (as.events source) (lastStop p as.tokens)
  | .none, _ => le_rfl
  | .last e, h => by
    simp only [Args.tokens, Expr.lastStop_tokens]
    exact Expr.rising h
  | .more e comma rest, h => by
    simp only [Args.tokens, ordered_cons, ordered_append, Expr.lastStop_tokens] at h
    obtain ⟨he, hc, hc', hr⟩ := h
    simp only [Args.tokens, lastStop_append, lastStop_cons]
    exact (Expr.rising he).append ((Args.rising hr).mono_left (by omega))

end

/-! ## Initializers and array suffixes -/

theorem Init.le_stop {i : Init} (h : Ordered p i.tokens) : p ≤ i.stop := by
  have := h.le_lastStop
  rwa [Init.lastStop_tokens] at this

mutual

theorem Init.rising {p : Nat} : ∀ {i : Init}, Ordered p i.tokens → Rising p (i.events source) i.stop
  | .value _, h => Expr.rising h
  | .list o ms c, h => by
    simp only [Init.tokens, ordered_cons, ordered_append] at h
    obtain ⟨ho, ho', hms, hc, hc', -⟩ := h
    exact ((Inits.rising hms).mono_left (by omega)).append (rising_compound rfl (by omega) (by omega))

theorem Inits.rising {p : Nat} : ∀ {is : Inits}, Ordered p is.tokens →
    Rising p (is.events source) (lastStop p is.tokens)
  | .none, _ => le_rfl
  | .last i, h => by
    simp only [Inits.tokens, Init.lastStop_tokens]
    exact Init.rising h
  | .more i comma rest, h => by
    simp only [Inits.tokens, ordered_cons, ordered_append, Init.lastStop_tokens] at h
    obtain ⟨hi, hc, hc', hr⟩ := h
    simp only [Inits.tokens, lastStop_append, lastStop_cons]
    exact (Init.rising hi).append ((Inits.rising hr).mono_left (by omega))

end

theorem rising_suffixes {p : Nat} : ∀ {gs : List Enclosed}, Ordered p (gs.flatMap Enclosed.tokens) →
    Rising p (suffixEvents source gs) (lastStop p (gs.flatMap Enclosed.tokens))
  | [], _ => le_rfl
  | g :: gs, h => by
    simp only [List.flatMap_cons, ordered_append, Enclosed.lastStop_tokens] at h
    have := Enclosed.lt_stop h.1
    have := (Enclosed.ordered_tokens.1 h.1).1
    simp only [List.flatMap_cons, lastStop_append, Enclosed.lastStop_tokens]
    exact ⟨⟨show 0 < g.closing.stop by omega, show p ≤ g.closing.stop by omega, .inr rfl⟩, rising_suffixes h.2⟩

end Grammar

end Deferral
