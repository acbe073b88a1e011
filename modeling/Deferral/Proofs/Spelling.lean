import Deferral.Proofs.Legible
import Deferral.Proofs.Rising

/-!
# Expressions are spelled out

The events of an expression are legible: its tokens are not empty and lie within the source, operators are known, and
there are fewer operands than bytes. In declarations the text of a type word may be missing, which is empty if the word
is not UTF-8, and the name of a parameter (`Spelled`).
-/

namespace Deferral

open List

variable {kind : Event.Kind}

namespace Utf8

theorem decodeFrom_some_ne_nil : ∀ (bytes : List UInt8) (p : Partial), decodeFrom (some p) bytes ≠ []
  | [], _ => by simp [decodeFrom]
  | b :: rest, p => by
    rw [decodeFrom]
    split
    · split
      · simp
      · exact decodeFrom_some_ne_nil rest _
    · split <;> simp

theorem decode_ne_nil {bytes : List UInt8} (h : bytes ≠ []) : decode bytes ≠ [] := by
  cases bytes with
  | nil => exact absurd rfl h
  | cons b rest =>
    rw [decode, decodeFrom]
    split
    · simp
    · exact decodeFrom_some_ne_nil rest _
    · simp

theorem lossy_ne_empty {bytes : List UInt8} (h : bytes ≠ []) : (lossy bytes).isEmpty = false := by
  have := decode_ne_nil h
  simpa [lossy, String.isEmpty_iff] using this

end Utf8

namespace Grammar

open Assembly

variable {source : List UInt8} {p n : Nat} {t : Token} {ts us : List Token}

/-! ## Tokens within a source -/

/-- The tokens come one after the other from `p` on, and the last ends at `n` or before. -/
def Fits (p : Nat) (ts : List Token) (n : Nat) : Prop := Ordered p ts ∧ lastStop p ts ≤ n

@[simp] theorem fits_append : Fits p (ts ++ us) n ↔ Fits p ts n ∧ Fits (lastStop p ts) us n := by
  simp only [Fits, ordered_append, lastStop_append]
  constructor
  · rintro ⟨⟨ho, ho'⟩, hl⟩
    exact ⟨⟨ho, ho'.le_lastStop.trans hl⟩, ho', hl⟩
  · rintro ⟨⟨ho, -⟩, ho', hl⟩
    exact ⟨⟨ho, ho'⟩, hl⟩

@[simp] theorem fits_cons : Fits p (t :: ts) n ↔ (p ≤ t.start ∧ t.start < t.stop ∧ t.stop ≤ n) ∧ Fits t.stop ts n := by
  simp only [Fits, ordered_cons, lastStop_cons]
  constructor
  · rintro ⟨⟨hp, ht, ho⟩, hl⟩
    exact ⟨⟨hp, ht, ho.le_lastStop.trans hl⟩, ho, hl⟩
  · rintro ⟨⟨hp, ht, -⟩, ho, hl⟩
    exact ⟨⟨hp, ht, ho⟩, hl⟩

theorem Ordered.length_le : ∀ {p : Nat} {ts : List Token}, Ordered p ts → p + ts.length ≤ lastStop p ts
  | _, [], _ => le_rfl
  | p, t :: ts, ⟨hp, ht, ho⟩ => by
    have := ho.length_le
    rw [lastStop_cons, length_cons]
    omega

theorem Fits.length_le (h : Fits p ts n) : ts.length ≤ n := by
  have := h.1.length_le
  have := h.2
  omega

/-! ## Single events -/

theorem lossy_token (h : t.start < t.stop) : t.literal.isEmpty = false :=
  Utf8.lossy_ne_empty fun hb => by simp [Token.stop, hb] at h

theorem placed_tokenLeaf (h : t.start < t.stop) : (tokenLeaf kind t).placed = true := by
  simp [Event.placed, tokenLeaf, h, lossy_token h]

theorem placed_textLeaf {start stop : Nat} (h : start < stop) (hn : stop ≤ source.length) :
    (textLeaf source kind start stop).placed = true := by
  have hne : (sliceOf source start stop).isEmpty = false := by
    refine Utf8.lossy_ne_empty fun hb => ?_
    have := congrArg List.length hb
    simp at this
    omega
  simp [Event.placed, textLeaf, h, hne]

theorem placed_text (h : t.text.isEmpty = false) : (mark kind t.stop t.text).placed = true := by
  have hsize : t.text.utf8ByteSize ≤ t.stop := t.size_text_le.trans (Nat.le_add_left ..)
  simp [Event.placed, mark, h, hsize]

theorem Sign.text_ne (op : Sign) : op.1.text.isEmpty = false := by
  have hall : ∀ s ∈ signs, s.isEmpty = false := by decide
  exact hall _ (by simpa using (Bool.and_eq_true_iff.1 op.2).2)

theorem text_ne_of_operator? {text : String} {op : Operator} (h : operator? text = some op) : text.isEmpty = false := by
  refine Bool.eq_false_iff.2 fun hempty => ?_
  rw [String.isEmpty_iff.1 hempty] at h
  cases h

theorem Connective.text_ne (op : Connective) : op.token.text.isEmpty = false := text_ne_of_operator? op.known

theorem TagKeyword.text_ne (k : TagKeyword) : k.1.text.isEmpty = false := by
  have hall : ∀ s ∈ Token.tagWords, s.isEmpty = false := by decide
  exact hall _ (by simpa using k.2)

theorem isSome_member? (point : Point) {name : String} (h : name.isEmpty = false) :
    (member? (point.1.text ++ name)).isSome = true := by
  have hne : name.toList.isEmpty = false := by
    simpa [String.isEmpty_iff] using h
  have htext : point.1.text = "." ∨ point.1.text = "->" := by
    have := point.2
    simp only [Token.isPunct, Bool.or_eq_true, Bool.and_eq_true, beq_iff_eq] at this
    exact this.imp (·.2) (·.2)
  rcases htext with h | h
  · simp [member?, h, hne]
  · simp [member?, h, hne]

theorem isSome_increment? (op : Increment) : (increment? op.1.text).isSome = true := by
  have := op.2
  simp only [Token.isPunct, Bool.or_eq_true, Bool.and_eq_true, beq_iff_eq] at this
  rcases this with ⟨-, h⟩ | ⟨-, h⟩ <;> rw [h] <;> rfl

theorem isSome_jump? (k : JumpKeyword) : (Jump.ofKeyword? k.1.text).isSome = true := by
  rcases k.2 with h | h <;> rw [h] <;> rfl

theorem isSome_count? {count : Nat} (h : count ≤ n) (hn : n < UInt64.size) :
    (count? (toString count)).isSome = true := by
  rw [count?_toString, if_pos (h.trans_lt hn)]
  rfl

/-! ## Expressions -/

theorem Args.count_le (as : Args) : as.count ≤ as.tokens.length := by
  cases as with
  | none => exact le_rfl
  | last e => exact length_pos_iff.2 e.tokens_ne_nil
  | more e _ rest =>
    have := rest.count_le
    simp only [Args.count, Args.tokens, length_append, length_cons]
    omega

mutual

theorem Expr.legible (hn : source.length < UInt64.size) {p : Nat} : ∀ {e : Expr}, Fits p e.tokens source.length →
    ∀ ev ∈ e.events source, ev.legible = true
  | .name t, h | .constant t, h => by
    simp only [Expr.tokens, fits_cons] at h
    exact forall_mem_singleton.2 (placed_tokenLeaf h.1.2.1)
  | .strings t more _, h => by
    simp only [Expr.tokens, fits_cons] at h
    have := h.2.1.le_lastStop
    exact forall_mem_singleton.2 (placed_textLeaf (by omega) h.2.2)
  | .measure k g, h => by
    simp only [Expr.tokens, fits_cons] at h
    have := Enclosed.lt_stop h.2.1
    have := (Enclosed.ordered_tokens.1 h.2.1).1
    have hstop : g.closing.stop ≤ source.length := by simpa using h.2.2
    exact forall_mem_singleton.2 (placed_textLeaf (by omega) hstop)
  | .sign op e, h => by
    simp only [Expr.tokens, fits_cons] at h
    simp only [Expr.events, forall_mem_cons]
    exact ⟨placed_text op.text_ne, Expr.legible hn h.2⟩
  | .sizeOf k e, h => by
    simp only [Expr.tokens, fits_cons] at h
    have htext : k.1.text = "sizeof" := by simpa [Token.isWord] using (Bool.and_eq_true_iff.1 k.2).2
    have hplaced : (mark .unaryOperator k.1.stop k.1.text).placed = true := placed_text (by rw [htext]; rfl)
    rw [htext] at hplaced
    simp only [Expr.events, forall_mem_cons]
    exact ⟨hplaced, Expr.legible hn h.2⟩
  | .cast g e, h => by
    simp only [Expr.tokens, fits_append] at h
    have hstop : g.closing.stop ≤ source.length := by simpa using h.1.2
    simp only [Expr.events, forall_mem_cons]
    exact ⟨placed_textLeaf (Enclosed.lt_stop h.1.1) hstop, Expr.legible hn h.2⟩
  | .group o e c, h => by
    simp only [Expr.tokens, fits_cons, fits_append] at h
    exact Expr.legible hn (e := e) h.2.1
  | .binary l op r, h => by
    simp only [Expr.tokens, fits_cons, fits_append] at h
    simp only [Expr.events, forall_mem_append, forall_mem_singleton]
    refine ⟨Expr.legible hn h.1, Expr.legible hn h.2.2, ?_⟩
    rcases kind_of_operator? op.known with hk | hk | hk <;> simp [Event.legible, mark, hk, op.text_ne]
  | .conditional c q y k n, h => by
    simp only [Expr.tokens, fits_cons, fits_append] at h
    simp only [Expr.events, forall_mem_append, forall_mem_cons]
    exact ⟨Expr.legible hn h.1, Expr.legible hn h.2.2.1, Expr.legible hn h.2.2.2.2, rfl, rfl, by simp⟩
  | .call b o as c, h => by
    simp only [Expr.tokens, fits_cons, fits_append] at h
    simp only [Expr.events, forall_mem_append, forall_mem_singleton]
    refine ⟨Expr.legible hn h.1, Args.legible hn h.2.2.1, ?_⟩
    exact isSome_count? (as.count_le.trans h.2.2.1.length_le) hn
  | .index b o e c, h => by
    simp only [Expr.tokens, fits_cons, fits_append] at h
    simp only [Expr.events, forall_mem_append, forall_mem_singleton]
    exact ⟨Expr.legible hn h.1, Expr.legible hn h.2.2.1, rfl⟩
  | .member b q f, h => by
    simp only [Expr.tokens, fits_cons, fits_append] at h
    simp only [Expr.events, forall_mem_append, forall_mem_singleton]
    exact ⟨Expr.legible hn h.1, isSome_member? q (lossy_token h.2.2.1.2.1)⟩
  | .increment b op, h => by
    simp only [Expr.tokens, fits_cons, fits_append] at h
    simp only [Expr.events, forall_mem_append, forall_mem_singleton]
    exact ⟨Expr.legible hn h.1, isSome_increment? op⟩

theorem Args.legible (hn : source.length < UInt64.size) {p : Nat} : ∀ {as : Args}, Fits p as.tokens source.length →
    ∀ ev ∈ as.events source, ev.legible = true
  | .none, _ => by simp [Args.events]
  | .last e, h => Expr.legible hn h
  | .more e comma rest, h => by
    simp only [Args.tokens, fits_cons, fits_append] at h
    simp only [Args.events, forall_mem_append]
    exact ⟨Expr.legible hn h.1, Args.legible hn h.2.2⟩

end

/-- Legible, unless it is a type word or a declared name without text. -/
def Spelled (e : Event) : Prop :=
  (e.kind = .typeWord ∨ e.kind = .declaratorName) ∧ e.literal.isEmpty = true ∨ e.legible = true

end Grammar

end Deferral
