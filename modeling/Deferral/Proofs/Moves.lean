import Deferral.Proofs.Outcome
import Deferral.Proofs.Phrases
import Mathlib.Data.Option.Basic

/-!
# Moves of the cursor

`Moves c c' ts es` says that the cursor has gone from `c` to `c'` over the tokens `ts` and has reported the events `es`.
Moves compose. There is one lemma for each way to pass tokens.
-/

namespace Deferral.Grammar

open List

variable {c c' c₁ c₂ : Cursor} {ts ts' : List Token} {es es' : List Event} {t : Token} {rest : List Token}
  {p : String}

/-- The cursor goes over `ts` and reports `es`. It knows the same types as before. -/
structure Moves (c c' : Cursor) (ts : List Token) (es : List Event) : Prop where
  source : c'.source = c.source
  rest : c.rest = ts ++ c'.rest
  lastEnd : c'.lastEnd = lastStop c.lastEnd ts
  events : c'.events.toList = c.events.toList ++ es
  typeNames : c'.typeNames = c.typeNames

namespace Moves

theorem refl (c : Cursor) : Moves c c [] [] := ⟨rfl, rfl, rfl, by simp, rfl⟩

theorem trans (h : Moves c c₁ ts es) (h' : Moves c₁ c₂ ts' es') : Moves c c₂ (ts ++ ts') (es ++ es') where
  source := h'.source.trans h.source
  rest := by rw [h.rest, h'.rest, append_assoc]
  lastEnd := by rw [h'.lastEnd, h.lastEnd, lastStop, lastStop, lastStop, foldl_append]
  events := by rw [h'.events, h.events, append_assoc]
  typeNames := h'.typeNames.trans h.typeNames

theorem of_eq (h : Moves c c' ts es) (hts : ts = ts') (hes : es = es') : Moves c c' ts' es' := hts ▸ hes ▸ h

theorem rest_eq (h : Moves c c' ts es) (hr : c.rest = ts ++ rest) : c'.rest = rest :=
  append_cancel_left (h.rest.symm.trans hr)

end Moves

@[simp] theorem lastStop_nil (p : Nat) : lastStop p [] = p := rfl

@[simp] theorem lastStop_cons (p : Nat) (t : Token) (ts : List Token) : lastStop p (t :: ts) = lastStop t.stop ts := rfl

@[simp] theorem lastStop_append (p : Nat) (ts ts' : List Token) :
    lastStop p (ts ++ ts') = lastStop (lastStop p ts) ts' := foldl_append

/-! ## Where phrases end -/

@[simp] theorem Enclosed.lastStop_tokens (p : Nat) (g : Enclosed) : lastStop p g.tokens = g.closing.stop := by
  simp [Enclosed.tokens]

@[simp] theorem Expr.lastStop_tokens (p : Nat) : ∀ e : Expr, lastStop p e.tokens = e.stop
  | .name _ | .constant _ | .strings _ _ _ => rfl
  | .measure _ g => by simp [Expr.tokens, Expr.stop]
  | .sign _ e | .sizeOf _ e | .cast _ e => by simp [Expr.tokens, Expr.stop, e.lastStop_tokens]
  | .binary _ _ r => by simp [Expr.tokens, Expr.stop, r.lastStop_tokens]
  | .conditional _ _ _ _ n => by simp [Expr.tokens, Expr.stop, n.lastStop_tokens]
  | .group _ _ _ | .call _ _ _ _ | .index _ _ _ _ | .member _ _ _ | .increment _ _ => by
    simp [Expr.tokens, Expr.stop]

@[simp] theorem Init.lastStop_tokens (p : Nat) : ∀ i : Init, lastStop p i.tokens = i.stop
  | .value e | .list _ _ _ => by simp [Init.tokens, Init.stop]

@[simp] theorem Condition.lastStop_tokens (p : Nat) (c : Condition) : lastStop p c.tokens = c.closing.1.stop := by
  simp [Condition.tokens]

@[simp] theorem ForParts.lastStop_tokens (p : Nat) (f : ForParts) : lastStop p f.tokens = f.closing.1.stop := by
  simp [ForParts.tokens]

@[simp] theorem Simple.lastStop_tokens (p : Nat) (s : Simple) : lastStop p s.tokens = s.stop := by
  cases s <;> simp [Simple.tokens, Simple.stop]

@[simp] theorem Label.lastStop_tokens (p : Nat) (l : Label) : lastStop p l.tokens = l.stop := by
  cases l <;> simp [Label.tokens, Label.stop]

@[simp] theorem Block.lastStop_tokens (p : Nat) : ∀ b : Block, lastStop p b.tokens = b.stop
  | .mk _ _ _ => by simp [Block.tokens, Block.stop]

theorem Stmt.tokens_ne_nil (s : Stmt) : s.tokens ≠ [] := by
  cases s with
  | simple s => cases s <;> simp [Stmt.tokens, Simple.tokens]
  | label l => cases l <;> simp [Stmt.tokens, Label.tokens]
  | block b =>
    cases b
    simp [Stmt.tokens, Block.tokens]
  | _ => simp [Stmt.tokens]

mutual

@[simp] theorem Stmt.lastStop_tokens (p : Nat) : ∀ s : Stmt, lastStop p s.tokens = s.stop
  | .simple _ | .label _ | .block _ | .deferBlock _ _ | .switch _ _ _ | .doLoop _ _ _ _ _ => by
    simp [Stmt.tokens, Stmt.stop]
  | .branch _ _ b | .whileLoop _ _ b | .forLoop _ _ b | .branchElse _ _ _ _ b => by
    simp [Stmt.tokens, Stmt.stop, Body.lastStop_tokens _ b]

@[simp] theorem Body.lastStop_tokens (p : Nat) : ∀ b : Body, lastStop p b.tokens = b.stop
  | .braced _ => by simp [Body.tokens, Body.stop]
  | .single s => by simp [Body.tokens, Body.stop, Stmt.lastStop_tokens _ s]

end

/-! ## Looking ahead -/

theorem front?_eq_some : c.front? = some t ↔ ∃ rest, c.rest = t :: rest := head?_eq_some_iff

theorem exists_front_of_atPunct (h : c.atPunct p = true) : ∃ t : Punct p, c.front? = some t.1 := by
  obtain ⟨t, ht, hp⟩ := (Option.any_eq_true _ _).1 h
  exact ⟨⟨t, hp⟩, ht⟩

theorem exists_front_of_atWord {w : String} (h : c.atWord w = true) : ∃ t : Keyword w, c.front? = some t.1 := by
  obtain ⟨t, ht, hw⟩ := (Option.any_eq_true _ _).1 h
  exact ⟨⟨t, hw⟩, ht⟩

theorem isPunct_iff : t.isPunct p = true ↔ t.kind = .punct ∧ t.text = p := by
  simp [Token.isPunct]

theorem isPunct_of_ne {q : String} (h : t.isPunct p = true) (hq : p ≠ q) : t.isPunct q = false := by
  obtain ⟨-, rfl⟩ := isPunct_iff.1 h
  simp [Token.isPunct, hq]

theorem kind_of_operator? {text : String} {op : Operator} (h : Grammar.operator? text = some op) :
    op.kind = .assignment ∨ op.kind = .relational ∨ op.kind = .binaryOperator := by
  unfold Grammar.operator? at h
  split at h
  all_goals cases h
  all_goals simp [leftward, rightward]

theorem operator?_eq_some {least : Nat} {text : String} {op : Operator} (h : c.operator? least = some (text, op)) :
    ∃ t, c.front? = some t ∧ t.text = text ∧ t.kind = .punct ∧ Grammar.operator? t.text = some op := by
  obtain ⟨t, ht, h⟩ := Option.bind_eq_some_iff.1 h
  obtain ⟨_, hpunct, h⟩ := Option.bind_eq_some_iff.1 h
  obtain ⟨op', hop, h⟩ := Option.bind_eq_some_iff.1 h
  obtain ⟨_, -, h⟩ := Option.bind_eq_some_iff.1 h
  obtain ⟨htext, rfl⟩ := Prod.mk.inj (Option.some.inj h)
  exact ⟨t, ht, htext, eq_of_beq ((Option.guard_eq_some' _).1 hpunct), hop⟩

/-! ## Passing tokens -/

theorem moves_moveTo (ts : List Token) (h : c.rest = ts ++ t :: rest) : Moves c (c.moveTo t rest) (ts ++ [t]) [] where
  source := rfl
  rest := by rw [h, append_assoc]; rfl
  lastEnd := by simp [Cursor.moveTo]
  events := by simp [Cursor.moveTo]
  typeNames := rfl

theorem moves_advance (h : c.front? = some t) : Moves c c.advance [t] [] := by
  obtain ⟨rest, hr⟩ := front?_eq_some.1 h
  rw [Cursor.advance, hr]
  exact moves_moveTo [] hr

theorem moves_advanceWhile (p : Token → Bool) : Moves c (c.advanceWhile p) (c.rest.takeWhile p) [] := by
  rw [Cursor.advanceWhile]
  split
  case h_1 h =>
    rw [getLast?_eq_none_iff.1 h]
    exact .refl c
  case h_2 t h =>
    obtain ⟨ts, hts⟩ := getLast?_eq_some_iff.1 h
    rw [hts]
    refine moves_moveTo ts ?_
    have hsplit := takeWhile_append_dropWhile (p := p) (l := c.rest)
    rw [hts, append_assoc] at hsplit
    exact hsplit.symm

theorem advance_bind {β : Type} (f : Unit → Recognizer β) : (advance >>= f) c = f () c.advance := rfl

theorem moves_strings (hf : c.front? = some t) (hk : t.kind = .stringLiteral) :
    ∃ more, (t :: more).all (·.kind == .stringLiteral) = true ∧
      Moves c (c.advanceWhile (·.kind == .stringLiteral)) (t :: more) [] := by
  obtain ⟨rest, hr⟩ := front?_eq_some.1 hf
  refine ⟨rest.takeWhile (·.kind == .stringLiteral), ?_, ?_⟩
  · rw [all_cons, hk]
    exact all_takeWhile
  · have := moves_advanceWhile (c := c) (·.kind == .stringLiteral)
    rwa [hr, takeWhile_cons_of_pos (by simp [hk])] at this

theorem closeFrom_eq_some {left right : String} {close : Token} {after : List Token} :
    ∀ {depth : Nat} {ts : List Token}, Token.closeFrom left right depth ts = some (close, after) →
      close.isPunct right = true ∧ ∃ inside, ts = inside ++ close :: after
  | _, [], h => by simp [Token.closeFrom] at h
  | depth, t :: ts, h => by
    have later {depth : Nat} (h : Token.closeFrom left right depth ts = some (close, after)) :
        close.isPunct right = true ∧ ∃ inside, t :: ts = inside ++ close :: after := by
      obtain ⟨hc, inside, rfl⟩ := closeFrom_eq_some h
      exact ⟨hc, t :: inside, rfl⟩
    rw [Token.closeFrom] at h
    split at h
    · exact later h
    · split at h
      case isTrue hc =>
        split at h
        · cases h
          exact ⟨hc, [], rfl⟩
        · exact later h
      case isFalse => exact later h

theorem moves_close {close : Token} (h : Token.close? c.rest = some (close, rest)) :
    ∃ g : Enclosed, c.front? = some g.opening ∧ g.closing = close ∧ Moves c (c.moveTo close rest) g.tokens [] ∧
      (c.atTypeGroup = true → ∃ type : TypeGroup, type.toEnclosed = g) := by
  cases hr : c.rest with
  | nil => simp [hr, Token.close?] at h
  | cons t ts =>
    rw [hr, Token.close?] at h
    obtain ⟨right, hright, h⟩ := Option.bind_eq_some_iff.1 h
    obtain ⟨hclose, inside, rfl⟩ := closeFrom_eq_some h
    refine ⟨⟨t, inside, close⟩, front?_eq_some.2 ⟨_, hr⟩, rfl,
      moves_moveTo (t :: inside) (by rw [hr]; rfl), fun hg => ?_⟩
    simp only [Cursor.atTypeGroup, Cursor.atPunct, Cursor.front?, Cursor.second?, hr, head?_cons, tail_cons,
      Option.any_some, Bool.and_eq_true] at hg
    obtain ⟨hopen, htype⟩ := hg
    rw [(isPunct_iff.1 hopen).2] at hright
    obtain rfl : ")" = right := Option.some.inj hright
    refine ⟨⟨_, hopen, hclose, ?_⟩, rfl⟩
    cases inside with
    | nil => simp [Cursor.startsType, Token.startsType, (isPunct_iff.1 hclose).1] at htype
    | cons u us => exact (Bool.and_eq_true_iff.1 htype).1

theorem labelColon?_eq_some {colon : Token} {after : List Token} : ∀ {depth conditionals : Nat} {ts : List Token},
    labelColon? depth conditionals ts = some (colon, after) →
      colon.isPunct ":" = true ∧ ∃ inside, ts = inside ++ colon :: after
  | _, _, [], h => by simp [labelColon?] at h
  | depth, conditionals, t :: ts, h => by
    have later {depth conditionals : Nat} (h : labelColon? depth conditionals ts = some (colon, after)) :
        colon.isPunct ":" = true ∧ ∃ inside, t :: ts = inside ++ colon :: after := by
      obtain ⟨hc, inside, rfl⟩ := labelColon?_eq_some h
      exact ⟨hc, t :: inside, rfl⟩
    rw [labelColon?] at h
    split at h
    · exact later h
    split at h
    · exact later h
    split at h
    · exact later h
    split at h
    · rename_i hcolon
      split at h
      · cases h
        exact ⟨hcolon, [], rfl⟩
      · exact later h
    · exact later h

theorem moves_push (e : Event) : Moves c (c.push e) [] [e] := ⟨rfl, rfl, rfl, by simp [Cursor.push], rfl⟩

end Deferral.Grammar
