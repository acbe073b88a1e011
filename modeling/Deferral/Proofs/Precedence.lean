import Deferral.Proofs.Moves

/-!
# Operators and parentheses

Operators between two operands have ranks (`ranks`), and recognition knows no others (`operator?_eq_ranked?`). An
expression is proper (`Expr.isProper`) if it has at least the parentheses that the ranks ask for. How it starts then
tells types, operators and operands apart (`Expr.exists_first`), and a type in parentheses is found whole
(`Enclosed.close?_of_isType`).
-/

namespace Deferral.Grammar

variable {t : Token}

/-! ## Ranks of operators -/

deriving instance DecidableEq for Operator

/-- Operators that bind equally tightly. -/
structure Rank where
  groupsLeft : Bool
  /-- What they are reported as. -/
  kind : Event.Kind
  operators : List String

/-- The operators of C between two operands, the loosest first. -/
def ranks : List Rank :=
  [⟨true, .binaryOperator, [","]⟩,
    ⟨false, .assignment, ["=", "*=", "/=", "%=", "+=", "-=", "<<=", ">>=", "&=", "^=", "|="]⟩,
    ⟨false, .binaryOperator, ["?"]⟩,
    ⟨true, .binaryOperator, ["||"]⟩,
    ⟨true, .binaryOperator, ["&&"]⟩,
    ⟨true, .binaryOperator, ["|"]⟩,
    ⟨true, .binaryOperator, ["^"]⟩,
    ⟨true, .binaryOperator, ["&"]⟩,
    ⟨true, .relational, ["==", "!="]⟩,
    ⟨true, .relational, ["<", ">", "<=", ">="]⟩,
    ⟨true, .binaryOperator, ["<<", ">>"]⟩,
    ⟨true, .binaryOperator, ["+", "-"]⟩,
    ⟨true, .binaryOperator, ["*", "/", "%"]⟩]

/-- The operator of the first of some ranks that has it, where the ranks count from `power` on. -/
def rankedFrom? (text : String) : (power : Nat) → List Rank → Option Operator
  | _, [] => none
  | power, r :: rest =>
    if r.operators.contains text then
      some (if r.groupsLeft then leftward power r.kind else rightward power r.kind)
    else rankedFrom? text (power + 1) rest

/-- An operator by its rank. -/
def ranked? (text : String) : Option Operator := rankedFrom? text 1 ranks

theorem operator?_eq_ranked? (text : String) : operator? text = ranked? text := by
  unfold operator?
  split
  rotate_right
  · simp_all [ranked?, rankedFrom?, ranks]
  all_goals rfl

/-- The least power of an operator inside the left operand. -/
def Operator.leftPower (op : Operator) : Nat := if op.rightPower = op.power then op.power + 1 else op.power

/-- Prefix operators bind tighter than all operators between operands. -/
def prefixPower : Nat := 14

/-- Suffixes bind tightest. -/
def suffixPower : Nat := 15

/-- Every operator binds less tightly than a prefix, and operators that bind equally tightly group alike. -/
theorem operator?_bounds {text : String} {op : Operator} (h : operator? text = some op) :
    commaPower ≤ op.power ∧ op.power < prefixPower ∧ op.rightPower =
      if op.power = assignmentPower ∨ op.power = conditionalPower then op.power else op.power + 1 := by
  unfold operator? at h
  split at h
  rotate_right
  · cases h
  all_goals
    cases h
    decide

theorem Operator.le_leftPower (op : Operator) : op.power ≤ op.leftPower := by
  unfold leftPower
  split <;> omega

/-! ## Proper expressions -/

/-- The parentheses among the tokens match, with `depth` of them open before. -/
def parenthesesMatch : (depth : Nat) → List Token → Bool
  | depth, [] => depth == 0
  | depth, t :: ts =>
    if t.isPunct "(" then parenthesesMatch (depth + 1) ts
    else if t.isPunct ")" then 0 < depth && parenthesesMatch (depth - 1) ts
    else parenthesesMatch depth ts

/-- A type in parentheses. -/
def Enclosed.isType (types : List String) (g : Enclosed) : Bool :=
  g.opening.isPunct "(" && g.inside.head?.any (·.startsType types) && parenthesesMatch 0 g.inside &&
    g.closing.isPunct ")"

namespace Expr

/-- How tightly an expression holds together. -/
def power : Expr → Nat
  | .binary _ op _ => op.operator.power
  | .conditional .. => conditionalPower
  | .measure .. | .sign .. | .sizeOf .. | .cast .. => prefixPower
  | .name _ | .constant _ | .strings .. | .group .. | .call .. | .index .. | .member .. | .increment .. => suffixPower

/-- An operator of this power or more that follows would be drawn into the expression at its right end. -/
def reach : Expr → Nat
  | .binary _ op _ => op.operator.rightPower
  | .conditional .. => conditionalPower
  | _ => suffixPower

def isCast : Expr → Bool
  | .cast .. => true
  | _ => false

end Expr

mutual

/-- The expression has the parentheses that ranks ask for, and perhaps more. Its names are not names of types, and what
`sizeof` is applied to does not start with a type in parentheses. -/
def Expr.isProper (types : List String) : Expr → Bool
  | .name t => !t.1.startsType types
  | .constant _ | .strings .. => true
  | .measure _ g => g.isType types
  | .sign _ e => prefixPower ≤ e.power && e.isProper types
  | .sizeOf _ e => !e.isCast && prefixPower ≤ e.power && e.isProper types
  | .cast g e => g.isType types && prefixPower ≤ e.power && e.isProper types
  | .group _ e _ => e.isProper types
  | .binary l op r =>
    op.operator.leftPower ≤ l.power && l.isProper types && op.operator.rightPower ≤ r.power && r.isProper types
  | .conditional c _ y _ n =>
    conditionalPower < c.power && c.isProper types && y.isProper types && conditionalPower ≤ n.power && n.isProper types
  | .call b _ as _ => suffixPower ≤ b.power && b.isProper types && as.isProper types
  | .index b _ e _ => suffixPower ≤ b.power && b.isProper types && e.isProper types
  | .member b _ _ => suffixPower ≤ b.power && b.isProper types
  | .increment b _ => suffixPower ≤ b.power && b.isProper types

/-- Arguments bind tighter than the commas between them. -/
def Args.isProper (types : List String) : Args → Bool
  | .none => true
  | .last e => assignmentPower ≤ e.power && e.isProper types
  | .more e _ rest => rest.isGiven && assignmentPower ≤ e.power && e.isProper types && rest.isProper types

/-- There are arguments. -/
def Args.isGiven : Args → Bool
  | .none => false
  | .last _ | .more .. => true

end

theorem isPunct_of_kind (h : t.kind ≠ .punct) (p : String) : t.isPunct p = false := by
  simp [Token.isPunct, h]

theorem startsType_of_kind (h : t.kind ≠ .word) (types : List String) : t.startsType types = false := by
  simp [Token.startsType, h]

/-! ## First tokens -/

/-- A token with which an expression may start. -/
structure Opens (types : List String) (t : Token) : Prop where
  startsType : t.startsType types = false
  ne_paren : t.isPunct ")" = false
  ne_brace : t.isPunct "\x7b" = false

theorem opens_of_kind {types : List String} (hw : t.kind ≠ .word) (hp : t.kind ≠ .punct) : Opens types t :=
  ⟨startsType_of_kind hw types, isPunct_of_kind hp _, isPunct_of_kind hp _⟩

theorem opens_of_punct {types : List String} {p : String} (h : t.isPunct p = true) (hp : p ≠ ")" ∧ p ≠ "\x7b") :
    Opens types t :=
  ⟨startsType_of_kind (by simp [(isPunct_iff.1 h).1]) types, isPunct_of_ne h hp.1, isPunct_of_ne h hp.2⟩

theorem opens_of_word {types : List String} (hk : t.kind = .word) (ht : t.startsType types = false) :
    Opens types t :=
  ⟨ht, isPunct_of_kind (by simp [hk]) _, isPunct_of_kind (by simp [hk]) _⟩

theorem Sign.isPunct (op : Sign) : ∃ p ∈ signs, op.1.isPunct p = true := by
  obtain ⟨hk, ht⟩ := Bool.and_eq_true_iff.1 op.2
  exact ⟨op.1.text, by simpa using ht, by simpa [Token.isPunct] using hk⟩

theorem startsType_sizeof {types : List String} (hs : "sizeof" ∉ types) (k : Keyword "sizeof") :
    k.1.startsType types = false := by
  obtain ⟨t, hk⟩ := k
  simp only [Token.isWord, Bool.and_eq_true, beq_iff_eq] at hk
  simp only [Token.startsType, hk.1, hk.2]
  simpa [Token.specifierWords, Token.tagWords] using hs

variable {types : List String}

/-- A proper expression starts with a token that cannot be mistaken for a type. -/
theorem Expr.exists_first (hs : "sizeof" ∉ types) : ∀ (e : Expr), e.isProper types = true →
    ∃ t ts, e.tokens = t :: ts ∧ Opens types t
  | .name t, h => by
    have hk : t.1.kind = .word := by
      have := t.2
      simp only [Token.isIdentifier, Bool.and_eq_true, beq_iff_eq] at this
      exact this.1
    exact ⟨t.1, [], rfl, opens_of_word hk (by simpa [Expr.isProper] using h)⟩
  | .constant t, _ => by
    have h := t.2
    simp only [Bool.or_eq_true, beq_iff_eq] at h
    exact ⟨t.1, [], rfl, by rcases h with h | h <;> exact opens_of_kind (by simp [h]) (by simp [h])⟩
  | .strings t more h, _ => by
    simp only [List.all_cons, Bool.and_eq_true, beq_iff_eq] at h
    exact ⟨t, more, rfl, opens_of_kind (by simp [h.1]) (by simp [h.1])⟩
  | .measure k g, _ | .sizeOf k _, _ =>
    ⟨k.1, _, rfl, opens_of_word (by have := k.2; simp [Token.isWord] at this; exact this.1) (startsType_sizeof hs k)⟩
  | .sign op _, _ => by
    obtain ⟨p, hp, h⟩ := op.isPunct
    have hall : ∀ p ∈ signs, p ≠ ")" ∧ p ≠ "\x7b" := by decide
    exact ⟨op.1, _, rfl, opens_of_punct h (hall p hp)⟩
  | .cast g _, h => by
    simp only [Expr.isProper, Enclosed.isType, Bool.and_eq_true] at h
    exact ⟨g.opening, _, rfl, opens_of_punct h.1.1.1.1.1 (by decide)⟩
  | .group o _ _, _ => ⟨o.1, _, rfl, opens_of_punct o.2 (by decide)⟩
  | .binary l _ _, h => by
    simp only [Expr.isProper, Bool.and_eq_true] at h
    obtain ⟨t, ts, ht, ho⟩ := l.exists_first hs h.1.1.2
    exact ⟨t, _, by rw [Expr.tokens, ht]; rfl, ho⟩
  | .conditional c _ _ _ _, h => by
    simp only [Expr.isProper, Bool.and_eq_true] at h
    obtain ⟨t, ts, ht, ho⟩ := c.exists_first hs h.1.1.1.2
    exact ⟨t, _, by rw [Expr.tokens, ht]; rfl, ho⟩
  | .call b _ _ _, h | .index b _ _ _, h => by
    simp only [Expr.isProper, Bool.and_eq_true] at h
    obtain ⟨t, ts, ht, ho⟩ := b.exists_first hs h.1.2
    exact ⟨t, _, by rw [Expr.tokens, ht]; rfl, ho⟩
  | .member b _ _, h | .increment b _, h => by
    simp only [Expr.isProper, Bool.and_eq_true] at h
    obtain ⟨t, ts, ht, ho⟩ := b.exists_first hs h.2
    exact ⟨t, _, by rw [Expr.tokens, ht]; rfl, ho⟩

/-! ## Types in parentheses -/

theorem closeFrom_of_match : ∀ {depth : Nat} {ts : List Token} {close : Token} {rest : List Token},
    parenthesesMatch depth ts = true → close.isPunct ")" = true →
      Token.closeFrom "(" ")" (depth + 1) (ts ++ close :: rest) = some (close, rest)
  | depth, [], close, rest, h, hc => by
    obtain rfl : depth = 0 := by simpa [parenthesesMatch] using h
    simp [Token.closeFrom, hc, isPunct_of_ne hc]
  | depth, t :: ts, close, rest, h, hc => by
    rw [parenthesesMatch] at h
    rw [List.cons_append, Token.closeFrom]
    split at h
    case isTrue ho =>
      rw [if_pos ho]
      exact closeFrom_of_match h hc
    case isFalse ho =>
      rw [if_neg ho]
      split at h
      case isTrue hcl =>
        obtain ⟨hd, h⟩ := Bool.and_eq_true_iff.1 h
        have hd : 0 < depth := of_decide_eq_true hd
        rw [if_pos hcl, if_neg (by omega), Nat.add_sub_cancel]
        have hclose : Token.closeFrom "(" ")" (depth - 1 + 1) (ts ++ close :: rest) = some (close, rest) :=
          closeFrom_of_match h hc
        rwa [Nat.sub_add_cancel hd] at hclose
      case isFalse hcl =>
        rw [if_neg hcl]
        exact closeFrom_of_match h hc

theorem Enclosed.close?_of_isType {g : Enclosed} (h : g.isType types = true) (rest : List Token) :
    Token.close? (g.tokens ++ rest) = some (g.closing, rest) := by
  simp only [Enclosed.isType, Bool.and_eq_true] at h
  obtain ⟨⟨⟨ho, -⟩, hm⟩, hc⟩ := h
  obtain ⟨-, ho⟩ := isPunct_iff.1 ho
  simp only [Enclosed.tokens, List.cons_append, List.append_assoc, List.nil_append, Token.close?, ho]
  exact closeFrom_of_match hm hc

end Deferral.Grammar
