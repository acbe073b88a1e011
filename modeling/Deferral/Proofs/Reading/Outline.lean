import Deferral.Proofs.Moves

/-!
# Outlines

A source is divided into members: single tokens, and brackets with all up to their partners. What is passed over at top
level goes up to a semicolon or a brace group that nothing of a declaration follows (`Passed`). `Outline` says what
recognition makes of the constructs of a source; it follows them with the types that are known at each.
-/

namespace Deferral.Grammar

open List

variable {close : Token} {g : Enclosed}

/-! ## Members -/

def opensGroup (t : Token) : Bool := t.isPunct "\x7b" || t.isPunct "(" || t.isPunct "["

theorem length_of_closeFrom {left right : String} {depth : Nat} {ts rest : List Token}
    (h : Token.closeFrom left right depth ts = some (close, rest)) : rest.length < ts.length := by
  obtain ⟨-, inside, rfl⟩ := closeFrom_eq_some h
  simp only [length_append, length_cons]
  omega

theorem length_of_close {ts rest : List Token} (h : Token.close? ts = some (close, rest)) :
    rest.length < ts.length := by
  cases ts with
  | nil => cases h
  | cons t ts =>
    obtain ⟨right, -, h⟩ := Option.bind_eq_some_iff.1 h
    have := length_of_closeFrom h
    rw [length_cons]
    omega

/-- Tokens outside brackets, and brackets with all up to their partners. A bracket without partner goes up to the end.
-/
def members : List Token → List (List Token)
  | [] => []
  | t :: ts =>
    if opensGroup t then
      match h : Token.close? (t :: ts) with
      | some (_, rest) =>
        have := length_of_close h
        (t :: ts).take ((t :: ts).length - rest.length) :: members rest
      | none => [t :: ts]
    else [t] :: members ts
termination_by ts => ts.length
decreasing_by
  · exact this
  · exact Nat.lt_succ_self ts.length

@[simp] theorem members_nil : members [] = [] := by rw [members]

theorem members_single {t : Token} (h : opensGroup t = false) (ts : List Token) :
    members (t :: ts) = [t] :: members ts := by
  rw [members, h]
  rfl

theorem members_unclosed {t : Token} {ts : List Token} (ho : opensGroup t = true) (h : Token.close? (t :: ts) = none) :
    members (t :: ts) = [t :: ts] := by
  rw [members, if_pos ho]
  split
  next heq => simp [h] at heq
  next => rfl

theorem members_group {rest : List Token} (ho : opensGroup g.opening = true)
    (h : Token.close? (g.tokens ++ rest) = some (g.closing, rest)) :
    members (g.tokens ++ rest) = g.tokens :: members rest := by
  rw [Enclosed.tokens, cons_append] at h ⊢
  rw [members, if_pos ho]
  split
  next heq =>
    obtain ⟨rfl, rfl⟩ := Prod.mk.inj (Option.some.inj (h.symm.trans heq))
    congr 1
    rw [← cons_append, length_append, Nat.add_sub_cancel, take_left]
  next heq =>
    rw [h] at heq
    cases heq

theorem flatten_members (ts : List Token) : (members ts).flatten = ts := by
  fun_induction members ts with
  | case1 => rfl
  | case2 t ts ho close rest h _ ih =>
    obtain ⟨before, hb⟩ : ∃ before, t :: ts = before ++ rest := by
      obtain ⟨right, -, h⟩ := Option.bind_eq_some_iff.1 h
      obtain ⟨-, inside, rfl⟩ := closeFrom_eq_some h
      exact ⟨t :: (inside ++ [close]), by simp⟩
    rw [flatten_cons, ih, hb, length_append, Nat.add_sub_cancel, take_left]
  | case3 => simp
  | case4 t ts _ ih => rw [flatten_cons, ih]; rfl

/-- What follows a bracket and its partner does not matter for where the partner is. -/
theorem closeFrom_congr {left right : String} {x : List Token} (y : List Token) :
    ∀ {depth : Nat} {inside : List Token}, Token.closeFrom left right depth (inside ++ close :: x) = some (close, x) →
      Token.closeFrom left right depth (inside ++ close :: y) = some (close, y)
  | depth, [], h => by
    rw [nil_append, Token.closeFrom] at h ⊢
    -- Each further step would leave less than `x`.
    split at h
    · exact absurd (length_of_closeFrom h) (Nat.lt_irrefl _)
    · rw [if_neg ‹_›]
      split at h
      · rw [if_pos ‹_›]
        split at h
        · rw [if_pos ‹_›]
        · exact absurd (length_of_closeFrom h) (Nat.lt_irrefl _)
      · exact absurd (length_of_closeFrom h) (Nat.lt_irrefl _)
  | depth, t :: inside, h => by
    rw [cons_append, Token.closeFrom] at h ⊢
    split at h
    · rw [if_pos ‹_›]
      exact closeFrom_congr y h
    · rw [if_neg ‹_›]
      split at h
      · rw [if_pos ‹_›]
        split at h
        · have hx := congrArg List.length (Prod.mk.inj (Option.some.inj h)).2
          simp only [length_append, length_cons] at hx
          omega
        · rw [if_neg ‹_›]
          exact closeFrom_congr y h
      · rw [if_neg ‹_›]
        exact closeFrom_congr y h

theorem close?_congr {x : List Token} (y : List Token)
    (h : Token.close? (g.tokens ++ x) = some (g.closing, x)) :
    Token.close? (g.tokens ++ y) = some (g.closing, y) := by
  simp only [Enclosed.tokens, cons_append, append_assoc, nil_append, Token.close?] at h ⊢
  obtain ⟨right, hright, h⟩ := Option.bind_eq_some_iff.1 h
  exact Option.bind_eq_some_iff.2 ⟨right, hright, closeFrom_congr y h⟩

/-- The first member of tokens that begin with `m` and go on with a part of `rest`. -/
structure IsMember (m rest : List Token) : Prop where
  ne_nil : m ≠ []
  first : ∀ us, us <+: rest → members (m ++ us) = m :: members us

section IsMember

variable {t : Token} {rest : List Token}

theorem isMember_single (h : opensGroup t = false) (rest : List Token) : IsMember [t] rest :=
  ⟨nofun, fun us _ => members_single h us⟩

theorem isMember_unclosed {ts : List Token} (ho : opensGroup t = true) (h : Token.close? (t :: ts) = none) :
    IsMember (t :: ts) [] := by
  refine ⟨nofun, fun us hus => ?_⟩
  obtain rfl := prefix_nil.1 hus
  rw [append_nil, members_unclosed ho h, members_nil]

theorem isMember_group (ho : opensGroup g.opening = true)
    (h : Token.close? (g.tokens ++ rest) = some (g.closing, rest)) : IsMember g.tokens rest :=
  ⟨nofun, fun us _ => members_group ho (close?_congr us h)⟩

theorem IsMember.members_eq {m us : List Token} (h : IsMember m rest) (hus : us <+: rest) :
    members (m ++ us) = m :: members us := h.first us hus

theorem IsMember.members_self {m : List Token} (h : IsMember m rest) : members m = [m] := by
  simpa using h.first [] nil_prefix

theorem IsMember.head?_append {m : List Token} (h : IsMember m rest) (us : List Token) :
    (m ++ us).head? = m.head? := by
  cases m with
  | nil => exact absurd rfl h.ne_nil
  | cons => rfl

end IsMember

/-! ## Constructs that are passed over -/

/-- Whether a token goes on with a declaration after a brace group. -/
def continues (t : Token) : Bool := t.isPunct ";" || t.isIdentifier || t.isPunct "*"

/-- Whether a member is a brace group. -/
def isBlock (m : List Token) : Bool := m.head?.any (·.isPunct "\x7b")

/-- Whether a construct may end with a member: a semicolon or a brace group. -/
def mayEnd (m : List Token) : Bool := m.head?.any fun t => t.isPunct ";" || t.isPunct "\x7b"

/-- The name that a member is. -/
def memberName? (m : List Token) : Option Token := m.head?.filter (·.isIdentifier)

/-- The last name outside brackets. -/
def lastName? (ts : List Token) : Option Token := ((members ts).filterMap memberName?).getLast?

/-- Where a construct that is passed over ends, if `rest` follows: at the first semicolon, or at a brace group after
which nothing goes on. -/
structure Passed (ts rest : List Token) : Prop where
  inner : ∀ ms m ms', members ts = ms ++ m :: ms' → ms' ≠ [] → mayEnd m = true →
    isBlock m = true ∧ ms'.flatten.head?.any continues = true
  last : ∀ ms m, members ts = ms ++ [m] → isBlock m = true → rest.head?.any continues = false

section Passed

variable {t : Token} {ts rest m us : List Token}

theorem not_isIdentifier_of_isPunct {p : String} (h : t.isPunct p = true) : t.isIdentifier = false := by
  simp [Token.isIdentifier, (isPunct_iff.1 h).1]

theorem memberName?_of_isPunct {p : String} (h : t.isPunct p = true) (ts : List Token) :
    memberName? (t :: ts) = none := by
  simp [memberName?, Option.filter, not_isIdentifier_of_isPunct h]

theorem isBlock_mayEnd (h : isBlock m = true) : mayEnd m = true := by
  cases m with
  | nil => cases h
  | cons t m =>
    have h : t.isPunct "\x7b" = true := h
    simp [mayEnd, h]

theorem passed_nil (rest : List Token) : Passed [] rest where
  inner ms m ms' h := by simp at h
  last ms m h := by simp at h

theorem IsMember.passed (hm : IsMember m rest) (h : isBlock m = true → rest.head?.any continues = false) :
    Passed m rest where
  inner ms m' ms' h' hne := by
    rw [hm.members_self] at h'
    cases ms with
    | nil => exact absurd (List.cons.inj h').2.symm hne
    | cons => simp at h'
  last ms m' h' hb := by
    rw [hm.members_self] at h'
    cases ms with
    | nil => exact h ((List.cons.inj h').1 ▸ hb)
    | cons => simp at h'

theorem Passed.cons (h : Passed us rest) (hm : members ts = m :: members us)
    (hends : mayEnd m = true → isBlock m = true ∧ us.head?.any continues = true) : Passed ts rest where
  inner ms m' ms' h' hne he := by
    rw [hm] at h'
    cases ms with
    | nil =>
      obtain ⟨rfl, rfl⟩ := List.cons.inj h'
      rw [flatten_members]
      exact hends he
    | cons x ms => exact h.inner ms m' ms' (List.cons.inj h').2 hne he
  last ms m' h' hblock := by
    rw [hm] at h'
    cases ms with
    | nil =>
      obtain ⟨rfl, hnil⟩ := List.cons.inj h'
      have hus : us = [] := by rw [← flatten_members us, hnil]; rfl
      have hhead := (hends (isBlock_mayEnd hblock)).2
      simp [hus] at hhead
    | cons x ms => exact h.last ms m' (List.cons.inj h').2 hblock

@[simp] theorem lastName?_nil : lastName? [] = none := by simp [lastName?]

theorem lastName?_of_members (hm : members ts = m :: members us) :
    lastName? ts = (lastName? us).or (memberName? m) := by
  rw [lastName?, lastName?, hm, filterMap_cons]
  cases memberName? m with
  | none => simp
  | some x =>
    rw [getLast?_cons]
    cases List.getLast? _ <;> rfl

end Passed

/-! ## Outlines -/

/-- Whether a function definition begins, where the types `types` are known. -/
def definesFunction (types : List String) (ts : List Token) : Bool :=
  Cursor.atFunctionDefinition { source := [], rest := ts, typeNames := types }

theorem atFunctionDefinition_eq (c : Cursor) : c.atFunctionDefinition = definesFunction c.typeNames c.rest := rfl

/-- The type that a construct declares. -/
def Item.declared : Item → List String
  | .function _ => []
  | .other ts => if ts.head?.any (·.isWord "typedef") then ((lastName? ts).map Token.text).toList else []

/-- The types that are known after some constructs. -/
def known (types : List String) : List Item → List String
  | [] => types
  | item :: items => known (item.declared ++ types) items

def tokensOf (items : List Item) : List Token := items.flatMap Item.tokens

/-- What recognition makes of constructs, where the types `types` are known: just what begins like a function definition
is a function. -/
inductive Outline : (types : List String) → List Item → Prop
  | nil {types : List String} : Outline types []
  | function {types : List String} {f : FunctionPhrase} {items : List Item}
    (hd : definesFunction types (f.tokens ++ tokensOf items) = true) (hr : Outline types items) :
    Outline types (.function f :: items)
  | other {types : List String} {ts : List Token} {items : List Item}
    (hd : definesFunction types (ts ++ tokensOf items) = false) (hp : Passed ts (tokensOf items))
    (hr : Outline ((Item.other ts).declared ++ types) items) : Outline types (.other ts :: items)

theorem Outline.append {items₂ : List Item} : ∀ {items₁ : List Item} {types : List String},
    Outline types (items₁ ++ items₂) → Outline (known types items₁) items₂
  | [], _, h => h
  | _ :: _, _, h => by
    cases h with
    | function _ hr => exact hr.append
    | other _ _ hr => exact hr.append

end Deferral.Grammar
