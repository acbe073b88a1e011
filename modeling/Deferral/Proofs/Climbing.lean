import Deferral.Proofs.Precedence
import Mathlib.Data.Nat.Basic

/-!
# Proper expressions are recognized

Recognition passes the tokens of a proper expression, stops before what follows it, and reports its events
(`expression_of_proper`). Operators are taken in a loop, suffixes in another. So an expression is followed from its
first operand on: recognizing it from its start comes down to going on with the loop behind it (`Climbs`, `Chains`).
What follows must not be drawn into the last operand (`Quiet`). Each round of a loop takes a step, and so does each
level of nesting; `Expr.steps` counts them.
-/

namespace Deferral.Grammar

open List

variable {types : List String} {c c' c₁ c₂ : Cursor} {ts us rest : List Token} {es es' : List Event} {t : Token}
  {n p : Nat} {e b : Expr} {q : String} {as : Args}

/-! ## Steps of the cursor that succeed -/

theorem front?_of_rest (h : c.rest = t :: rest) : c.front? = some t := by rw [Cursor.front?, h]; rfl

theorem moves_next (h : c.rest = t :: rest) : Moves c c.advance [t] [] := moves_advance (front?_of_rest h)

theorem atPunct_of_rest (h : c.rest = t :: rest) : c.atPunct q = t.isPunct q := by
  simp [Cursor.atPunct, front?_of_rest h]

theorem expect_of_rest {q : Token → Bool} {x : Expected} (h : c.rest = t :: rest) (hq : q t = true) :
    expect q x c = .ok t c.advance := by
  simp only [expect, get_bind, front?_of_rest h, hq, if_true]
  rfl

theorem bind_of_ok {α β : Type} {x : Recognizer α} {a : α} (f : α → Recognizer β) (h : x c = .ok a c') :
    (x >>= f) c = f a c' := by
  change EStateM.bind x f c = _
  rw [EStateM.bind, h]

/-! ## What may follow -/

/-- Punctuators that start a suffix. -/
def suffixStarts : List String := ["(", "[", ".", "->", "++", "--"]

/-- The next token neither continues an operand nor is an operator of power `p` or more. -/
def Quiet (p : Nat) (ts : List Token) : Prop :=
  ∀ t ∈ ts.head?, t.kind = .punct ∧ t.text ∉ suffixStarts ∧ ∀ op, operator? t.text = some op → op.power < p

theorem Quiet.mono {q : Nat} (h : Quiet p ts) (hpq : p ≤ q) : Quiet q ts := fun t ht =>
  ⟨(h t ht).1, (h t ht).2.1, fun op hop => Nat.lt_of_lt_of_le ((h t ht).2.2 op hop) hpq⟩

theorem quiet_operator {op : Operator} (hk : t.kind = .punct) (h : operator? t.text = some op) (hp : op.power < p) :
    Quiet p (t :: rest) := by
  have hnone : ∀ s ∈ suffixStarts, operator? s = none := by decide
  rintro t ⟨⟩
  refine ⟨hk, fun hm => ?_, fun op' hop => ?_⟩
  · rw [hnone _ hm] at h
    cases h
  · obtain rfl := Option.some.inj (h.symm.trans hop)
    exact hp

theorem quiet_closing (h : t.isPunct q = true) (hq : q ∈ [")", "]", ":", ";"]) : Quiet p (t :: rest) := by
  have hall : ∀ s ∈ [")", "]", ":", ";"], s ∉ suffixStarts ∧ operator? s = none := by decide
  obtain ⟨hk, rfl⟩ := isPunct_iff.1 h
  rintro t ⟨⟩
  refine ⟨hk, (hall _ hq).1, fun op hop => ?_⟩
  rw [(hall _ hq).2] at hop
  cases hop

theorem isPunct_of_notMem (h : t.text ∉ suffixStarts) (hq : q ∈ suffixStarts) : t.isPunct q = false := by
  refine Bool.eq_false_iff.2 fun hp => h ?_
  rwa [(isPunct_iff.1 hp).2]

theorem isPunct_of_either {p : String} (h : (t.isPunct p || t.isPunct q) = true) :
    t.kind = .punct ∧ ∀ r, p ≠ r ∧ q ≠ r → t.isPunct r = false := by
  rcases Bool.or_eq_true_iff.1 h with h | h
  · exact ⟨(isPunct_iff.1 h).1, fun r hr => isPunct_of_ne h hr.1⟩
  · exact ⟨(isPunct_iff.1 h).1, fun r hr => isPunct_of_ne h hr.2⟩

theorem postfixes_quiet (h : Quiet p c.rest) : Job.run (n + 1) .postfixes c = .ok () c := by
  rw [Job.run, Job.round, Round.postfixes, get_bind]
  cases hf : c.front? with
  | none => rfl
  | some t =>
    obtain ⟨-, hs, -⟩ := h t hf
    simp only [isPunct_of_notMem hs (q := "(") (by decide), isPunct_of_notMem hs (q := "[") (by decide),
      isPunct_of_notMem hs (q := ".") (by decide), isPunct_of_notMem hs (q := "->") (by decide),
      isPunct_of_notMem hs (q := "++") (by decide), isPunct_of_notMem hs (q := "--") (by decide), Bool.or_self,
      Bool.false_eq_true, if_false]
    rfl

theorem operator?_of_rest {op : Operator} (h : c.rest = t :: rest) (hk : t.kind = .punct)
    (hop : operator? t.text = some op)
    (hp : p ≤ op.power) : c.operator? p = some (t.text, op) := by
  have hpunct : (t.kind == .punct) = true := by rw [hk]; rfl
  refine Option.bind_eq_some_iff.2 ⟨t, front?_of_rest h, ?_⟩
  refine Option.bind_eq_some_iff.2 ⟨(), (Option.guard_eq_some' ()).2 hpunct, ?_⟩
  refine Option.bind_eq_some_iff.2 ⟨op, hop, ?_⟩
  exact Option.bind_eq_some_iff.2 ⟨(), (Option.guard_eq_some' ()).2 hp, rfl⟩

theorem operators_quiet (h : Quiet p c.rest) : Job.run (n + 1) (.operators p) c = .ok () c := by
  have hnone : c.operator? p = none := by
    cases ho : c.operator? p with
    | none => rfl
    | some found =>
      obtain ⟨t, ht, ho⟩ := Option.bind_eq_some_iff.1 ho
      obtain ⟨_, -, ho⟩ := Option.bind_eq_some_iff.1 ho
      obtain ⟨op, hop, ho⟩ := Option.bind_eq_some_iff.1 ho
      obtain ⟨_, hle, -⟩ := Option.bind_eq_some_iff.1 ho
      have hlt := (h t ht).2.2 op hop
      exact absurd ((Option.guard_eq_some' _).1 hle) (Nat.not_le.2 hlt)
  rw [Job.run, Job.round, Round.operators, get_bind]
  simp only [hnone]
  rfl

/-! ## Counting steps -/

mutual

/-- Enough steps to recognize an expression. -/
def Expr.steps : Expr → Nat
  | .name _ | .constant _ | .strings _ _ _ | .measure _ _ => 2
  | .sign _ e | .sizeOf _ e | .cast _ e => e.steps + 1
  | .group _ e _ => e.steps + 3
  | .binary l _ r => l.steps + r.steps
  | .conditional c _ y _ n => c.steps + y.steps + n.steps
  | .call b _ as _ => b.steps + as.steps + 1
  | .index b _ e _ => b.steps + e.steps + 1
  | .member b _ _ | .increment b _ => b.steps + 1

def Args.steps : Args → Nat
  | .none => 0
  | .last e => e.steps + 2
  | .more e _ rest => e.steps + rest.steps + 2

end

/-- Rounds of the loop over operators. -/
def Expr.rounds : Expr → Nat
  | .binary l _ _ => l.rounds + 1
  | .conditional c _ _ _ _ => c.rounds + 1
  | _ => 0

/-- Rounds of the loop over suffixes. -/
def Expr.links : Expr → Nat
  | .call b _ _ _ | .index b _ _ _ | .member b _ _ | .increment b _ => b.links + 1
  | _ => 0

theorem Expr.two_le_steps : ∀ e : Expr, 2 ≤ e.steps
  | .name _ | .constant _ | .strings _ _ _ | .measure _ _ => Nat.le_refl 2
  | .sign _ e | .sizeOf _ e | .cast _ e | .group _ e _ | .binary e _ _ | .conditional e _ _ _ _ | .call e _ _ _
  | .index e _ _ _ | .member e _ _ | .increment e _ => by
    have := e.two_le_steps
    rw [Expr.steps]
    omega

theorem Expr.exists_succ_of_steps (h : e.steps ≤ n) : ∃ k, n = k + 1 :=
  ⟨n - 1, by have := e.two_le_steps; omega⟩

theorem Expr.rounds_le : ∀ e : Expr, e.rounds + 2 ≤ e.steps
  | .binary l _ r | .conditional l _ r _ _ => by
    have := l.rounds_le
    have := r.two_le_steps
    rw [Expr.rounds, Expr.steps]
    omega
  | .name _ | .constant _ | .strings _ _ _ | .measure _ _ | .sign _ _ | .sizeOf _ _ | .cast _ _
  | .group _ _ _ | .call _ _ _ _
  | .index _ _ _ _ | .member _ _ _ | .increment _ _ => Expr.two_le_steps _

theorem Expr.links_le : ∀ e : Expr, e.links + 2 ≤ e.steps
  | .call b _ _ _ | .index b _ _ _ | .member b _ _ | .increment b _ => by
    have := b.links_le
    rw [Expr.links, Expr.steps]
    omega
  | .name _ | .constant _ | .strings _ _ _ | .measure _ _ | .sign _ _ | .sizeOf _ _ | .cast _ _
  | .group _ _ _ | .binary _ _ _
  | .conditional _ _ _ _ _ => Expr.two_le_steps _

mutual

theorem Expr.steps_le : ∀ e : Expr, e.steps ≤ 3 * e.tokens.length
  | .name _ | .constant _ => Nat.le_succ 2
  | .strings _ _ _ | .measure _ _ => by
    simp only [Expr.steps, Expr.tokens, length_cons]
    omega
  | .sign _ e | .sizeOf _ e | .cast _ e | .group _ e _ | .member e _ _ | .increment e _ => by
    have := e.steps_le
    simp only [Expr.steps, Expr.tokens, Enclosed.tokens, length_cons, length_append]
    omega
  | .binary l _ r | .index l _ r _ | .call l _ r _ => by
    have := l.steps_le
    have := r.steps_le
    simp only [Expr.steps, Expr.tokens, length_cons, length_append]
    omega
  | .conditional c _ y _ n => by
    have := c.steps_le
    have := y.steps_le
    have := n.steps_le
    simp only [Expr.steps, Expr.tokens, length_cons, length_append]
    omega

theorem Args.steps_le : ∀ as : Args, as.steps ≤ 3 * as.tokens.length + 2
  | .none => by decide
  | .last e => by
    have := e.steps_le
    rw [Args.steps, Args.tokens]
    omega
  | .more e _ rest => by
    have := e.steps_le
    have := rest.steps_le
    simp only [Args.steps, Args.tokens, length_cons, length_append]
    omega

end

/-! ## Operands -/

/-- The expression `e` and then `rest` are ahead. -/
structure Ahead (e : Expr) (c : Cursor) (rest : List Token) : Prop where
  keyword : "sizeof" ∉ c.typeNames
  proper : e.isProper c.typeNames = true
  rest : c.rest = e.tokens ++ rest

theorem Moves.ahead (hm : Moves c c' ts es) (hk : "sizeof" ∉ c.typeNames)
    (hp : e.isProper c.typeNames = true) (hr : c.rest = ts ++ (e.tokens ++ rest)) : Ahead e c' rest :=
  ⟨hm.typeNames ▸ hk, hm.typeNames ▸ hp, hm.rest_eq hr⟩

/-- The tokens do not start with a type in parentheses. -/
def NoType (types : List String) (ts : List Token) : Prop :=
  ∃ t us, ts = t :: us ∧ (t.isPunct "(" = true → ∃ u vs, us = u :: vs ∧ u.startsType types = false)

/-- The tokens do not start with a prefix operator either. -/
def NoPrefix (types : List String) (ts : List Token) : Prop :=
  NoType types ts ∧ ∀ t ∈ ts.head?, (t.kind == .punct && signs.contains t.text) = false ∧ t.isWord "sizeof" = false

theorem NoType.append (h : NoType types ts) (us : List Token) : NoType types (ts ++ us) := by
  obtain ⟨t, vs, rfl, h⟩ := h
  refine ⟨t, vs ++ us, rfl, fun hp => ?_⟩
  obtain ⟨u, ws, rfl, hu⟩ := h hp
  exact ⟨u, ws ++ us, rfl, hu⟩

theorem NoPrefix.append (h : NoPrefix types ts) (us : List Token) : NoPrefix types (ts ++ us) := by
  refine ⟨h.1.append us, fun t ht => h.2 t ?_⟩
  obtain ⟨t', vs, rfl, -⟩ := h.1
  exact ht

theorem NoType.atTypeGroup (h : NoType c.typeNames c.rest) : c.atTypeGroup = false := by
  obtain ⟨t, us, hr, h⟩ := h
  rw [Cursor.atTypeGroup, atPunct_of_rest hr]
  cases hp : t.isPunct "(" with
  | false => rfl
  | true =>
    obtain ⟨u, vs, rfl, hu⟩ := h hp
    simp [Cursor.second?, hr, Cursor.startsType, hu]

/-- Of a single token that is neither a parenthesis nor a prefix operator. -/
theorem noPrefix_single (us : List Token) (hp : t.kind ≠ .punct) (hw : t.isWord "sizeof" = false) :
    NoPrefix types (t :: us) := by
  refine ⟨⟨t, us, rfl, fun h => ?_⟩, ?_⟩
  · rw [isPunct_of_kind hp] at h
    cases h
  · rintro t ⟨⟩
    exact ⟨by simp [hp], hw⟩

theorem Expr.noPrefix (hs : "sizeof" ∉ types) : ∀ (e : Expr), suffixPower ≤ e.power → e.isProper types = true →
    NoPrefix types e.tokens
  | .name t, _, _ => by
    obtain ⟨t, hi⟩ := t
    simp only [Token.isIdentifier, Bool.and_eq_true, beq_iff_eq, Bool.not_eq_true', Bool.or_eq_false_iff] at hi
    refine noPrefix_single [] (by simp [hi.1]) (Bool.eq_false_iff.2 fun h => ?_)
    simp only [Token.isWord, Bool.and_eq_true, beq_iff_eq] at h
    rw [h.2] at hi
    exact absurd hi.2.2 (by decide)
  | .constant t, _, _ => by
    have h := t.2
    simp only [Bool.or_eq_true, beq_iff_eq] at h
    rcases h with h | h <;> exact noPrefix_single [] (by simp [h]) (by simp [Token.isWord, h])
  | .strings t more h, _, _ => by
    simp only [all_cons, Bool.and_eq_true, beq_iff_eq] at h
    exact noPrefix_single more (by simp [h.1]) (by simp [Token.isWord, h.1])
  | .group o e k, _, h => by
    obtain ⟨u, us, hu, ho⟩ := e.exists_first hs h
    refine ⟨⟨o.1, _, rfl, fun _ => ⟨u, us ++ [k.1], by rw [hu]; rfl, ho.startsType⟩⟩, ?_⟩
    rintro t ⟨⟩
    obtain ⟨hk, ht⟩ := isPunct_iff.1 o.2
    exact ⟨by rw [ht, hk]; decide, by simp [Token.isWord, hk]⟩
  | .call b _ _ _, _, h | .index b _ _ _, _, h => by
    simp only [Expr.isProper, Bool.and_eq_true, decide_eq_true_eq] at h
    exact (b.noPrefix hs h.1.1 h.1.2).append _
  | .member b _ _, _, h | .increment b _, _, h => by
    simp only [Expr.isProper, Bool.and_eq_true, decide_eq_true_eq] at h
    exact (b.noPrefix hs h.1 h.2).append _
  | .measure _ _, h, _ | .sign _ _, h, _ | .sizeOf _ _, h, _ | .cast _ _, h, _ =>
    absurd (show suffixPower ≤ prefixPower from h) (by decide)
  | .binary _ op _, h, _ => by
    have := (operator?_bounds op.known).2.1
    exact absurd (show suffixPower ≤ op.operator.power from h) (by unfold prefixPower suffixPower at *; omega)
  | .conditional _ _ _ _ _, h, _ => absurd (show suffixPower ≤ conditionalPower from h) (by decide)

/-- What a prefix operator can be applied to starts with no type in parentheses, casts apart. -/
theorem Expr.noType (hs : "sizeof" ∉ types) (e : Expr) (hp : prefixPower ≤ e.power) (hc : e.isCast = false)
    (h : e.isProper types = true) : NoType types e.tokens := by
  have hword (k : Keyword "sizeof") (us : List Token) : NoType types (k.1 :: us) := by
    refine ⟨k.1, us, rfl, fun hp => ?_⟩
    have := k.2
    simp only [Token.isWord, Bool.and_eq_true, beq_iff_eq] at this
    rw [isPunct_of_kind (by simp [this.1])] at hp
    cases hp
  cases e with
  | measure k g => exact hword k _
  | sizeOf k e => exact hword k _
  | sign op e =>
    obtain ⟨p, hp, h⟩ := op.isPunct
    have hall : ∀ p ∈ signs, p ≠ "(" := by decide
    refine ⟨op.1, _, rfl, fun ho => ?_⟩
    rw [isPunct_of_ne h (hall p hp)] at ho
    cases ho
  | cast => cases hc
  | binary _ op _ =>
    have := (operator?_bounds op.known).2.1
    exact absurd (show prefixPower ≤ op.operator.power from hp) (by omega)
  | conditional => exact absurd (show prefixPower ≤ conditionalPower from hp) (by decide)
  | name | constant | strings | group | call | index | member | increment =>
    exact (Expr.noPrefix hs _ (Nat.le_refl _) h).1

/-! ## Recognition -/

namespace Expr

theorem commaPower_le_power (e : Expr) : commaPower ≤ e.power := by
  cases e with
  | binary _ op _ => exact (operator?_bounds op.known).1
  | _ => exact of_decide_eq_true rfl

theorem power_le_reach (e : Expr) : e.power ≤ e.reach := by
  cases e with
  | binary _ op _ =>
    have := (operator?_bounds op.known).2.2
    simp only [power, reach]
    split at this <;> omega
  | _ => exact of_decide_eq_true rfl

theorem power_lt_reach (op : Connective) {l : Expr} (h : op.operator.leftPower ≤ l.power) :
    op.operator.power < l.reach := by
  obtain ⟨-, hlt, hop⟩ := operator?_bounds op.known
  have hle := op.operator.le_leftPower
  unfold Operator.leftPower at h
  cases l with
  | binary _ op' _ =>
    have hop' := (operator?_bounds op'.known).2.2
    simp only [power, reach, assignmentPower, conditionalPower] at *
    grind
  | conditional =>
    simp only [power, reach, assignmentPower, conditionalPower] at *
    grind
  | _ => exact Nat.lt_succ_of_lt hlt

/-- If suffixes can be applied to `e`, then recognizing it comes down to going on with the suffixes behind it. -/
def Chains (e : Expr) : Prop :=
  suffixPower ≤ e.power → ∀ ⦃n : Nat⦄ ⦃c : Cursor⦄ ⦃rest : List Token⦄, Ahead e c rest →
    (∀ t ∈ rest.head?, t.kind = .punct) → e.steps ≤ n + 1 →
    ∃ c', Moves c c' e.tokens (e.events c.source) ∧
      (Job.run n .primary >>= fun _ => Job.run n .postfixes) c = Job.run (n - e.links) .postfixes c'

/-- If prefix operators can be applied to `e`, then it is passed as an operand, with its own prefix operators. -/
def Stands (e : Expr) : Prop :=
  prefixPower ≤ e.power → ∀ ⦃n : Nat⦄ ⦃c : Cursor⦄ ⦃rest : List Token⦄, Ahead e c rest → Quiet suffixPower rest →
    e.steps ≤ n → ∃ c', Moves c c' e.tokens (e.events c.source) ∧ Job.run n .unary c = .ok () c'

/-- Recognizing `e` comes down to going on with the operators behind it. -/
def Climbs (e : Expr) : Prop :=
  ∀ (least : Nat) ⦃n : Nat⦄ ⦃c : Cursor⦄ ⦃rest : List Token⦄, Ahead e c rest → Quiet e.reach rest → e.steps ≤ n →
    least ≤ e.power → ∃ c', Moves c c' e.tokens (e.events c.source) ∧
      expression (n + 1) least c = Job.run (n - e.rounds) (.operators least) c'

theorem Climbs.passes (h : e.Climbs) (least : Nat) (ha : Ahead e c rest) (hq : Quiet least rest)
    (hs : e.steps < n) (hl : least ≤ e.power) :
    ∃ c', Moves c c' e.tokens (e.events c.source) ∧ expression n least c = .ok () c' := by
  obtain ⟨n, rfl⟩ := Nat.exists_eq_succ_of_ne_zero (Nat.ne_of_gt (Nat.zero_lt_of_lt hs))
  obtain ⟨c', hm, he⟩ := h least ha (hq.mono (Nat.le_trans hl e.power_le_reach)) (Nat.le_of_lt_succ hs) hl
  refine ⟨c', hm, ?_⟩
  have hr := e.rounds_le
  obtain ⟨k, hk⟩ : ∃ k, n - e.rounds = k + 1 := ⟨n - e.rounds - 1, by omega⟩
  rw [he, hk, operators_quiet (by rwa [hm.rest_eq ha.rest])]

theorem Chains.stands (h : e.Chains) (hp : suffixPower ≤ e.power) : e.Stands := by
  intro _ n c rest ha hq hs
  obtain ⟨n, rfl⟩ := exists_succ_of_steps hs
  obtain ⟨c', hm, hc⟩ := h hp ha (fun t ht => (hq t ht).1) hs
  have hno := (e.noPrefix ha.keyword hp ha.proper).append rest
  rw [← ha.rest] at hno
  obtain ⟨t, us, hr, -⟩ := hno.1
  obtain ⟨hsign, hword⟩ := hno.2 t (by rw [hr]; rfl)
  have hl := e.links_le
  obtain ⟨k, hk⟩ : ∃ k, n - e.links = k + 1 := ⟨n - e.links - 1, by omega⟩
  refine ⟨c', hm, ?_⟩
  rw [Job.run, Job.round, Round.unary, get_bind]
  simp only [front?_of_rest hr, hsign, hno.1.atTypeGroup, hword, Bool.false_eq_true, if_false]
  rw [hc, hk, postfixes_quiet (p := suffixPower) (by rwa [hm.rest_eq ha.rest])]

theorem Stands.climbs (h : e.Stands) (hp : prefixPower ≤ e.power) (hr : e.reach = suffixPower)
    (hn : e.rounds = 0) : e.Climbs := by
  intro least n c rest ha hq hs _
  rw [hr] at hq
  obtain ⟨c', hm, hu⟩ := h hp ha hq hs
  refine ⟨c', hm, ?_⟩
  rw [expression, Job.run, Job.round, Round.expression, bind_of_ok _ hu, hn, Nat.sub_zero]

/-! ### Leaves and groups -/

theorem chains_of_primary (hl : e.links = 0)
    (h : ∀ ⦃n : Nat⦄ ⦃c : Cursor⦄ ⦃rest : List Token⦄, Ahead e c rest → (∀ t ∈ rest.head?, t.kind = .punct) →
      e.steps ≤ n + 2 → ∃ c', Moves c c' e.tokens (e.events c.source) ∧ Job.run (n + 1) .primary c = .ok () c') :
    e.Chains := by
  intro _ n c rest ha hr hs
  obtain ⟨n, rfl⟩ : ∃ k, n = k + 1 := ⟨n - 1, by have := e.two_le_steps; omega⟩
  obtain ⟨c', hm, hp⟩ := h ha hr hs
  exact ⟨c', hm, by rw [bind_of_ok _ hp, hl, Nat.sub_zero]⟩

theorem primary_leaf (hr : c.rest = t :: rest) (h : t.kind ≠ .punct) : Job.run (n + 1) .primary c = leaf c := by
  rw [Job.run, Job.round, Round.primary, get_bind]
  simp [front?_of_rest hr, isPunct_of_kind h]

theorem chains_name (t : Name) : (Expr.name t).Chains := by
  refine chains_of_primary rfl fun n c rest ha _ _ => ?_
  have hr : c.rest = t.1 :: rest := ha.rest
  refine ⟨_, (moves_next hr).trans (moves_push (tokenLeaf .identifier t.1)), ?_⟩
  have hk : t.1.kind = .word := by
    have := t.2
    simp only [Token.isIdentifier, Bool.and_eq_true, beq_iff_eq] at this
    exact this.1
  rw [primary_leaf hr (by simp [hk]), leaf, get_bind]
  simp only [front?_of_rest hr, t.2, if_true, advance_bind]
  rfl

theorem chains_constant (t : Literal) : (Expr.constant t).Chains := by
  refine chains_of_primary rfl fun n c rest ha _ _ => ?_
  have hr : c.rest = t.1 :: rest := ha.rest
  refine ⟨_, (moves_next hr).trans (moves_push (tokenLeaf .constant t.1)), ?_⟩
  have hk := t.2
  simp only [Bool.or_eq_true, beq_iff_eq] at hk
  rw [primary_leaf hr (by rcases hk with hk | hk <;> simp [hk]), leaf, get_bind]
  rcases hk with hk | hk
  all_goals
    simp only [front?_of_rest hr, Token.isIdentifier, hk]
    rfl

theorem takeWhile_literals {q : Token → Bool} (h : ts.all q = true) (hr : ∀ t ∈ rest.head?, q t = false) :
    (ts ++ rest).takeWhile q = ts := by
  rw [takeWhile_append_of_pos fun t ht => all_eq_true.1 h t ht]
  cases rest with
  | nil => simp
  | cons u us => simp [hr u rfl]

theorem chains_strings (t : Token) (more : List Token) (hall : (t :: more).all (·.kind == .stringLiteral) = true) :
    (Expr.strings t more hall).Chains := by
  refine chains_of_primary rfl fun n c rest ha hpunct _ => ?_
  have hr : c.rest = t :: (more ++ rest) := ha.rest
  have hk : t.kind = .stringLiteral := by simpa using (all_eq_true.1 hall) t (by simp)
  have hm := moves_advanceWhile (c := c) (·.kind == .stringLiteral)
  rw [ha.rest, show (Expr.strings t more hall).tokens = t :: more from rfl,
    takeWhile_literals hall fun u hu => by simp [hpunct u hu]] at hm
  refine ⟨_, (hm.trans (moves_push (textLeaf c.source .constant t.start (lastStop t.stop more)))).of_eq ?_ rfl, ?_⟩
  · simp [tokens]
  · have hid : t.isIdentifier = false := by simp [Token.isIdentifier, hk]
    rw [primary_leaf hr (by simp [hk]), leaf, get_bind]
    simp only [front?_of_rest hr, hid, hk, Bool.false_eq_true, if_false, modify_bind, get_bind]
    have hend : (c.advanceWhile (·.kind == .stringLiteral)).lastEnd = lastStop t.stop more := by
      simpa using hm.lastEnd
    rw [hend, ← hm.source]
    rfl

theorem chains_group (h : e.Climbs) (o : Punct "(") (k : Punct ")") : (Expr.group o e k).Chains := by
  refine chains_of_primary rfl fun n c rest ha _ hs => ?_
  have hr : c.rest = o.1 :: (e.tokens ++ k.1 :: rest) := by simpa [tokens] using ha.rest
  have hadv := moves_next hr
  have hin : Ahead e c.advance (k.1 :: rest) := hadv.ahead ha.keyword ha.proper hr
  obtain ⟨c₁, hm, he⟩ := h.passes anyPower (n := n) hin (quiet_closing k.2 (by decide))
    (by rw [steps] at hs; omega) (Nat.zero_le _)
  obtain ⟨u, us, hu, ho⟩ := e.exists_first hin.keyword hin.proper
  have hbrace : c.advance.atPunct "\x7b" = false := by
    have hfirst : c.advance.rest = u :: (us ++ k.1 :: rest) := by rw [hin.rest, hu]; rfl
    rw [atPunct_of_rest hfirst]
    exact ho.ne_brace
  have hk := moves_next (hm.rest_eq hin.rest)
  have hall := (hadv.trans hm).trans hk
  refine ⟨{ c₁.advance with groupEnd? := some k.1.stop }, ⟨hall.source, ?_, ?_, ?_, hall.typeNames⟩, ?_⟩
  · simpa [tokens] using hall.rest
  · simpa [tokens] using hall.lastEnd
  · simpa [events, hadv.source] using hall.events
  · rw [Job.run, Job.round, Round.primary, get_bind]
    simp only [front?_of_rest hr, o.2, if_true, advance_bind, get_bind, hbrace, Bool.false_eq_true, if_false]
    rw [bind_of_ok _ he, expectPunct, bind_of_ok _ (expect_of_rest (hm.rest_eq hin.rest) k.2)]
    rfl

/-! ### Prefix operators -/

theorem stands_sign (h : e.Stands) (op : Sign) : (Expr.sign op e).Stands := by
  intro _ n c rest ha hq hs
  obtain ⟨n, rfl⟩ := exists_succ_of_steps hs
  have hr : c.rest = op.1 :: (e.tokens ++ rest) := ha.rest
  have hproper := ha.proper
  simp only [isProper, Bool.and_eq_true, decide_eq_true_eq] at hproper
  have hm := (moves_next hr).trans (moves_push (mark .unaryOperator op.1.stop op.1.text))
  obtain ⟨c', he, hu⟩ := h hproper.1 (hm.ahead ha.keyword hproper.2 hr) hq (Nat.le_of_succ_le_succ hs)
  rw [hm.source] at he
  refine ⟨c', hm.trans he, ?_⟩
  rw [Job.run, Job.round, Round.unary, get_bind]
  simp only [front?_of_rest hr, op.2, if_true, advance_bind]
  exact hu

theorem atTypeGroup_of_isType {g : Enclosed} (hg : g.isType c.typeNames = true) (hr : c.rest = g.tokens ++ rest) :
    c.atTypeGroup = true := by
  simp only [Enclosed.isType, Bool.and_eq_true] at hg
  obtain ⟨⟨⟨ho, hi⟩, -⟩, -⟩ := hg
  obtain ⟨u, hu, htype⟩ := (Option.any_eq_true _ _).1 hi
  obtain ⟨us, hus⟩ := head?_eq_some_iff.1 hu
  rw [Enclosed.tokens, hus] at hr
  rw [Cursor.atTypeGroup, atPunct_of_rest hr, ho, Bool.true_and, Cursor.second?, hr]
  exact htype

theorem stands_cast (h : e.Stands) (g : TypeGroup) : (Expr.cast g e).Stands := by
  intro _ n c rest ha hq hs
  obtain ⟨n, rfl⟩ := exists_succ_of_steps hs
  have hr : c.rest = g.tokens ++ (e.tokens ++ rest) := by simpa [tokens] using ha.rest
  have hproper := ha.proper
  simp only [isProper, Bool.and_eq_true, decide_eq_true_eq] at hproper
  obtain ⟨⟨hg, hpower⟩, hproper⟩ := hproper
  have hfirst : c.rest = g.opening :: (g.inside ++ g.closing :: (e.tokens ++ rest)) := by
    simpa [Enclosed.tokens] using hr
  have hmove : Moves c (c.moveTo g.closing (e.tokens ++ rest)) g.tokens [] :=
    moves_moveTo (g.opening :: g.inside) hfirst
  have hm := hmove.trans (moves_push (textLeaf c.source .unaryOperator g.opening.start g.closing.stop))
  obtain ⟨c', he, hu⟩ := h hpower (hm.ahead ha.keyword hproper (by simpa using hr)) hq (Nat.le_of_succ_le_succ hs)
  rw [hm.source] at he
  refine ⟨c', (hm.trans he).of_eq (by simp [tokens]) (by simp [events]), ?_⟩
  have hsign : (g.opening.kind == .punct && signs.contains g.opening.text) = false := by
    simp only [Enclosed.isType, Bool.and_eq_true] at hg
    obtain ⟨hk, ht⟩ := isPunct_iff.1 hg.1.1.1
    rw [ht, hk]
    decide
  obtain ⟨u, us, hus, ho⟩ := e.exists_first ha.keyword hproper
  have hbrace : ((e.tokens ++ rest).head?.any (·.isPunct "\x7b")) = false := by
    rw [hus]
    exact ho.ne_brace
  have hcast : expectCast g.opening c = .ok g.closing (c.moveTo g.closing (e.tokens ++ rest)) := by
    rw [expectCast, get_bind]
    simp only [hr, Enclosed.close?_of_isType hg, hbrace, Bool.false_eq_true, if_false]
    rfl
  rw [Job.run, Job.round, Round.unary, get_bind]
  simp only [front?_of_rest hfirst, hsign, Bool.false_eq_true, if_false, atTypeGroup_of_isType hg hr, if_true]
  rw [bind_of_ok _ hcast]
  exact hu

theorem unary_sizeof (k : Keyword "sizeof") (hr : c.rest = k.1 :: rest) :
    Job.run (n + 1) .unary c = (do
      if (← get).atTypeGroup then
        let close ← expectGroup ")"
        reportText .constant k.1.start close.stop
      else
        report .unaryOperator k.1.stop "sizeof"
        Job.run n .unary : Recognizer Unit) c.advance := by
  have hk := k.2
  simp only [Token.isWord, Bool.and_eq_true, beq_iff_eq] at hk
  have hgroup : c.atTypeGroup = false := by
    rw [Cursor.atTypeGroup, atPunct_of_rest hr, isPunct_of_kind (by simp [hk.1])]
    rfl
  have hsign : (k.1.kind == .punct && signs.contains k.1.text) = false := by simp [hk.1]
  rw [Job.run, Job.round, Round.unary, get_bind]
  simp only [front?_of_rest hr, hsign, hgroup, k.2, Bool.false_eq_true, if_false, if_true, advance_bind]

theorem stands_measure (k : Keyword "sizeof") (g : TypeGroup) : (Expr.measure k g).Stands := by
  intro _ n c rest ha hq hs
  obtain ⟨n, rfl⟩ := exists_succ_of_steps hs
  have hr : c.rest = k.1 :: (g.tokens ++ rest) := ha.rest
  have hadv := moves_next hr
  have hrest : c.advance.rest = g.tokens ++ rest := hadv.rest_eq hr
  have hg : g.isType c.advance.typeNames = true := by rw [hadv.typeNames]; exact ha.proper
  have hmove : Moves c.advance (c.advance.moveTo g.closing rest) g.tokens [] :=
    moves_moveTo (g.opening :: g.inside) (by simpa [Enclosed.tokens] using hrest)
  have hm := (hadv.trans hmove).trans (moves_push (textLeaf c.source .constant k.1.start g.closing.stop))
  refine ⟨_, hm.of_eq (by simp [tokens]) (by simp [events]), ?_⟩
  have hgroup : expectGroup ")" c.advance = .ok g.closing (c.advance.moveTo g.closing rest) := by
    rw [expectGroup, get_bind]
    simp only [hrest, Enclosed.close?_of_isType hg]
    rfl
  rw [unary_sizeof k hr, get_bind]
  simp only [atTypeGroup_of_isType hg hrest, if_true]
  rw [bind_of_ok _ hgroup, ← (hadv.trans hmove).source]
  rfl

theorem stands_sizeOf (h : e.Stands) (k : Keyword "sizeof") : (Expr.sizeOf k e).Stands := by
  intro _ n c rest ha hq hs
  obtain ⟨n, rfl⟩ := exists_succ_of_steps hs
  have hr : c.rest = k.1 :: (e.tokens ++ rest) := ha.rest
  have hproper := ha.proper
  simp only [isProper, Bool.and_eq_true, Bool.not_eq_true', decide_eq_true_eq] at hproper
  obtain ⟨⟨hcast, hpower⟩, hproper⟩ := hproper
  have hadv := moves_next hr
  have hno := (e.noType ha.keyword hpower hcast hproper).append rest
  have hrest : c.advance.rest = e.tokens ++ rest := hadv.rest_eq hr
  rw [← hrest, ← hadv.typeNames] at hno
  have hm := hadv.trans (moves_push (mark .unaryOperator k.1.stop "sizeof"))
  obtain ⟨c', he, hu⟩ := h hpower (hm.ahead ha.keyword hproper hr) hq (Nat.le_of_succ_le_succ hs)
  rw [hm.source] at he
  refine ⟨c', hm.trans he, ?_⟩
  rw [unary_sizeof k hr, get_bind]
  simp only [hno.atTypeGroup, Bool.false_eq_true, if_false]
  exact hu

/-! ### Suffixes -/

theorem Chains.suffix (hb : b.Chains) (ts : List Token) (es : List UInt8 → List Event)
    (htokens : e.tokens = b.tokens ++ ts) (hevents : ∀ source, e.events source = b.events source ++ es source)
    (hlinks : e.links = b.links + 1) (hsteps : b.steps ≤ e.steps)
    (hproper : ∀ types, e.isProper types = true → suffixPower ≤ b.power ∧ b.isProper types = true)
    (hpunct : ∃ t us, ts = t :: us ∧ t.kind = .punct)
    (hround : ∀ ⦃n : Nat⦄ ⦃c : Cursor⦄ ⦃rest : List Token⦄, "sizeof" ∉ c.typeNames → e.isProper c.typeNames = true →
      c.rest = ts ++ rest → e.steps ≤ n + b.links + 2 →
      ∃ c', Moves c c' ts (es c.source) ∧ Job.run (n + 1) .postfixes c = Job.run n .postfixes c') : e.Chains := by
  intro _ n c rest ha _ hs
  have hr : c.rest = b.tokens ++ (ts ++ rest) := by rw [ha.rest, htokens, append_assoc]
  obtain ⟨t, us, hts, hk⟩ := hpunct
  obtain ⟨c₁, hm, hc⟩ := hb (hproper _ ha.proper).1 ⟨ha.keyword, (hproper _ ha.proper).2, hr⟩
    (by rintro u hu; rw [hts] at hu; cases hu; exact hk) (Nat.le_trans hsteps hs)
  have hlb := b.links_le
  obtain ⟨k, hk⟩ : ∃ k, n - b.links = k + 1 := ⟨n - b.links - 1, by omega⟩
  obtain ⟨c', hm', hp⟩ := hround (n := k) (by rw [hm.typeNames]; exact ha.keyword)
    (by rw [hm.typeNames]; exact ha.proper) (hm.rest_eq hr) (by omega)
  rw [hm.source] at hm'
  refine ⟨c', (hm.trans hm').of_eq htokens.symm (hevents _).symm, ?_⟩
  rw [hc, hk, hp, hlinks, ← Nat.sub_sub, hk, Nat.add_sub_cancel]

theorem chains_member (hb : b.Chains) (point : Point) (field : Name) : (Expr.member b point field).Chains := by
  obtain ⟨t, ht⟩ := point
  obtain ⟨hk, hne⟩ := isPunct_of_either ht
  refine hb.suffix [t, field.1] (fun _ => [mark .postfixMember field.1.stop (t.text ++ field.1.literal)]) rfl
    (fun _ => rfl) rfl (Nat.le_succ _) (fun types h => ?_) ⟨t, _, rfl, hk⟩ fun n c rest _ _ hr _ => ?_
  · simpa [isProper] using h
  · have hadv := moves_next hr
    have hfield : c.advance.rest = field.1 :: rest := hadv.rest_eq hr
    refine ⟨_, (hadv.trans (moves_next hfield)).trans (moves_push _), ?_⟩
    rw [Job.run, Job.round, Round.postfixes, get_bind]
    simp only [front?_of_rest hr, hne "(" (by decide), hne "[" (by decide), ht, Bool.false_eq_true,
      if_false, if_true, advance_bind]
    rw [bind_of_ok _ (expect_of_rest hfield field.2)]
    rfl

theorem chains_increment (hb : b.Chains) (op : Increment) : (Expr.increment b op).Chains := by
  obtain ⟨t, ht⟩ := op
  obtain ⟨hk, hne⟩ := isPunct_of_either ht
  refine hb.suffix [t] (fun _ => [mark .postfixIncrement t.stop t.text]) rfl (fun _ => rfl) rfl (Nat.le_succ _)
    (fun types h => ?_) ⟨t, _, rfl, hk⟩ fun n c rest _ _ hr _ => ?_
  · simpa [isProper] using h
  · refine ⟨_, (moves_next hr).trans (moves_push _), ?_⟩
    rw [Job.run, Job.round, Round.postfixes, get_bind]
    simp only [front?_of_rest hr, hne "(" (by decide), hne "[" (by decide), hne "." (by decide),
      hne "->" (by decide), ht,
      Bool.or_self, Bool.false_eq_true, if_false, if_true, advance_bind]
    rfl

theorem chains_index (hb : b.Chains) (he : e.Climbs) (o : Punct "[") (k : Punct "]") :
    (Expr.index b o e k).Chains := by
  refine hb.suffix (o.1 :: (e.tokens ++ [k.1])) (fun source => e.events source ++ [mark .postfixIndex k.1.stop]) rfl
    (fun _ => rfl) rfl (by rw [steps]; omega) (fun types h => ?_) ⟨o.1, _, rfl, (isPunct_iff.1 o.2).1⟩
    fun n c rest hkeyword hproper hr hs => ?_
  · simp only [isProper, Bool.and_eq_true, decide_eq_true_eq] at h
    exact h.1
  · have hr : c.rest = o.1 :: (e.tokens ++ k.1 :: rest) := by simpa using hr
    simp only [isProper, Bool.and_eq_true] at hproper
    have hadv := moves_next hr
    have hin : Ahead e c.advance (k.1 :: rest) := hadv.ahead hkeyword hproper.2 hr
    obtain ⟨c₁, hm, hx⟩ := he.passes anyPower (n := n) hin (quiet_closing k.2 (by decide))
      (by have := b.links_le; rw [steps] at hs; omega) (Nat.zero_le _)
    have hk := hm.rest_eq hin.rest
    rw [hadv.source] at hm
    refine ⟨_, (((hadv.trans hm).trans (moves_next hk)).trans (moves_push _)).of_eq (by simp) (by simp; rfl), ?_⟩
    rw [Job.run, Job.round, Round.postfixes, get_bind]
    simp only [front?_of_rest hr, isPunct_of_ne o.2 (q := "(") (by decide), o.2, Bool.false_eq_true, if_false, if_true,
      advance_bind]
    rw [bind_of_ok _ hx, expectPunct, bind_of_ok _ (expect_of_rest hk k.2)]
    rfl

end Expr

/-- A call's arguments are passed and counted, up to the parenthesis that closes the call. -/
def Args.Lists (as : Args) : Prop :=
  ∀ (count : Nat) ⦃n : Nat⦄ ⦃c : Cursor⦄ ⦃k : Punct ")"⦄ ⦃rest : List Token⦄, as.isGiven = true →
    "sizeof" ∉ c.typeNames →
    as.isProper c.typeNames = true → c.rest = as.tokens ++ k.1 :: rest → as.steps ≤ n →
    ∃ c', Moves c c' as.tokens (as.events c.source) ∧ Job.run n (.arguments count) c = .ok (count + as.count) c'

/-- The same where there may be no arguments, and then what is done with their number. -/
theorem Args.Lists.all (h : as.Lists) (f : Nat → Recognizer Unit) {k : Punct ")"}
    (hkeyword : "sizeof" ∉ c.typeNames) (hproper : as.isProper c.typeNames = true)
    (hr : c.rest = as.tokens ++ k.1 :: rest) (hs : as.steps ≤ n) :
    ∃ c', Moves c c' as.tokens (as.events c.source) ∧
      (if c.atPunct ")" then pure 0 >>= f else Job.run n (.arguments 0) >>= f) c = f as.count c' := by
  cases hg : as.isGiven with
  | false =>
    cases as with
    | last | more => cases hg
    | none =>
      rw [atPunct_of_rest hr, if_pos k.2]
      exact ⟨c, .refl c, rfl⟩
  | true =>
    obtain ⟨c', hm, ha⟩ := h 0 hg hkeyword hproper hr hs
    have hfirst : c.atPunct ")" = false := by
      obtain ⟨e, us, hus, he⟩ : ∃ e us, as.tokens = Expr.tokens e ++ us ∧ e.isProper c.typeNames = true := by
        cases as with
        | none => cases hg
        | last e =>
          simp only [Args.isProper, Bool.and_eq_true] at hproper
          exact ⟨e, [], by simp [Args.tokens], hproper.2⟩
        | more e comma rest =>
          simp only [Args.isProper, Bool.and_eq_true] at hproper
          exact ⟨e, comma.1 :: rest.tokens, rfl, hproper.1.2⟩
      obtain ⟨t, ts, ht, ho⟩ := e.exists_first hkeyword he
      have hrest : c.rest = t :: (ts ++ (us ++ k.1 :: rest)) := by rw [hr, hus, ht]; simp
      rw [atPunct_of_rest hrest]
      exact ho.ne_paren
    refine ⟨c', hm, ?_⟩
    rw [hfirst, if_neg Bool.false_ne_true, bind_of_ok _ ha, Nat.zero_add]

namespace Expr

theorem chains_call (hb : b.Chains) (has : as.Lists) (o : Punct "(") (k : Punct ")") :
    (Expr.call b o as k).Chains := by
  refine hb.suffix (o.1 :: (as.tokens ++ [k.1]))
    (fun source => as.events source ++ [mark .postfixCall k.1.stop (toString as.count)]) rfl
    (fun _ => rfl) rfl (by rw [steps]; omega) (fun types h => ?_) ⟨o.1, _, rfl, (isPunct_iff.1 o.2).1⟩
    fun n c rest hkeyword hproper hr hs => ?_
  · simp only [isProper, Bool.and_eq_true, decide_eq_true_eq] at h
    exact h.1
  · have hr : c.rest = o.1 :: (as.tokens ++ k.1 :: rest) := by simpa using hr
    simp only [isProper, Bool.and_eq_true] at hproper
    have hadv := moves_next hr
    have hrest : c.advance.rest = as.tokens ++ k.1 :: rest := hadv.rest_eq hr
    obtain ⟨c₁, hm, hx⟩ := has.all (n := n) _ (by rw [hadv.typeNames]; exact hkeyword)
      (by rw [hadv.typeNames]; exact hproper.2) hrest (by have := b.links_le; rw [steps] at hs; omega)
    have hk : c₁.rest = k.1 :: rest := hm.rest_eq hrest
    rw [hadv.source] at hm
    refine ⟨_, (((hadv.trans hm).trans (moves_next hk)).trans
      (moves_push (mark .postfixCall k.1.stop (toString as.count)))).of_eq (by simp) (by simp), ?_⟩
    rw [Job.run, Job.round, Round.postfixes, get_bind]
    simp only [front?_of_rest hr, o.2, if_true, advance_bind, get_bind]
    rw [hx, expectPunct, bind_of_ok _ (expect_of_rest hk k.2)]
    rfl

/-! ### Operators between operands -/

theorem climbs_binary {l r : Expr} (hl : l.Climbs) (hr : r.Climbs) (op : Connective) : (Expr.binary l op r).Climbs := by
  intro least n c rest ha hq hs hleast
  have hproper := ha.proper
  simp only [isProper, Bool.and_eq_true, decide_eq_true_eq] at hproper
  obtain ⟨⟨⟨hlp, hlproper⟩, hrp⟩, hrproper⟩ := hproper
  have hrest : c.rest = l.tokens ++ op.token :: (r.tokens ++ rest) := by simpa [tokens] using ha.rest
  obtain ⟨c₁, hm, he⟩ := hl least (n := n) ⟨ha.keyword, hlproper, hrest⟩
    (quiet_operator op.punct op.known (power_lt_reach op hlp)) (by rw [steps] at hs; omega)
    (Nat.le_trans (Nat.le_trans hleast op.operator.le_leftPower) hlp)
  have hround := l.rounds_le
  rw [steps] at hs
  obtain ⟨k, hk⟩ : ∃ k, n - l.rounds = k + 1 := ⟨n - l.rounds - 1, by have := r.two_le_steps; omega⟩
  have hop : c₁.rest = op.token :: (r.tokens ++ rest) := hm.rest_eq hrest
  have hadv := hm.trans (moves_next hop)
  have hin : Ahead r c₁.advance rest := hadv.ahead ha.keyword hrproper (by simpa using hrest)
  obtain ⟨c₂, hm', he'⟩ := hr.passes op.operator.rightPower (n := k) hin hq (by omega) hrp
  have hend : c₂.lastEnd = r.stop := by simpa using hm'.lastEnd
  rw [hadv.source] at hm'
  refine ⟨_, ((hadv.trans hm').trans (moves_push (mark op.operator.kind r.stop op.token.text))).of_eq
    (by simp [tokens]) (by simp [events]), ?_⟩
  rw [he, hk, Job.run, Job.round, Round.operators, get_bind]
  simp only [operator?_of_rest hop op.punct op.known hleast, advance_bind, beq_eq_false_iff_ne.2 op.ne_question,
    Bool.false_eq_true, if_false]
  rw [bind_of_ok _ he', rounds, ← Nat.sub_sub, hk, Nat.add_sub_cancel, ← hend]
  rfl

theorem climbs_conditional {t y : Expr} (ht : t.Climbs) (hy : y.Climbs) (he : e.Climbs)
    (q : Punct "?") (k : Punct ":") :
    (Expr.conditional t q y k e).Climbs := by
  intro least n c rest ha hq hs hleast
  have hproper := ha.proper
  simp only [isProper, Bool.and_eq_true, decide_eq_true_eq] at hproper
  obtain ⟨⟨⟨⟨htp, htproper⟩, hyproper⟩, hep⟩, heproper⟩ := hproper
  obtain ⟨hkind, htext⟩ := isPunct_iff.1 q.2
  have hknown : operator? q.1.text = some (rightward conditionalPower .binaryOperator) := by rw [htext]; rfl
  have hrest : c.rest = t.tokens ++ q.1 :: (y.tokens ++ k.1 :: (e.tokens ++ rest)) := by simpa [tokens] using ha.rest
  obtain ⟨c₁, hm, hx⟩ := ht least (n := n) ⟨ha.keyword, htproper, hrest⟩
    (quiet_operator hkind hknown (Nat.lt_of_lt_of_le htp t.power_le_reach)) (by rw [steps] at hs; omega)
    (Nat.le_of_lt (Nat.lt_of_le_of_lt hleast htp))
  have hround := t.rounds_le
  rw [steps] at hs
  obtain ⟨m, hn⟩ : ∃ m, n - t.rounds = m + 1 := ⟨n - t.rounds - 1, by have := y.two_le_steps; omega⟩
  have hop : c₁.rest = q.1 :: (y.tokens ++ k.1 :: (e.tokens ++ rest)) := hm.rest_eq hrest
  have hm₁ := hm.trans (moves_next hop)
  have hyin : Ahead y c₁.advance (k.1 :: (e.tokens ++ rest)) := hm₁.ahead ha.keyword hyproper (by simpa using hrest)
  obtain ⟨c₂, hmy, hxy⟩ := hy.passes commaPower (n := m) hyin (quiet_closing k.2 (by decide))
    (by omega) y.commaPower_le_power
  have hcolon : c₂.rest = k.1 :: (e.tokens ++ rest) := hmy.rest_eq hyin.rest
  rw [hm₁.source] at hmy
  have hm₂ := (hm₁.trans hmy).trans (moves_next hcolon)
  have hein : Ahead e c₂.advance rest := hm₂.ahead ha.keyword heproper (by simpa using hrest)
  obtain ⟨c₃, hme, hxe⟩ := he.passes conditionalPower (n := m) hein hq (by omega) hep
  have hend : c₃.lastEnd = e.stop := by simpa using hme.lastEnd
  rw [hm₂.source] at hme
  refine ⟨_, (((hm₂.trans hme).trans (moves_push (mark .binaryOperator e.stop ":"))).trans
    (moves_push (mark .binaryOperator e.stop "?"))).of_eq (by simp [tokens]) (by simp [events]), ?_⟩
  rw [hx, hn, Job.run, Job.round, Round.operators, get_bind]
  simp only [operator?_of_rest hop hkind hknown hleast, advance_bind, beq_iff_eq.2 htext, if_true]
  rw [bind_of_ok _ hxy, expectPunct, bind_of_ok _ (expect_of_rest hcolon k.2), bind_of_ok _ hxe,
    rounds, ← Nat.sub_sub, hn,
    Nat.add_sub_cancel, ← hend]
  rfl

end Expr

namespace Args

theorem quiet_comma (comma : Punct ",") : Quiet assignmentPower (comma.1 :: rest) := by
  obtain ⟨hk, ht⟩ := isPunct_iff.1 comma.2
  have hop : operator? comma.1.text = some (leftward commaPower .binaryOperator) := by rw [ht]; rfl
  exact quiet_operator hk hop (by decide)

theorem lists_last (h : e.Climbs) : (Args.last e).Lists := by
  intro count n c k rest _ hkeyword hproper hr hs
  simp only [isProper, Bool.and_eq_true, decide_eq_true_eq] at hproper
  rw [steps] at hs
  obtain ⟨n, rfl⟩ : ∃ m, n = m + 1 := ⟨n - 1, by omega⟩
  obtain ⟨c', hm, he⟩ := h.passes assignmentPower (n := n) ⟨hkeyword, hproper.2, hr⟩
    (quiet_closing k.2 (by decide)) (by omega) hproper.1
  refine ⟨c', hm, ?_⟩
  have hcomma : c'.atPunct "," = false := by
    rw [atPunct_of_rest (hm.rest_eq hr)]
    exact isPunct_of_ne k.2 (by decide)
  rw [Job.run, Job.round, Round.arguments, bind_of_ok _ he, eatPunct]
  simp only [bind_assoc, get_bind, hcomma, Bool.false_eq_true, if_false]
  rfl

theorem lists_more (h : e.Climbs) (has : as.Lists) (comma : Punct ",") :
    (Args.more e comma as).Lists := by
  intro count n c k rest _ hkeyword hproper hr hs
  simp only [isProper, Bool.and_eq_true, decide_eq_true_eq] at hproper
  obtain ⟨⟨⟨hgiven, hpower⟩, hproper⟩, hasproper⟩ := hproper
  rw [steps] at hs
  obtain ⟨n, rfl⟩ : ∃ m, n = m + 1 := ⟨n - 1, by omega⟩
  have hr : c.rest = e.tokens ++ comma.1 :: (as.tokens ++ k.1 :: rest) := by simpa [tokens] using hr
  obtain ⟨c₁, hm, he⟩ := h.passes assignmentPower (n := n) ⟨hkeyword, hproper, hr⟩ (quiet_comma comma) (by omega) hpower
  have hcomma : c₁.rest = comma.1 :: (as.tokens ++ k.1 :: rest) := hm.rest_eq hr
  have hadv := hm.trans (moves_next hcomma)
  obtain ⟨c', hm', ha⟩ := has (count + 1) (n := n) hgiven (by rw [hadv.typeNames]; exact hkeyword)
    (by rw [hadv.typeNames]; exact hasproper) ((moves_next hcomma).rest_eq hcomma) (by omega)
  rw [hadv.source] at hm'
  refine ⟨c', (hadv.trans hm').of_eq (by simp [tokens]) (by simp [events]), ?_⟩
  rw [Job.run, Job.round, Round.arguments, bind_of_ok _ he, eatPunct]
  simp only [bind_assoc, get_bind, atPunct_of_rest hcomma, comma.2, if_true, advance_bind, pure_bind]
  rw [ha, Args.count, Nat.add_right_comm, Nat.add_assoc]

end Args

/-- What is known of every expression. -/
structure Expr.Recognized (e : Expr) : Prop where
  chains : e.Chains
  stands : e.Stands
  climbs : e.Climbs

namespace Expr.Recognized

theorem of_chains (h : e.Chains) (hp : e.power = suffixPower) (hr : e.reach = suffixPower)
    (hn : e.rounds = 0) : e.Recognized :=
  have hstands := h.stands (Nat.le_of_eq hp.symm)
  ⟨h, hstands, hstands.climbs (by rw [hp]; decide) hr hn⟩

theorem of_stands (h : e.Stands) (hp : e.power = prefixPower) (hr : e.reach = suffixPower)
    (hn : e.rounds = 0) : e.Recognized :=
  ⟨fun hs => absurd hs (by rw [hp]; decide), h, h.climbs (Nat.le_of_eq hp.symm) hr hn⟩

theorem of_climbs (h : e.Climbs) (hp : e.power < prefixPower) : e.Recognized :=
  ⟨fun hs => absurd hs (Nat.not_le.2 (Nat.lt_succ_of_lt hp)), fun hs => absurd hs (Nat.not_le.2 hp), h⟩

end Expr.Recognized

mutual

theorem Expr.recognized : ∀ e : Expr, e.Recognized
  | .name t => .of_chains (Expr.chains_name t) rfl rfl rfl
  | .constant t => .of_chains (Expr.chains_constant t) rfl rfl rfl
  | .strings t more h => .of_chains (Expr.chains_strings t more h) rfl rfl rfl
  | .measure k g => .of_stands (Expr.stands_measure k g) rfl rfl rfl
  | .sign op e => .of_stands (Expr.stands_sign e.recognized.stands op) rfl rfl rfl
  | .sizeOf k e => .of_stands (Expr.stands_sizeOf e.recognized.stands k) rfl rfl rfl
  | .cast g e => .of_stands (Expr.stands_cast e.recognized.stands g) rfl rfl rfl
  | .group o e k => .of_chains (Expr.chains_group e.recognized.climbs o k) rfl rfl rfl
  | .binary l op r =>
    .of_climbs (Expr.climbs_binary l.recognized.climbs r.recognized.climbs op) (operator?_bounds op.known).2.1
  | .conditional t q y k e =>
    .of_climbs (Expr.climbs_conditional t.recognized.climbs y.recognized.climbs e.recognized.climbs q k)
      (of_decide_eq_true rfl)
  | .call b o as k => .of_chains (Expr.chains_call b.recognized.chains as.lists o k) rfl rfl rfl
  | .index b o e k => .of_chains (Expr.chains_index b.recognized.chains e.recognized.climbs o k) rfl rfl rfl
  | .member b point field => .of_chains (Expr.chains_member b.recognized.chains point field) rfl rfl rfl
  | .increment b op => .of_chains (Expr.chains_increment b.recognized.chains op) rfl rfl rfl

theorem Args.lists : ∀ as : Args, as.Lists
  | .none => fun _ _ _ _ _ hg => by cases hg
  | .last e => Args.lists_last e.recognized.climbs
  | .more e comma rest => Args.lists_more e.recognized.climbs rest.lists comma

end

/-- **Precedence climbing.** Operators have the ranks of C. An expression with at least the parentheses that the ranks
ask for, followed by a semicolon, is passed up to the semicolon and reported with its operands before their operators,
prefix operators apart. -/
theorem expression_of_proper :
    (∀ text, operator? text = ranked? text) ∧
    ∀ (c : Cursor) (e : Expr) (semicolon : Punct ";") (rest : List Token) (n : Nat),
      "sizeof" ∉ c.typeNames → e.isProper c.typeNames = true → c.rest = e.tokens ++ semicolon.1 :: rest →
      3 * e.tokens.length < n →
      ∃ c', expression n anyPower c = .ok () c' ∧ c'.rest = semicolon.1 :: rest ∧ c'.lastEnd = e.stop ∧
        c'.source = c.source ∧ c'.typeNames = c.typeNames ∧
        c'.events.toList = c.events.toList ++ e.events c.source := by
  refine ⟨operator?_eq_ranked?, fun c e semicolon rest n hkeyword hproper hr hn => ?_⟩
  obtain ⟨c', hm, he⟩ := e.recognized.climbs.passes anyPower (n := n) ⟨hkeyword, hproper, hr⟩
    (quiet_closing semicolon.2 (by decide)) (Nat.lt_of_le_of_lt e.steps_le hn) (Nat.zero_le _)
  exact ⟨c', he, hm.rest_eq hr, by simpa using hm.lastEnd, hm.source, hm.typeNames, hm.events⟩

/-- An assignment of a conditional, with a suffix on a group, a cast, and a measured operand. -/
def stored : List UInt8 := Utf8.encode "a = -(b + 1)[c] ? (int)d : sizeof e;"

def storedExpr : Expr :=
  let token (kind : Token.Kind) (start : Nat) (text : String) : Token := ⟨kind, start, Utf8.encode text⟩
  .binary (.name ⟨token .word 0 "a", by decide +kernel⟩)
    ⟨token .punct 2 "=", rightward assignmentPower .assignment, rfl, by decide +kernel, by decide +kernel⟩
    (.conditional
      (.sign ⟨token .punct 4 "-", by decide +kernel⟩
        (.index
          (.group ⟨token .punct 5 "(", by decide +kernel⟩
            (.binary (.name ⟨token .word 6 "b", by decide +kernel⟩)
              ⟨token .punct 8 "+", leftward 12 .binaryOperator, rfl, by decide +kernel, by decide +kernel⟩
              (.constant ⟨token .number 10 "1", by decide +kernel⟩))
            ⟨token .punct 11 ")", by decide +kernel⟩)
          ⟨token .punct 12 "[", by decide +kernel⟩ (.name ⟨token .word 13 "c", by decide +kernel⟩)
          ⟨token .punct 14 "]", by decide +kernel⟩))
      ⟨token .punct 16 "?", by decide +kernel⟩
      (.cast ⟨⟨token .punct 18 "(", [token .word 19 "int"], token .punct 22 ")"⟩, by decide +kernel,
        by decide +kernel, rfl⟩
        (.name ⟨token .word 23 "d", by decide +kernel⟩))
      ⟨token .punct 25 ":", by decide +kernel⟩
      (.sizeOf ⟨token .word 27 "sizeof", by decide +kernel⟩ (.name ⟨token .word 34 "e", by decide +kernel⟩)))

def storedEnd : Punct ";" := ⟨⟨.punct, 35, Utf8.encode ";"⟩, by decide +kernel⟩

set_option maxRecDepth 100000 in
theorem expression_of_proper_stored :
    (Token.scan stored).toOption = some (storedExpr.tokens ++ [storedEnd.1]) ∧ "sizeof" ∉ Token.libraryTypes ∧
    storedExpr.isProper Token.libraryTypes = true ∧
    ∃ c', expression 100 anyPower { source := stored, rest := storedExpr.tokens ++ [storedEnd.1] } = .ok () c' ∧
      c'.rest = [storedEnd.1] ∧ c'.events.toList = storedExpr.events stored := by
  have hkeyword : "sizeof" ∉ Token.libraryTypes := by decide +kernel
  have hproper : storedExpr.isProper Token.libraryTypes = true := by decide +kernel
  obtain ⟨c', h, hr, -, -, -, he⟩ :=
    expression_of_proper.2 { source := stored, rest := storedExpr.tokens ++ [storedEnd.1] }
    storedExpr storedEnd [] 100 hkeyword hproper rfl (by decide +kernel)
  exact ⟨by decide +kernel, hkeyword, hproper, c', h, hr, by simpa using he⟩

end Deferral.Grammar
