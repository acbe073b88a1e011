import Deferral.Proofs.Reading.Outline
import Deferral.Proofs.Rounds

/-!
# Rounds of expressions and declarations

A job that is done has passed the tokens of a phrase and has reported its events. Here is also what it does to the
ledger, and that it passes a token: an expression is one operand, and so is each declared name. In a round of a job this
may be expected of the jobs it calls (`Lower`). There is one lemma for each round, and so for each job.
-/

namespace Deferral

open List

variable {g : Bool} {kind : Event.Kind} {count : Nat}

theorem Event.arity_toString {offset n : Nat} : (Grammar.mark kind offset (toString n)).arity = n := by
  have hlist : (toString n).toList = Nat.toDigits 10 n := by
    rw [Nat.toString_eq_ofList_toDigits, String.toList_ofList]
  simp only [Event.arity, Grammar.mark, hlist]
  exact Nat.ofDigitChars_ten_toDigits

namespace Ledger

theorem add_add (l : Ledger) (n m : Nat) : (l.add n).add m = l.add (n + m) := by
  rw [add, add, add, Nat.add_assoc]

theorem combine_add (l : Ledger) (n : Nat) : (l.add n).combine n = some (l.add 1) := by
  simp [combine, add]

end Ledger

namespace Grammar

open Tokenized

variable {S : Tokenized} {call : Calls} {c₀ c : Cursor} {b : Bool} {l : Ledger} {t : Token} {ts : List Token}
  {es : List Event} {r : Nat} {e x : Expr}

attribute [local simp] Expr.tokens Expr.events Args.tokens Args.events Specifier.tokens Specifier.events suffixEvents
  Declarator.tokens Declarator.events Param.tokens Param.events Params.tokens Params.events Init.tokens Init.events
  Inits.tokens Inits.events InitDeclarator.tokens InitDeclarator.events InitDeclarators.tokens InitDeclarators.events
  Declaration.tokens Declaration.events

/-- After an expression with a parenthesis around an operand at its end, the cursor knows of it. -/
def Noted (c : Cursor) (e : Expr) : Prop := e.endsGrouped = true → c.groupEnd? = some e.stop

/-- The expression `e` has been read after `ts` and `es`. Where a type began in parentheses (`g`) there is no operand in
parentheses. -/
structure Finds (S : Tokenized) (c₀ : Cursor) (b : Bool) (l : Ledger) (ts : List Token) (es : List Event) (g : Bool)
    (c : Cursor) (e : Expr) : Prop where
  stands : At S c₀ b (l.add 1) (ts ++ e.tokens) (es ++ e.events S.source) c
  front : e.startsGrouped = true → g = false
  noted : Noted c e

/-- A phrase with these tokens and events has been read after `ts` and `es`. -/
def Reads {P : Type} (S : Tokenized) (c₀ : Cursor) (l : Ledger) (ts : List Token) (es : List Event)
    (tokens : P → List Token) (events : P → List Event) (c : Cursor) : Prop :=
  ∃ x, At S c₀ true l (ts ++ tokens x) (es ++ events x) c

/-- A statement has been read after `ts` and `es`. -/
abbrev ReadsStmt (S : Tokenized) (c₀ : Cursor) (s : List Opening) (ts : List Token) (es : List Event) :
    Unit → Cursor → Prop :=
  fun _ => Reads S c₀ ⟨s, 0⟩ ts es Stmt.tokens (Stmt.events S.source)

/-- Phrases of the same kind, `total` of them with the `count` before, have been read. -/
def ReadsAll {P : Type} (S : Tokenized) (c₀ : Cursor) (b : Bool) (l : Ledger) (ts : List Token) (es : List Event)
    (tokens : P → List Token) (events : P → List Event) (size : P → Nat) (count total : Nat) (c : Cursor) : Prop :=
  ∃ xs, At S c₀ b (l.add total) (ts ++ tokens xs) (es ++ events xs) c ∧ total = count + size xs

/-- Specifiers have been read, one at least unless there were `any` before. -/
def Specified (S : Tokenized) (c₀ : Cursor) (b : Bool) (l : Ledger) (ts : List Token) (es : List Event) (any : Bool)
    (c : Cursor) : Prop :=
  ∃ ss : List Specifier, (any = false → ss ≠ []) ∧
    At S c₀ b l (ts ++ ss.flatMap Specifier.tokens) (es ++ ss.flatMap Specifier.events) c

/-- Pointer and reference marks have been read. -/
def Marked (S : Tokenized) (c₀ : Cursor) (b : Bool) (l : Ledger) (ts : List Token) (es : List Event)
    (c : Cursor) : Prop :=
  ∃ ms : List Token, At S c₀ b l (ts ++ ms) (es ++ ms.flatMap markEvents) c

/-- Array suffixes have been read, after a declared name. -/
def Suffixed (S : Tokenized) (c₀ : Cursor) (b : Bool) (l : Ledger) (ts : List Token) (es : List Event) (c : Cursor) :
    Prop :=
  ∃ gs : List Enclosed, At S c₀ b (l.add 1) (ts ++ gs.flatMap Enclosed.tokens) (es ++ suffixEvents S.source gs) c

/-- From `c` on a construct has been passed over, and `name'?` is the last name in it; `name?` if there is none. -/
def PassedOver (S : Tokenized) (c₀ : Cursor) (b : Bool) (l : Ledger) (ts : List Token) (es : List Event) (c : Cursor)
    (name? name'? : Option Token) (c' : Cursor) : Prop :=
  ∃ us, At S c₀ b l (ts ++ us) es c' ∧ Passed us c'.rest ∧ c.rest.head? = us.head? ∧ name'? = (lastName? us).or name?

/-- What is expected of the jobs that are called in a round that began at `c₀`, of a job that ranks `r`: they are called
after a token has been passed (`b`), or rank lower. Statements find no operands, and a block changes a deferral that it
is opened in. -/
structure Lower (S : Tokenized) (call : Calls) (r : Nat) (c₀ : Cursor) : Prop where
  expression : ∀ {b l ts es c} (least : Nat), At S c₀ b l ts es c → (b || Nat.blt 2 r) = true →
    S.Ends (call (.expression least)) c fun _ c' => ∃ e, Finds S c₀ true l ts es c.atTypeGroup c' e
  operators : ∀ {l ts es g c x} (least : Nat), Finds S c₀ true l ts es g c x →
    S.Ends (call (.operators least)) c fun _ c' => ∃ e, Finds S c₀ true l ts es g c' e
  unary : ∀ {b l ts es c}, At S c₀ b l ts es c → (b || Nat.blt 1 r) = true →
    S.Ends (call .unary) c fun _ c' => ∃ e, Finds S c₀ true l ts es c.atTypeGroup c' e
  primary : ∀ {l ts es c}, At S c₀ false l ts es c → Nat.blt 0 r = true →
    S.Ends (call .primary) c fun _ c' => ∃ e, Finds S c₀ true l ts es false c' e
  postfixes : ∀ {l ts es g c x}, Finds S c₀ true l ts es g c x →
    S.Ends (call .postfixes) c fun _ c' => ∃ e, Finds S c₀ true l ts es g c' e
  arguments : ∀ {l ts es c} (count : Nat), At S c₀ true (l.add count) ts es c → S.Ends (call (.arguments count)) c
    (ReadsAll S c₀ true l ts es Args.tokens (Args.events S.source) Args.count count)
  specifiers : ∀ {b l ts es c} (named any : Bool), At S c₀ b l ts es c → (b || Nat.blt 0 r) = true →
    S.Ends (call (.specifiers named any)) c fun _ => Specified S c₀ (!any || b) l ts es any
  marks : ∀ {b l ts es c}, At S c₀ b l ts es c → (b || Nat.blt 0 r) = true →
    S.Ends (call .marks) c fun _ => Marked S c₀ b l ts es
  arraySuffixes : ∀ {l ts es c}, At S c₀ true (l.add 1) ts es c →
    S.Ends (call .arraySuffixes) c fun _ => Suffixed S c₀ true l ts es
  parameters : ∀ {l ts es c}, At S c₀ true l ts es c → S.Ends (call .parameters) c fun _ c' =>
    ∃ k, Reads S c₀ (l.add k) ts es Params.tokens (Params.events S.source (lastStop 0 ts)) c'
  initializer : ∀ {b l ts es c}, At S c₀ b l ts es c → (b || Nat.blt 3 r) = true →
    S.Ends (call .initializer) c fun _ => Reads S c₀ (l.add 1) ts es Init.tokens (Init.events S.source)
  initializers : ∀ {l ts es c} (count : Nat), At S c₀ true (l.add count) ts es c → S.Ends (call (.initializers count)) c
    (ReadsAll S c₀ true l ts es Inits.tokens (Inits.events S.source) Inits.count count)
  declarators : ∀ {l ts es c}, At S c₀ true l ts es c → S.Ends (call .declarators) c fun _ c' =>
    ∃ k, Reads S c₀ (l.add (k + 1)) ts es InitDeclarators.tokens (InitDeclarators.events S.source) c'
  statement : ∀ {b s ts es c}, Ledger.blocked s = s → At S c₀ b ⟨s, 0⟩ ts es c → (b || Nat.blt 4 r) = true →
    S.Ends (call .statement) c (ReadsStmt S c₀ s ts es)
  ifStatement : ∀ {s ts es c} (k : Keyword "if"), At S c₀ false ⟨s, 0⟩ ts es c → c.front? = some k.1 →
    Nat.blt 0 r = true → S.Ends (call .ifStatement) c (ReadsStmt S c₀ s ts es)
  doStatement : ∀ {s ts es c} (k : Keyword "do"), At S c₀ false ⟨s, 0⟩ ts es c → c.front? = some k.1 →
    Nat.blt 0 r = true → S.Ends (call .doStatement) c (ReadsStmt S c₀ s ts es)
  switchStatement : ∀ {s ts es c} (k : Keyword "switch"), At S c₀ false ⟨s, 0⟩ ts es c → c.front? = some k.1 →
    Nat.blt 0 r = true →
    S.Ends (call .switchStatement) c (ReadsStmt S c₀ s ts es)
  deferStatement : ∀ {s ts es c} (k : Keyword "defer"), At S c₀ false ⟨s, 0⟩ ts es c → c.front? = some k.1 →
    Nat.blt 3 r = true →
    S.Ends (call (.deferStatement k.1)) c (ReadsStmt S c₀ s ts es)
  body : ∀ {s ts es c}, Ledger.blocked s = s → At S c₀ true ⟨s, 0⟩ ts es c →
    S.Ends (call .body) c fun _ => Reads S c₀ ⟨s, 0⟩ ts es Body.tokens (Body.events S.source (lastStop 0 ts))
  block : ∀ {b s ts es c}, At S c₀ b ⟨s, 0⟩ ts es c → (b || Nat.blt 0 r) = true →
    S.Ends (call .block) c fun _ => Reads S c₀ ⟨Ledger.blocked s, 0⟩ ts es Block.tokens (Block.events S.source)
  statements : ∀ {s ts es c}, At S c₀ true ⟨.scope :: s, 0⟩ ts es c → S.Ends (call .statements) c fun _ c' =>
    ∃ k : Punct "\x7d", Reads S c₀ ⟨s, 0⟩ ts es (fun items : Stmts => items.tokens ++ [k.1])
      (fun items => items.events S.source ++ [mark .scopeEnd k.1.stop]) c'
  skipDeclaration : ∀ {b l ts es c} (name? : Option Token), At S c₀ b l ts es c → (b || Nat.blt 0 r) = true →
    S.Ends (call (.skipDeclaration name?)) c (PassedOver S c₀ b l ts es c name?)
  unit : ∀ {ts es c}, c.Sound S {} ts es → c₀.Comes c true → S.Ends (call .unit) c fun _ c' => ∃ items : List Item,
    S.tokens = ts ++ tokensOf items ∧ Outline c.typeNames items ∧
      c'.Kept S {} S.tokens (es ++ unitEvents S.source items)

/-! ## Expressions -/

theorem Finds.weaken (h : Finds S c₀ b l ts es g c e) : Finds S c₀ false l ts es g c e :=
  ⟨h.stands.weaken, h.front, h.noted⟩

theorem noted_of_endsGrouped (h : e.endsGrouped = false) : Noted c e :=
  fun hgrouped => absurd (h.symm.trans hgrouped) Bool.false_ne_true

/-- An expression without parentheses around an operand at either end. -/
theorem Finds.bare (h : At S c₀ b (l.add 1) (ts ++ e.tokens) (es ++ e.events S.source) c)
    (hstart : e.startsGrouped = false) (hend : e.endsGrouped = false) : Finds S c₀ b l ts es g c e :=
  ⟨h, fun hgrouped => absurd (hstart.symm.trans hgrouped) Bool.false_ne_true, noted_of_endsGrouped hend⟩

theorem ends_expression (ih : Lower S call 2 c₀) (least : Nat) (h : At S c₀ false l ts es c₀) :
    S.Ends (Round.expression call least) c₀ fun _ c' => ∃ e, Finds S c₀ true l ts es c₀.atTypeGroup c' e := by
  rw [Round.expression]
  refine (ih.unary h rfl).bind ?_
  rintro _ c₁ ⟨x, hx⟩
  exact ih.operators least hx

theorem step_binary (hk : kind = .assignment ∨ kind = .relational ∨ kind = .binaryOperator)
    (offset : Nat) (text : String) (l : Ledger) : (l.add 2).step (mark kind offset text) = some (l.add 1) := by
  rcases hk with rfl | rfl | rfl <;> exact l.combine_add 2

theorem At.reportBinary {text : String} (h : At S c₀ b (l.add 2) ts es c)
    (hk : kind = .assignment ∨ kind = .relational ∨ kind = .binaryOperator) (hne : text.isEmpty = false) :
    S.Ends (Grammar.reportHere kind text) c fun _ c' =>
      At S c₀ b (l.add 1) ts (es ++ [Grammar.mark kind (lastStop 0 ts) text]) c' ∧ c'.groupEnd? = c.groupEnd? := by
  rw [← h.sound.lastEnd]
  refine Ends.get ⟨h.mark rfl ?_ (step_binary hk _ text l) fun _ => .inr ?_, rfl⟩
  · rcases hk with rfl | rfl | rfl <;> rfl
  · rcases hk with rfl | rfl | rfl <;> simp [Event.legible, Grammar.mark, hne]

theorem ends_operators (ih : Lower S call 0 c₀) (least : Nat) (h : Finds S c₀ false l ts es g c₀ x) :
    S.Ends (Round.operators call least) c₀ fun _ c' => ∃ e, Finds S c₀ false l ts es g c' e := by
  have hrest {c : Cursor} {e : Expr} (h : Finds S c₀ true l ts es g c e) :
      S.Ends (call (.operators least)) c fun _ c' => ∃ e, Finds S c₀ false l ts es g c' e :=
    (ih.operators least h).imp fun _ _ => Exists.imp fun _ => Finds.weaken
  rw [Round.operators]
  refine Ends.get ?_
  cases ho : c₀.operator? least with
  | none => exact ⟨x, h⟩
  | some found =>
    obtain ⟨text, op⟩ := found
    obtain ⟨t, hf, rfl, hpunct, hop⟩ := operator?_eq_some ho
    refine h.stands.advance hf fun c₁ h₁ _ => ?_
    split
    case isTrue hq =>
      refine (ih.expression _ h₁ rfl).bind ?_
      rintro _ c₂ ⟨y, hy⟩
      refine hy.stands.expectPunct fun k c₃ h₃ _ => (ih.expression _ h₃ rfl).bind ?_
      rintro _ c₄ ⟨z, h₄, -, hz⟩
      rw [Ledger.add_add, Ledger.add_add, ← Ledger.add_add l 1 2] at h₄
      refine (h₄.reportBinary (.inr (.inr rfl)) rfl).bind fun _ c₅ h₅ => ?_
      rw [Ledger.add_add] at h₅
      refine (h₅.1.reportBinary (.inr (.inr rfl)) rfl).bind fun _ c₆ h₆ => ?_
      have hquestion : t.isPunct "?" = true := by simpa [Token.isPunct, hpunct] using hq
      refine hrest (e := .conditional x ⟨t, hquestion⟩ y k z) ⟨h₆.1.of_eq (by simp), h.front, fun hgrouped => ?_⟩
      · exact (h₆.2.trans h₅.2).trans (hz hgrouped)
    case isFalse hq =>
      refine (ih.expression _ h₁ rfl).bind ?_
      rintro _ c₂ ⟨y, h₂, -, hy⟩
      rw [Ledger.add_add] at h₂
      refine (h₂.reportBinary (kind_of_operator? hop) (text_ne_of_operator? hop)).bind fun _ c₃ h₃ => ?_
      refine hrest (e := .binary x ⟨t, op, hpunct, hop, by simpa using hq⟩ y)
        ⟨h₃.1.of_eq (by simp), h.front, fun hgrouped => ?_⟩
      · exact h₃.2.trans (hy hgrouped)

theorem ends_unary (ih : Lower S call 1 c₀) (h : At S c₀ false l ts es c₀) :
    S.Ends (Round.unary call) c₀ fun _ c' => ∃ e, Finds S c₀ true l ts es c₀.atTypeGroup c' e := by
  rw [Round.unary]
  refine Ends.get ?_
  cases hf : c₀.front? with
  | none => exact h.unexpected _
  | some t =>
    dsimp only
    split
    case isTrue hs =>
      refine h.advance hf fun c₁ h₁ ht => ?_
      refine (h₁.reportWord ht ht.stop rfl rfl (.inr (Sign.text_ne ⟨t, hs⟩)) rfl).bind fun _ c₂ h₂ =>
        (ih.unary h₂ rfl).imp ?_
      rintro _ c₃ ⟨e, he, -, hn⟩
      exact ⟨.sign ⟨t, hs⟩ e, he.of_eq (by simp), fun h => absurd h Bool.false_ne_true, hn⟩
    split
    case isTrue hg =>
      refine h.expectCast (h.since hf) hg fun type c₁ hopening h₁ ht => ?_
      obtain rfl : t = type.opening := Option.some.inj (hf.symm.trans hopening)
      refine (h₁.reportText ht rfl id).bind fun _ c₂ h₂ => (ih.unary h₂ rfl).imp ?_
      rintro _ c₃ ⟨e, he, -, hn⟩
      exact ⟨.cast type e, he.of_eq (by simp), fun h => absurd h Bool.false_ne_true, hn⟩
    case isFalse hgroup =>
      split
      case isTrue hw =>
        refine h.advance hf fun c₁ h₁ ht => Ends.get ?_
        split
        case isTrue hg =>
          refine h₁.expectGroup ht.toSince fun _ c₂ _ h₂ ht htype => (h₂.reportText ht rfl id).imp fun _ c₃ h₃ => ?_
          obtain ⟨type, rfl⟩ := htype hg
          exact ⟨.measure ⟨t, hw⟩ type, .bare (h₃.of_eq (by simp)) rfl rfl⟩
        case isFalse =>
          have htext : t.text = "sizeof" := by simpa [Token.isWord] using (Bool.and_eq_true_iff.1 hw).2
          refine (h₁.reportWord ht ht.stop htext rfl (.inr rfl) rfl).bind fun _ c₂ h₂ => (ih.unary h₂ rfl).imp ?_
          rintro _ c₃ ⟨e, he, -, hn⟩
          exact ⟨.sizeOf ⟨t, hw⟩ e, he.of_eq (by simp), fun h => absurd h Bool.false_ne_true, hn⟩
      · rw [Bool.eq_false_iff.2 hgroup]
        refine (ih.primary h rfl).bind ?_
        rintro _ c₁ ⟨x, hx⟩
        exact ih.postfixes hx

theorem ends_leaf (h : At S c₀ b l ts es c) :
    S.Ends leaf c fun _ c' => ∃ e, Finds S c₀ true l ts es g c' e := by
  rw [leaf]
  refine Ends.get ?_
  cases hf : c.front? with
  | none => exact h.unexpected _
  | some t =>
    dsimp only
    split
    case isTrue hi =>
      refine h.advance hf fun c₁ h₁ ht => (h₁.reportToken ht rfl id).imp fun _ c₂ h₂ => ?_
      exact ⟨.name ⟨t, hi⟩, .bare h₂ rfl rfl⟩
    cases hk : t.kind with
    | word | punct => exact h.unexpected _
    | number | charLiteral =>
      exact h.advance hf fun c₁ h₁ ht => (h₁.reportToken ht rfl id).imp fun _ c₂ h₂ =>
        ⟨.constant ⟨t, by simp [hk]⟩, .bare h₂ rfl rfl⟩
    | stringLiteral =>
      obtain ⟨more, hall, hm⟩ := moves_strings hf hk
      obtain ⟨u, hu⟩ : ∃ u, (t :: more).getLast? = some u := ⟨_, getLast?_eq_some_getLast (cons_ne_nil t more)⟩
      obtain ⟨h₁, ht⟩ := h.moves (h.since hf) hm hu
      have htext : S.Ends (reportText .constant t.start u.stop) _ _ := h₁.reportText ht rfl id
      have hend := h₁.sound.lastEnd
      rw [lastStop_append, lastStop_cons] at hend
      rw [ht.stop, hend] at htext
      refine Ends.bind (Q := fun _ c' => c' = c.advanceWhile (·.kind == .stringLiteral)) rfl ?_
      rintro _ _ rfl
      refine Ends.get ?_
      rw [hend]
      exact htext.imp fun _ c₂ h₂ => ⟨.strings t more hall, .bare h₂ rfl rfl⟩

theorem ends_primary (ih : Lower S call 0 c₀) (h : At S c₀ false l ts es c₀) :
    S.Ends (Round.primary call) c₀ fun _ c' => ∃ e, Finds S c₀ true l ts es false c' e := by
  rw [Round.primary]
  refine Ends.get ?_
  cases hf : c₀.front? with
  | none => exact h.unexpected _
  | some t =>
    dsimp only
    split
    case isTrue hp =>
      refine h.advance hf fun c₁ h₁ _ => Ends.get ?_
      split
      · exact (h₁.unsupported (Q := fun _ _ => False) _ (h.sound.start_le hf)).bind fun _ _ h => h.elim
      refine (ih.expression _ h₁ rfl).bind ?_
      rintro _ c₂ ⟨e, he⟩
      refine he.stands.expectPunct fun k c₃ h₃ _ => ?_
      exact ⟨.group ⟨t, hp⟩ e k, (h₃.regroup _).of_eq (by simp), fun _ => rfl, fun _ => rfl⟩
    · exact ends_leaf h

theorem At.isSome_count {us : List Token} (h : At S c₀ b l (ts ++ us) es c) (hcount : count ≤ us.length)
    (hn : S.source.length < UInt64.size) : (Assembly.count? (toString count)).isSome = true := by
  have hfits : Fits 0 S.tokens S.source.length := Token.scan_ordered S.scanned
  have hle := hfits.length_le
  rw [h.sound.tokens, length_append, length_append] at hle
  exact isSome_count? (n := S.source.length) (by omega) hn

theorem ends_postfixes (ih : Lower S call 0 c₀) (h : Finds S c₀ false l ts es g c₀ x) :
    S.Ends (Round.postfixes call) c₀ fun _ c' => ∃ e, Finds S c₀ false l ts es g c' e := by
  rw [Round.postfixes]
  refine Ends.get ?_
  cases hf : c₀.front? with
  | none => exact ⟨x, h⟩
  | some t =>
    have hrest {c : Cursor} (e : Expr) (h' : At S c₀ true (l.add 1) (ts ++ e.tokens) (es ++ e.events S.source) c)
        (hstart : e.startsGrouped = x.startsGrouped) (hend : e.endsGrouped = false) :
        S.Ends (call .postfixes) c fun _ c' => ∃ e, Finds S c₀ false l ts es g c' e := by
      have he : Finds S c₀ true l ts es g c e :=
        ⟨h', fun hgrouped => h.front (hstart ▸ hgrouped), noted_of_endsGrouped hend⟩
      exact (ih.postfixes he).imp fun _ _ => Exists.imp fun _ => Finds.weaken
    dsimp only
    split
    case isTrue hp =>
      -- The arguments have been read.
      have hcall (as : Args) {c : Cursor} (h : At S c₀ true (l.add (1 + as.count)) (ts ++ x.tokens ++ [t] ++ as.tokens)
          (es ++ x.events S.source ++ as.events S.source) c) : S.Ends (do
            let close ← expectPunct ")"
            report .postfixCall close.stop (toString as.count)
            call .postfixes) c fun _ c' => ∃ e, Finds S c₀ false l ts es g c' e := by
        refine h.expectPunct fun close c₁ h₁ ht => ?_
        refine Ends.bind (h₁.mark (m := l.add 1) ht.stop rfl ?_ fun hn => .inr (h.isSome_count as.count_le hn))
          fun _ c₂ h₂ => ?_
        · rw [Nat.add_comm]
          change (l.add (as.count + 1)).combine ((mark .postfixCall close.1.stop (toString as.count)).arity + 1) = _
          rw [Event.arity_toString, Ledger.combine_add]
        · exact hrest (.call x ⟨t, hp⟩ as close) (h₂.of_eq (by simp)) rfl rfl
      refine h.stands.advance hf fun c₁ h₁ _ => Ends.get ?_
      split
      · exact hcall .none (h₁.of_eq (by simp))
      · refine (ih.arguments (l := l.add 1) 0 h₁).bind ?_
        rintro _ c₂ ⟨as, h₂, rfl⟩
        rw [Ledger.add_add, Nat.zero_add] at h₂
        rw [Nat.zero_add]
        exact hcall as h₂
    split
    case isTrue hp =>
      refine h.stands.advance hf fun c₁ h₁ _ => (ih.expression _ h₁ rfl).bind ?_
      rintro _ c₂ ⟨i, hi⟩
      refine hi.stands.expectPunct fun close c₃ h₃ ht => ?_
      rw [Ledger.add_add] at h₃
      refine Ends.bind (h₃.report ht.stop rfl (l.combine_add 2)) fun _ c₄ h₄ => ?_
      exact hrest (.index x ⟨t, hp⟩ i close) (h₄.of_eq (by simp)) rfl rfl
    split
    case isTrue hp =>
      refine h.stands.advance hf fun c₁ h₁ _ => h₁.expect fun field c₂ h₂ ht hfield => ?_
      refine Ends.bind (h₂.mark ht.stop rfl (l.combine_add 1) fun _ =>
        .inr (isSome_member? ⟨t, hp⟩ (lossy_token ht.lt)))
        fun _ c₃ h₃ => ?_
      exact hrest (.member x ⟨t, hp⟩ ⟨field, hfield⟩) (h₃.of_eq (by simp)) rfl rfl
    split
    case isTrue hp =>
      refine h.stands.advance hf fun c₁ h₁ ht => ?_
      refine Ends.bind (h₁.mark ht.stop rfl (l.combine_add 1) fun _ => .inr (isSome_increment? ⟨t, hp⟩))
        fun _ c₂ h₂ => ?_
      exact hrest (.increment x ⟨t, hp⟩) (h₂.of_eq (by simp)) rfl rfl
    · exact ⟨x, h⟩

theorem ends_arguments (ih : Lower S call 3 c₀) (h : At S c₀ false (l.add count) ts es c₀) :
    S.Ends (Round.arguments call count) c₀
      (ReadsAll S c₀ true l ts es Args.tokens (Args.events S.source) Args.count count) := by
  rw [Round.arguments]
  refine (ih.expression _ h rfl).bind ?_
  rintro _ c₁ ⟨e, h₁, -⟩
  rw [Ledger.add_add] at h₁
  refine h₁.eatPunct (fun c₂ comma h₂ _ => (ih.arguments _ h₂).imp ?_) ⟨.last e, h₁, rfl⟩
  rintro _ c₃ ⟨as, h₃, rfl⟩
  refine ⟨.more e comma as, h₃.of_eq (by simp), ?_⟩
  · rw [Args.count, Nat.add_assoc, Nat.add_comm 1]

/-! ## Declarations -/

theorem ends_specifiersEnd (h : At S c₀ false l ts es c) (any : Bool) :
    S.Ends (specifiersEnd any) c fun _ => Specified S c₀ (!any) l ts es any := by
  cases any
  · exact h.unexpected _
  · exact ⟨[], fun h => absurd h.symm Bool.false_ne_true, h.of_eq (by simp)⟩

theorem ends_specifiers (ih : Lower S call 0 c₀) (named any : Bool) (h : At S c₀ false l ts es c₀) :
    S.Ends (Round.specifiers call named any) c₀ fun _ => Specified S c₀ (!any) l ts es any := by
  have hrest {c : Cursor} (x : Specifier) (named : Bool) (h : At S c₀ true l (ts ++ x.tokens) (es ++ x.events) c) :
      S.Ends (call (.specifiers named true)) c fun _ => Specified S c₀ (!any) l ts es any := by
    refine (ih.specifiers named true h rfl).imp ?_
    rintro _ c' ⟨ss, -, h'⟩
    exact ⟨x :: ss, fun _ => cons_ne_nil x ss, h'.any.of_eq (by simp)⟩
  rw [Round.specifiers]
  refine Ends.get ?_
  cases hf : c₀.front? with
  | none => exact ends_specifiersEnd h any
  | some t =>
    dsimp only
    split
    · exact ends_specifiersEnd h any
    split
    case isTrue htag =>
      refine h.advance hf fun c₁ h₁ ht => ?_
      refine (h₁.reportWord ht ht.stop rfl rfl (.inr (TagKeyword.text_ne ⟨t, htag⟩)) rfl).bind fun _ c₂ h₂ => ?_
      refine h₂.expect fun tag c₃ h₃ ht hname => Ends.get ?_
      split
      · exact (h₃.unsupported (Q := fun _ _ => False) _ (h.sound.start_le hf)).bind fun _ _ h => h.elim
      · exact (h₃.reportToken ht rfl id).bind fun _ c₄ h₄ => hrest (.tag ⟨t, htag⟩ ⟨tag, hname⟩) true
          (h₄.of_eq (by simp))
    split
    · refine h.advance hf fun c₁ h₁ ht => ?_
      exact (h₁.reportWord ht ht.stop rfl rfl (.inl rfl) rfl).bind fun _ c₂ => hrest (.word t) _
    split
    · refine h.advance hf fun c₁ h₁ ht => ?_
      exact (h₁.reportWord ht ht.stop rfl rfl (.inl rfl) rfl).bind fun _ c₂ => hrest (.word t) true
    · exact ends_specifiersEnd h any

theorem markEvents_qualifier (h : (t.kind == .word && Token.qualifierWords.contains t.text) = true) :
    markEvents t = [] := by
  have hk : t.kind = .word := by simpa using (Bool.and_eq_true_iff.1 h).1
  simp [markEvents, Token.isPunct, hk]

theorem ends_marks (ih : Lower S call 0 c₀) (h : At S c₀ false l ts es c₀) :
    S.Ends (Round.marks call) c₀ fun _ => Marked S c₀ false l ts es := by
  have hrest {c : Cursor} (ms : List Token) (h : At S c₀ true l (ts ++ ms) (es ++ ms.flatMap markEvents) c) :
      S.Ends (call .marks) c fun _ => Marked S c₀ false l ts es := by
    refine (ih.marks h rfl).imp ?_
    rintro _ c' ⟨more, h'⟩
    exact ⟨ms ++ more, h'.weaken.of_eq (by simp)⟩
  rw [Round.marks]
  refine h.eatPunct (fun c₁ t h₁ ht => ?_) (h.eatPunct (fun c₁ t h₁ ht => ?_) ⟨[], h.of_eq (by simp)⟩)
  · refine Ends.bind (Ends.get (h₁.reportWord ht rfl (isPunct_iff.1 t.2).2 rfl (.inr rfl) rfl)) fun _ c₂ h₂ => ?_
    refine h₂.advanceWhile fun c₃ h₃ => hrest _ (h₃.of_eq ⟨append_assoc .., ?_⟩)
    have hq : (c₂.rest.takeWhile fun t => t.kind == .word && Token.qualifierWords.contains t.text).flatMap markEvents =
        [] :=
      flatMap_eq_nil_iff.2 fun u hu => markEvents_qualifier
        (mem_takeWhile_imp (p := fun t : Token => t.kind == .word && Token.qualifierWords.contains t.text) hu)
    rw [flatMap_append, hq]
    simp [markEvents, t.2]
  · refine Ends.bind (Ends.get (h₁.reportWord ht rfl (isPunct_iff.1 t.2).2 rfl (.inr rfl) rfl)) fun _ c₂ h₂ => ?_
    refine hrest [t.1] (h₂.of_eq ⟨rfl, ?_⟩)
    simp [markEvents, t.2, isPunct_of_ne t.2 (show "&" ≠ "*" by decide)]

theorem ends_arraySuffixes (ih : Lower S call 0 c₀) (h : At S c₀ false (l.add 1) ts es c₀) :
    S.Ends (Round.arraySuffixes call) c₀ fun _ => Suffixed S c₀ false l ts es := by
  have hnone : Suffixed S c₀ false l ts es c₀ := ⟨[], h.of_eq (by simp)⟩
  rw [Round.arraySuffixes]
  refine Ends.get ?_
  cases hf : c₀.front? with
  | none => exact hnone
  | some t =>
    dsimp only
    split
    · refine h.expectGroup (h.since hf) fun grp c₁ hopening h₁ ht _ => ?_
      obtain rfl : t = grp.opening := Option.some.inj (hf.symm.trans hopening)
      refine Ends.bind (h₁.reportText ht (l.combine_add 1) fun _ => rfl) fun _ c₂ h₂ => (ih.arraySuffixes h₂).imp ?_
      rintro _ c₃ ⟨gs, h₃⟩
      exact ⟨grp :: gs, h₃.weaken.of_eq (by simp)⟩
    · exact hnone

/-- A declarator, or marks and suffixes without a name. -/
theorem ends_declarator (ih : Lower S call r c₀) (h : At S c₀ b l ts es c) (hr : (b || Nat.blt 0 r) = true)
    {mayBeNameless : Bool} (hb : mayBeNameless = true → b = true) :
    S.Ends (Round.declarator call mayBeNameless) c fun _ c' =>
      Reads S c₀ (l.add 1) ts es Declarator.tokens (Declarator.events S.source) c' ∨
      mayBeNameless = true ∧ ∃ (ms : List Token) (gs : List Enclosed),
        At S c₀ true (l.add 1) (ts ++ (ms ++ gs.flatMap Enclosed.tokens)) (es ++ (ms.flatMap markEvents ++
          mark .declaratorName (lastStop (lastStop 0 ts) ms) :: suffixEvents S.source gs)) c' := by
  rw [Round.declarator]
  refine (ih.marks h hr).bind ?_
  rintro _ c₁ ⟨ms, h₁⟩
  refine Ends.get ?_
  have hnameless : S.Ends (nameless mayBeNameless >>= fun _ => call .arraySuffixes) c₁ fun _ c' =>
      mayBeNameless = true ∧ ∃ (ms : List Token) (gs : List Enclosed),
        At S c₀ true (l.add 1) (ts ++ (ms ++ gs.flatMap Enclosed.tokens)) (es ++ (ms.flatMap markEvents ++
          mark .declaratorName (lastStop (lastStop 0 ts) ms) :: suffixEvents S.source gs)) c' := by
    cases mayBeNameless
    · exact (h₁.unexpected (Q := fun _ _ => False) _).bind fun _ _ h => h.elim
    · rw [hb rfl] at h₁
      have hreport : S.Ends (reportHere .declaratorName) c₁ fun _ => At S c₀ true (l.add 1) (ts ++ ms)
          (es ++ ms.flatMap markEvents ++ [mark .declaratorName c₁.lastEnd]) :=
        Ends.get (h₁.mark rfl rfl rfl fun _ => .inl ⟨.inr rfl, rfl⟩)
      refine hreport.bind fun _ c₂ h₂ => (ih.arraySuffixes h₂).imp ?_
      rintro _ c₃ ⟨gs, h₃⟩
      refine ⟨rfl, ms, gs, h₃.of_eq ⟨append_assoc .., ?_⟩⟩
      simp [h₁.sound.lastEnd]
  cases hf : c₁.front? with
  | none => exact hnameless.imp fun _ _ => .inr
  | some t =>
    dsimp only
    split
    · exact (h₁.unsupported (Q := fun _ _ => False) _ (h₁.sound.start_le hf)).bind fun _ _ h => h.elim
    split
    case isTrue hi =>
      refine h₁.advance hf fun c₂ h₂ ht => (h₂.reportToken ht rfl id).bind fun _ c₃ h₃ => (ih.arraySuffixes h₃).imp ?_
      rintro _ c₄ ⟨gs, h₄⟩
      exact .inl ⟨⟨ms, ⟨t, hi⟩, gs⟩, h₄.of_eq (by simp)⟩
    · exact hnameless.imp fun _ _ => .inr

theorem ends_namedDeclarator (ih : Lower S call r c₀) (h : At S c₀ b l ts es c) (hr : (b || Nat.blt 0 r) = true) :
    S.Ends (Round.declarator call false) c
      fun _ => Reads S c₀ (l.add 1) ts es Declarator.tokens (Declarator.events S.source) :=
  (ends_declarator ih h hr fun h => absurd h Bool.false_ne_true).imp fun _ _ h =>
    h.resolve_right fun h => Bool.false_ne_true h.1

theorem ends_parameters (ih : Lower S call 1 c₀) (h : At S c₀ false l ts es c₀) :
    S.Ends (Round.parameters call) c₀ fun _ c' =>
      ∃ k, Reads S c₀ (l.add k) ts es Params.tokens (Params.events S.source (lastStop 0 ts)) c' := by
  rw [Round.parameters]
  refine h.eatPunct (fun c₁ t h₁ _ => ⟨0, .word t.1, h₁.of_eq (by simp)⟩) ?_
  refine (ih.specifiers _ _ h rfl).bind ?_
  rintro _ c₁ ⟨ss, hne, h₁⟩
  refine Ends.bind (Q := fun _ => Reads S c₀ (l.add 1) ts es Param.tokens (Param.events S.source (lastStop 0 ts)))
    ((ends_declarator ih h₁ rfl fun _ => rfl).imp ?_) ?_
  · rintro _ c₂ (⟨d, h₂⟩ | ⟨-, ms, gs, h₂⟩)
    · exact ⟨.named ⟨ss, hne rfl⟩ d, h₂.of_eq (by simp)⟩
    · exact ⟨.nameless ⟨ss, hne rfl⟩ ms gs, h₂.of_eq (by simp)⟩
  · rintro _ c₂ ⟨q, h₂⟩
    refine Ends.get (h₂.guard (h₂.eatPunct (fun c₃ comma h₃ _ => (ih.parameters h₃).imp ?_) ⟨1, .last q, h₂⟩))
    rintro _ c₄ ⟨k, ps, h₄⟩
    rw [Ledger.add_add] at h₄
    exact ⟨1 + k, .more q comma ps, h₄.of_eq (by simp)⟩

theorem ends_parameterList (ih : Lower S call r c₀) (h : At S c₀ true l ts es c) :
    S.Ends (Round.parameterList call) c fun _ c' =>
      ∃ k, Reads S c₀ (l.add k) ts es Params.tokens (Params.events S.source (lastStop 0 ts)) c' := by
  rw [Round.parameterList]
  refine Ends.get ?_
  split
  · exact ⟨0, .none, h.of_eq (by simp)⟩
  split
  case isTrue hv =>
    obtain ⟨t, hf⟩ := exists_front_of_atWord (Bool.and_eq_true_iff.1 hv).1
    have h₁ := (h.moves (h.since hf) (moves_advance hf) rfl).1
    exact ⟨0, .word t.1, h₁.of_eq (by simp)⟩
  · exact ih.parameters h

theorem Init.tokens_ne_nil (i : Init) : i.tokens ≠ [] := by
  cases i with
  | value e => exact e.tokens_ne_nil
  | list => exact cons_ne_nil _ _

theorem Inits.count_le : ∀ is : Inits, is.count ≤ is.tokens.length
  | .none => le_rfl
  | .last i => length_pos_iff.2 i.tokens_ne_nil
  | .more i _ rest => by
    have := rest.count_le
    simp only [Inits.count, Inits.tokens, length_append, length_cons]
    omega

theorem ends_initializer (ih : Lower S call 3 c₀) (h : At S c₀ false l ts es c₀) :
    S.Ends (Round.initializer call) c₀ fun _ => Reads S c₀ (l.add 1) ts es Init.tokens (Init.events S.source) := by
  rw [Round.initializer]
  refine h.eatPunct (fun c₁ o h₁ _ => ?_) ((ih.expression _ h rfl).imp ?_)
  · refine (ih.initializers (l := l) 0 h₁).bind ?_
    rintro _ c₂ ⟨is, h₂, rfl⟩
    rw [Nat.zero_add] at h₂ ⊢
    refine h₂.expectPunct fun k c₃ h₃ ht => ?_
    refine Ends.imp (h₃.mark (m := l.add 1) ht.stop rfl ?_ fun hn => .inr (h₂.isSome_count is.count_le hn))
      fun _ c₄ h₄ => ⟨.list o is k, h₄.of_eq (by simp)⟩
    change (l.add is.count).combine (mark .initializerList k.1.stop (toString is.count)).arity = _
    rw [Event.arity_toString, Ledger.combine_add]
  · rintro _ c₁ ⟨e, h₁, -⟩
    exact ⟨.value e, h₁⟩

theorem ends_initializers (ih : Lower S call 4 c₀) (h : At S c₀ false (l.add count) ts es c₀) :
    S.Ends (Round.initializers call count) c₀
      (ReadsAll S c₀ false l ts es Inits.tokens (Inits.events S.source) Inits.count count) := by
  rw [Round.initializers]
  refine Ends.get ?_
  split
  · exact ⟨.none, h.of_eq (by simp), rfl⟩
  refine h.guard ((ih.initializer h rfl).bind ?_)
  rintro _ c₁ ⟨i, h₁⟩
  rw [Ledger.add_add] at h₁
  refine h₁.eatPunct (fun c₂ comma h₂ _ => (ih.initializers _ h₂).imp ?_) ⟨.last i, h₁.weaken, rfl⟩
  rintro _ c₃ ⟨is, h₃, rfl⟩
  refine ⟨.more i comma is, h₃.weaken.of_eq (by simp), ?_⟩
  · rw [Inits.count, Nat.add_assoc, Nat.add_comm 1]

theorem ends_declarators (ih : Lower S call 1 c₀) (h : At S c₀ false l ts es c₀) :
    S.Ends (Round.declarators call) c₀ fun _ c' =>
      ∃ k, Reads S c₀ (l.add (k + 1)) ts es InitDeclarators.tokens (InitDeclarators.events S.source) c' := by
  have hmore {c : Cursor} {d : InitDeclarator}
      (h : At S c₀ true (l.add 1) (ts ++ d.tokens) (es ++ d.events S.source) c) :
      S.Ends (do if ← eatPunct "," then call .declarators) c fun _ c' =>
        ∃ k, Reads S c₀ (l.add (k + 1)) ts es InitDeclarators.tokens (InitDeclarators.events S.source) c' := by
    refine h.eatPunct (fun c₁ comma h₁ _ => (ih.declarators h₁).imp ?_) ⟨0, .last d, h⟩
    rintro _ c₂ ⟨k, ds, h₂⟩
    rw [Ledger.add_add] at h₂
    exact ⟨1 + k, .more d comma ds, h₂.of_eq (by simp)⟩
  rw [Round.declarators]
  refine (ends_namedDeclarator ih h rfl).bind ?_
  rintro _ c₁ ⟨d, h₁⟩
  refine Ends.get
    (h₁.guard (h₁.eatPunct (fun c₂ eq h₂ _ => (ih.initializer h₂ rfl).bind ?_) (hmore (d := ⟨d, none⟩) ?_)))
  · rintro _ c₃ ⟨i, h₃⟩
    rw [Ledger.add_add] at h₃
    exact (h₃.reportBinary (.inl rfl) rfl).bind fun _ c₄ h₄ => hmore (d := ⟨d, some (eq, i)⟩) (h₄.1.of_eq (by simp))
  · exact h₁.of_eq (by simp)

theorem ends_declaration (ih : Lower S call r c₀) (h : At S c₀ b l ts es c) (hr : (b || Nat.blt 0 r) = true) :
    S.Ends (Round.declaration call) c fun _ c' =>
      ∃ k, Reads S c₀ (l.add (k + 1)) ts es Declaration.tokens (Declaration.events S.source) c' := by
  rw [Round.declaration]
  refine Ends.get (h.guard ((ih.specifiers _ _ h hr).bind ?_))
  rintro _ c₁ ⟨ss, hne, h₁⟩
  refine (ih.declarators h₁).imp ?_
  rintro _ c₂ ⟨k, ds, h₂⟩
  exact ⟨k, ⟨⟨ss, hne rfl⟩, ds⟩, h₂.of_eq (by simp)⟩

end Grammar

end Deferral
