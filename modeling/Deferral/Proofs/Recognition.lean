import Deferral.Proofs.Bookkeeping

/-!
# Recognition of whole sources

The rounds of statements and of declarations outside functions. Each call of a round is below the job that makes it: it
starts further on in the source, or ranks lower (`Job.Below`). So the recursion ends by itself (`Job.recognize`), every
call does as expected (`lower_guarded`), and the steps that are allowed are never used up (`run_unit_eq`). The events of
a source are in order up to where it is turned down (`exists_kept_of_trace`), and those of a source that is accepted are
the events of its constructs (`exists_outline_of_trace`).
-/

namespace Deferral.Grammar

open Tokenized List

variable {S : Tokenized} {call : Calls} {c₀ c : Cursor} {b : Bool} {l m : Ledger} {t : Token} {ts : List Token}
  {es : List Event} {r : Nat} {s : List Opening} {source : List UInt8} {e : Expr}

attribute [local simp] Condition.tokens Condition.events optionTokens optionEvents ForInit.tokens ForInit.events
  ForParts.tokens ForParts.events Simple.tokens Simple.events Label.tokens Label.event Stmt.tokens
    Stmt.events Stmts.tokens
  Stmts.events Block.tokens Block.events Body.tokens Body.events FunctionPhrase.tokens FunctionPhrase.events

/-! ## Parts of statements -/

theorem ends_header {kind : Event.Kind} (h : At S c₀ b l ts es c) (hf : c.front? = some t) (hk : kind.isPlain = true)
    (hstep : ∀ n, l.step (mark kind n) = some m) :
    S.Ends (header kind) c fun _ => At S c₀ true m (ts ++ [t]) (es ++ [mark kind t.stop]) := by
  rw [header]
  exact h.advance hf fun c₁ h₁ _ => (h₁.reportHere hk hstep).imp fun _ c₂ h₂ => h₂.of_eq (by simp)

theorem ends_condition {kind : Event.Kind} (ih : Lower S call r c₀) (h : At S c₀ b l ts es c) (hk : kind.isPlain = true)
    (hstep : ∀ n, (l.add 1).step (mark kind n) = some m) : S.Ends (Round.condition call kind) c
      fun _ => Reads S c₀ m ts es Condition.tokens fun q => q.events S.source kind := by
  refine h.expectPunct fun o c₁ h₁ _ => (ih.expression _ h₁ rfl).bind ?_
  rintro _ c₂ ⟨e, h₂, -⟩
  exact h₂.expectPunct fun k c₃ h₃ ht => (h₃.report ht.stop hk (hstep _)).imp fun _ c₄ h₄ =>
    ⟨⟨o, e, k⟩, h₄.of_eq (by simp)⟩

/-- An expression that may be missing. -/
theorem ends_expressionUnless {p : String} (ih : Lower S call r c₀) (h : At S c₀ b l ts es c)
    (hr : (b || Nat.blt 2 r) = true) : S.Ends (Round.expressionUnless call p) c fun _ c' => ∃ k ≤ 1, ∃ b e?,
      At S c₀ b (l.add k) (ts ++ optionTokens e?) (es ++ optionEvents S.source e?) c' := by
  refine Ends.get ?_
  split
  · exact ⟨0, Nat.zero_le 1, b, none, h.of_eq (by simp)⟩
  · refine (ih.expression _ h hr).imp ?_
    rintro _ c₁ ⟨e, h₁, -⟩
    exact ⟨1, Nat.le_refl 1, true, some e, h₁⟩

theorem step_statementEnd (k offset : Nat) : Ledger.step ⟨s, k + 1⟩ (mark .statementEnd offset) = some ⟨s, 0⟩ := by
  simp [Ledger.step, mark, Ledger.settle]

theorem ends_expressionStatement (ih : Lower S call 4 c₀) (h : At S c₀ false ⟨s, 0⟩ ts es c₀) :
    S.Ends (Round.expressionStatement call) c₀ (ReadsStmt S c₀ s ts es) := by
  refine (ih.expression _ h rfl).bind ?_
  rintro _ c₁ ⟨e, h₁, -⟩
  refine (h₁.endWith rfl fun n => step_statementEnd 0 n).imp ?_
  rintro _ c₂ ⟨u, h₂⟩
  exact ⟨.simple (.expression e u), h₂.of_eq (by simp)⟩

theorem ends_declarationStatement (ih : Lower S call 4 c₀) (h : At S c₀ false ⟨s, 0⟩ ts es c₀) :
    S.Ends (Round.declarationStatement call) c₀ (ReadsStmt S c₀ s ts es) := by
  refine (ends_declaration ih h rfl).bind ?_
  rintro _ c₁ ⟨k, d, h₁⟩
  rw [Ledger.add, Nat.zero_add] at h₁
  refine (h₁.endWith rfl fun n => step_statementEnd k n).imp ?_
  rintro _ c₂ ⟨u, h₂⟩
  exact ⟨.simple (.declaration d u), h₂.of_eq (by simp)⟩

theorem ends_returnStatement (ih : Lower S call 4 c₀) (k : Keyword "return") (hf : c₀.front? = some k.1)
    (h : At S c₀ false ⟨s, 0⟩ ts es c₀) :
    S.Ends (Round.returnStatement call) c₀ (ReadsStmt S c₀ s ts es) := by
  refine h.advance hf fun c₁ h₁ _ => (ends_expressionUnless ih h₁ rfl).bind ?_
  rintro _ c₂ ⟨n, hn, b, v?, h₂⟩
  refine (h₂.endWith (m := ⟨s, 0⟩) rfl fun _ => ?_).imp ?_
  · simp [Ledger.step, mark, Ledger.settle, Ledger.add, hn]
  · rintro _ c₃ ⟨u, h₃⟩
    exact ⟨.simple (.returned k v? u), h₃.of_eq (by simp)⟩

theorem ends_forParts (ih : Lower S call r c₀) (h : At S c₀ b ⟨.loop :: s, 0⟩ ts es c) :
    S.Ends (Round.forParts call) c
      fun _ => Reads S c₀ ⟨.loop :: s, 0⟩ ts es ForParts.tokens (ForParts.events S.source) := by
  have hpart {kind : Event.Kind} (hkind : kind = .forCondition ∨ kind = .forChange) : ∀ k ≤ 1, ∀ n,
      ((⟨.loop :: s, 0⟩ : Ledger).add k).step (mark kind n) = some ⟨.loop :: s, 0⟩ := by
    rintro k hk n
    rcases hkind with rfl | rfl <;> simp [Ledger.step, mark, Ledger.settleIn, Ledger.settle, Ledger.add, hk]
  have hinit (k n : Nat) : ((⟨.loop :: s, 0⟩ : Ledger).add k).step (mark .forInit n) = some ⟨.loop :: s, 0⟩ := by
    simp [Ledger.step, mark, Ledger.settleIn, Ledger.settle, Ledger.add]
  rw [Round.forParts]
  refine h.expectPunct fun o c₁ h₁ _ => Ends.get ?_
  have hrest {k : Nat} {i : ForInit} {c : Cursor} (h : At S c₀ true ((⟨.loop :: s, 0⟩ : Ledger).add k)
      (ts ++ [o.1] ++ i.tokens) (es ++ i.events S.source) c) : S.Ends (do
        endWith ";" .forInit
        Round.expressionUnless call ";"
        endWith ";" .forCondition
        Round.expressionUnless call ")"
        endWith ")" .forChange) c
      fun _ => Reads S c₀ ⟨.loop :: s, 0⟩ ts es ForParts.tokens (ForParts.events S.source) := by
    refine (h.endWith rfl (hinit k)).bind ?_
    rintro _ c₁ ⟨u₁, h₁⟩
    refine (ends_expressionUnless ih h₁ rfl).bind ?_
    rintro _ c₂ ⟨k₂, hk₂, _, test?, h₂⟩
    refine (h₂.endWith rfl (hpart (.inl rfl) k₂ hk₂)).bind ?_
    rintro _ c₃ ⟨u₂, h₃⟩
    refine (ends_expressionUnless ih h₃ rfl).bind ?_
    rintro _ c₄ ⟨k₄, hk₄, _, change?, h₄⟩
    refine (h₄.endWith rfl (hpart (.inr rfl) k₄ hk₄)).imp ?_
    rintro _ c₅ ⟨u₃, h₅⟩
    exact ⟨⟨o, i, u₁, test?, u₂, change?, u₃⟩, h₅.of_eq (by simp)⟩
  split
  · exact hrest (k := 0) (i := .none) (h₁.of_eq (by simp))
  split
  · refine (ends_declaration ih h₁ rfl).bind ?_
    rintro _ c₂ ⟨k, d, h₂⟩
    exact hrest (i := .declaration d) h₂
  · refine (ih.expression _ h₁ rfl).bind ?_
    rintro _ c₂ ⟨e, h₂, -⟩
    exact hrest (i := .expression e) h₂

theorem At.label {colon : Token} {rest : List Token} (h : At S c₀ b l ts es c)
    (hl : labelColon? 0 0 c.rest = some (colon, rest)) : ∃ (inside : List Token) (u : Punct ":"), u.1 = colon ∧
      At S c₀ true l (ts ++ (inside ++ [u.1])) es (c.moveTo colon rest) := by
  obtain ⟨hcolon, inside, hrest⟩ := labelColon?_eq_some hl
  exact ⟨inside, ⟨colon, hcolon⟩, rfl, h.pass (moves_moveTo inside hrest) (by simp)⟩

/-- After the colon of a case. -/
theorem ends_labelText {k : Keyword "case"} {colon : Token} (label : String)
    (h : ∃ (inside : List Token) (u : Punct ":"),
      u.1 = colon ∧ At S c₀ b ⟨s, 0⟩ (ts ++ [k.1] ++ (inside ++ [u.1])) es c)
    (hend : colon.stop = c.lastEnd) : S.Ends (do
        if label.isEmpty then unexpected .caseLabel
        report .caseLabel colon.stop label) c
      fun _ c' => ∃ x : Stmt, At S c₀ b ⟨s, 0⟩ (ts ++ x.tokens) (es ++ x.events S.source) c' := by
  obtain ⟨inside, u, rfl, h⟩ := h
  split
  · exact (h.unexpected (Q := fun _ _ => False) _).bind fun _ _ h => h.elim
  case isFalse hne =>
    refine Ends.imp (h.mark hend rfl rfl fun _ => .inr ?_) fun _ c₁ h₁ => ?_
    · simp [Event.legible, mark, hne]
    · exact ⟨.label (.case k inside u ⟨label, Bool.eq_false_iff.2 hne⟩), h₁.of_eq (by simp)⟩

theorem ends_caseLabel (k : Keyword "case") (hf : c.front? = some k.1) (h : At S c₀ b ⟨s, 0⟩ ts es c) :
    S.Ends caseLabel c (ReadsStmt S c₀ s ts es) := by
  rw [caseLabel]
  refine h.advance hf fun c₁ h₁ _ => Ends.get ?_
  cases hl : labelColon? 0 0 c₁.rest with
  | none => exact Ends.throw h₁.sound.toKept (Nat.le_of_eq (by rw [h₁.sound.source]; rfl))
  | some found =>
    obtain ⟨colon, rest⟩ := found
    have h₂ := h₁.label hl
    refine Ends.set ?_
    dsimp only
    generalize Text.trim (c₁.slice c₁.lastEnd colon.start) = label
    exact ends_labelText label h₂ rfl

theorem At.rest_eq {c' : Cursor} {b' : Bool} {us : List Token} {evs : List Event} (h : At S c₀ b l ts es c)
    (h' : At S c₀ b' m (ts ++ us) evs c') : c.rest = us ++ c'.rest := by
  have htokens := h.sound.tokens.symm.trans h'.sound.tokens
  rwa [append_assoc, append_cancel_left_eq] at htokens

/-- An expression that starts with a parenthesis around an operand starts with a parenthesis. -/
theorem Expr.exists_opening : ∀ {e : Expr}, e.startsGrouped = true → ∃ o : Punct "(", e.tokens.head? = some o.1
  | .group o _ _, _ => ⟨o, rfl⟩
  | .binary l _ _, h | .conditional l _ _ _ _, h | .call l _ _ _, h | .index l _ _ _, h | .member l _ _, h
  | .increment l _, h => (Expr.exists_opening (e := l) h).imp fun o ho => by simp [Expr.tokens, ho]

/-- A deferred expression has no parenthesis around an operand at either end: one at the start is turned down before the
expression is read, one at the end after it. -/
theorem ends_deferredExpression (ih : Lower S call r c₀) (k : Keyword "defer") (hk : k.1 ∈ S.tokens)
    (h : At S c₀ true ⟨.deferral false :: s, 0⟩ (ts ++ [k.1]) (es ++ [mark .deferHeader k.1.stop]) c) :
    S.Ends (Round.deferredExpression call k.1) c (ReadsStmt S c₀ s ts es) := by
  have hstart : k.1.start ≤ S.source.length := (Nat.le_add_right _ _).trans (S.slice hk).1
  have hrest (hopening : ∀ t, c.front? = some t → (t.isPunct "(" && !c.atTypeGroup) = false) : S.Ends (do
      set { c with groupEnd? := none }
      call (.expression anyPower)
      let c ← get
      if c.groupEnd? == some c.lastEnd then unsupported .parenthesizedDefer k.1.start
      endWith ";" .deferred) c (ReadsStmt S c₀ s ts es) := by
    refine Ends.set ((ih.expression _ (h.regroup none) rfl).bind ?_)
    rintro _ c₁ ⟨e, h₁, hfront, hnoted⟩
    refine Ends.get ?_
    split
    · exact (h₁.unsupported (Q := fun _ _ => False) _ hstart).bind fun _ _ h => h.elim
    case isFalse hclosing =>
      have hbare : e.startsGrouped = false ∧ e.endsGrouped = false := by
        refine ⟨Bool.eq_false_iff.2 fun hgrouped => ?_, Bool.eq_false_iff.2 fun hgrouped => hclosing ?_⟩
        · obtain ⟨o, ho⟩ := Expr.exists_opening hgrouped
          have hf : c.front? = some o.1 := by
            rw [Cursor.front?, h.rest_eq h₁, head?_append, ho]
            rfl
          have hgroup : c.atTypeGroup = false := hfront hgrouped
          simpa [o.2, hgroup] using hopening o.1 hf
        · simp [hnoted hgrouped, h₁.sound.lastEnd]
      refine (h₁.endWith rfl fun _ => rfl).imp ?_
      rintro _ c₂ ⟨u, h₂⟩
      exact ⟨.simple (.deferred k ⟨e, hbare⟩ u), h₂.of_eq (by simp)⟩
  rw [Round.deferredExpression]
  refine Ends.get ?_
  cases hf : c.front? with
  | none => exact hrest fun t ht => absurd (ht.symm.trans hf) (Option.some_ne_none t)
  | some t =>
    dsimp only
    split
    · exact (h.unsupported (Q := fun _ _ => False) _ (h.sound.start_le hf)).bind fun _ _ h => h.elim
    case isFalse hopening =>
      exact hrest fun u hu => Option.some.inj (hf.symm.trans hu) ▸ Bool.eq_false_iff.2 hopening

/-! ## Statements -/

theorem ends_jump (k : JumpKeyword) (hf : c₀.front? = some k.1) (h : At S c₀ false ⟨s, 0⟩ ts es c₀) :
    S.Ends (advance >>= fun _ => endWith ";" .jump k.1.text) c₀ (ReadsStmt S c₀ s ts es) := by
  refine h.advance hf fun c₁ h₁ _ => h₁.expectPunct fun u c₂ h₂ ht => ?_
  refine Ends.imp (h₂.mark ht.stop rfl rfl fun _ => .inr (isSome_jump? k)) fun _ c₃ h₃ => ?_
  exact ⟨.simple (.jump k u), h₃.of_eq (by simp)⟩

theorem ends_statement (ih : Lower S call 4 c₀) (hs : Ledger.blocked s = s) (h : At S c₀ false ⟨s, 0⟩ ts es c₀) :
    S.Ends (Round.statement call) c₀ (ReadsStmt S c₀ s ts es) := by
  rw [Round.statement]
  refine Ends.get ?_
  cases hf : c₀.front? with
  | none => exact ends_expressionStatement ih h
  | some t =>
    have hword {w : String} (hk : t.kind = .word) (hx : t.text = w) : t.isWord w = true := by
      simp [Token.isWord, hk, hx]
    dsimp only
    split
    case h_1 =>
      have hblock := ih.block h rfl
      rw [hs] at hblock
      refine hblock.imp ?_
      rintro _ c₁ ⟨x, h₁⟩
      exact ⟨.block x, h₁⟩
    case h_2 hk hx =>
      have hp : t.isPunct ";" = true := isPunct_iff.2 ⟨hk, hx⟩
      refine h.advance hf fun c₁ h₁ ht => (h₁.report ht.stop rfl rfl).imp fun _ c₂ h₂ => ?_
      exact ⟨.simple (.empty ⟨t, hp⟩), h₂⟩
    case h_3 hk hx => exact ih.ifStatement ⟨t, hword hk hx⟩ h hf rfl
    case h_4 hk hx =>
      refine (ends_header h hf rfl fun _ => rfl).bind fun _ c₁ h₁ => (ends_forParts ih h₁).bind ?_
      rintro _ c₂ ⟨f, h₂⟩
      refine (ih.body rfl h₂).bind ?_
      rintro _ c₃ ⟨x, h₃⟩
      exact (h₃.reportHere rfl fun _ => rfl).imp fun _ c₄ h₄ => ⟨.forLoop ⟨t, hword hk hx⟩ f x, h₄.of_eq (by simp)⟩
    case h_5 hk hx =>
      refine (ends_header h hf rfl fun _ => rfl).bind fun _ c₁ h₁ => (ends_condition ih h₁ rfl fun _ => rfl).bind ?_
      rintro _ c₂ ⟨q, h₂⟩
      refine (ih.body rfl h₂).bind ?_
      rintro _ c₃ ⟨x, h₃⟩
      exact (h₃.reportHere rfl fun _ => rfl).imp fun _ c₄ h₄ => ⟨.whileLoop ⟨t, hword hk hx⟩ q x, h₄.of_eq (by simp)⟩
    case h_6 hk hx => exact ih.doStatement ⟨t, hword hk hx⟩ h hf rfl
    case h_7 hk hx => exact ih.switchStatement ⟨t, hword hk hx⟩ h hf rfl
    case h_8 hk hx => exact ends_caseLabel ⟨t, hword hk hx⟩ hf h
    case h_9 hk hx =>
      refine h.advance hf fun c₁ h₁ _ => (h₁.endWith rfl fun _ => rfl).imp ?_
      rintro _ c₂ ⟨u, h₂⟩
      exact ⟨.label (.default ⟨t, hword hk hx⟩ u), h₂.of_eq (by simp)⟩
    case h_10 hk hx => exact ends_returnStatement ih ⟨t, hword hk hx⟩ hf h
    case h_11 hx => exact hx ▸ ends_jump ⟨t, .inl hx⟩ hf h
    case h_12 hx => exact hx ▸ ends_jump ⟨t, .inr hx⟩ hf h
    case h_13 hk hx => exact ih.deferStatement ⟨t, hword hk hx⟩ h hf rfl
    case h_14 => exact h.unsupported _ (h.sound.start_le hf)
    case h_15 =>
      split
      · exact (h.unsupported (Q := fun _ _ => False) _ (h.sound.start_le hf)).bind fun _ _ h => h.elim
      split
      · exact ends_declarationStatement ih h
      · exact ends_expressionStatement ih h

theorem ends_ifStatement (ih : Lower S call 0 c₀) (k : Keyword "if") (hf : c₀.front? = some k.1)
    (h : At S c₀ false ⟨s, 0⟩ ts es c₀) :
    S.Ends (Round.ifStatement call) c₀ (ReadsStmt S c₀ s ts es) := by
  rw [Round.ifStatement]
  refine (ends_header h hf rfl fun _ => rfl).bind fun _ c₁ h₁ => (ends_condition ih h₁ rfl fun _ => rfl).bind ?_
  rintro _ c₂ ⟨q, h₂⟩
  refine (ih.body rfl h₂).bind ?_
  rintro _ c₃ ⟨y, h₃⟩
  refine Ends.get ?_
  split
  case isTrue he =>
    obtain ⟨o, ho⟩ := exists_front_of_atWord he
    refine (ends_header h₃ ho rfl fun _ => rfl).bind fun _ c₄ h₄ => (ih.body rfl h₄).bind ?_
    rintro _ c₅ ⟨z, h₅⟩
    exact (h₅.reportHere rfl fun _ => rfl).imp fun _ c₆ h₆ => ⟨.branchElse k q y o z, h₆.of_eq (by simp)⟩
  · exact (h₃.reportHere rfl fun _ => rfl).imp fun _ c₄ h₄ => ⟨.branch k q y, h₄.of_eq (by simp)⟩

theorem ends_doStatement (ih : Lower S call 0 c₀) (k : Keyword "do") (hf : c₀.front? = some k.1)
    (h : At S c₀ false ⟨s, 0⟩ ts es c₀) :
    S.Ends (Round.doStatement call) c₀ (ReadsStmt S c₀ s ts es) := by
  rw [Round.doStatement]
  refine (ends_header h hf rfl fun _ => rfl).bind fun _ c₁ h₁ => (ih.body rfl h₁).bind ?_
  rintro _ c₂ ⟨x, h₂⟩
  refine h₂.expect fun w c₃ h₃ _ hw => (ends_condition ih h₃ rfl fun _ => rfl).bind ?_
  rintro _ c₄ ⟨q, h₄⟩
  refine (h₄.endWith rfl fun _ => rfl).imp ?_
  rintro _ c₅ ⟨u, h₅⟩
  exact ⟨.doLoop k x ⟨w, hw⟩ q u, h₅.of_eq (by simp)⟩

theorem ends_switchStatement (ih : Lower S call 0 c₀) (k : Keyword "switch") (hf : c₀.front? = some k.1)
    (h : At S c₀ false ⟨s, 0⟩ ts es c₀) :
    S.Ends (Round.switchStatement call) c₀ (ReadsStmt S c₀ s ts es) := by
  rw [Round.switchStatement]
  refine (ends_header h hf rfl fun _ => rfl).bind fun _ c₁ h₁ => (ends_condition ih h₁ rfl fun _ => rfl).bind ?_
  rintro _ c₂ ⟨q, h₂⟩
  refine Ends.get ?_
  split
  · refine (ih.block h₂ rfl).bind ?_
    rintro _ c₃ ⟨x, h₃⟩
    exact (h₃.reportHere rfl fun _ => rfl).imp fun _ c₄ h₄ => ⟨.switch k q x, h₄.of_eq (by simp)⟩
  · refine (h₂.unsupported (Q := fun _ _ => False) _ ?_).bind fun _ _ h => h.elim
    cases hf : c₂.front? with
    | none => exact Nat.le_of_eq (by rw [h₂.sound.source]; rfl)
    | some t => exact h₂.sound.start_le hf

theorem ends_deferStatement (ih : Lower S call 3 c₀) (k : Keyword "defer") (hf : c₀.front? = some k.1)
    (h : At S c₀ false ⟨s, 0⟩ ts es c₀) :
    S.Ends (Round.deferStatement call k.1) c₀ (ReadsStmt S c₀ s ts es) := by
  rw [Round.deferStatement]
  refine (ends_header (m := ⟨.deferral false :: s, 0⟩) h hf rfl fun _ => rfl).bind fun _ c₁ h₁ => Ends.get ?_
  split
  · refine (ih.block h₁ rfl).bind ?_
    rintro _ c₂ ⟨x, h₂⟩
    exact (h₂.reportHere rfl fun _ => rfl).imp fun _ c₃ h₃ => ⟨.deferBlock k x, h₃.of_eq (by simp)⟩
  · exact ends_deferredExpression ih k (h.sound.mem hf) h₁

theorem ends_body (ih : Lower S call 5 c₀) (hs : Ledger.blocked s = s) (h : At S c₀ false ⟨s, 0⟩ ts es c₀) :
    S.Ends (Round.body call) c₀
      fun _ => Reads S c₀ ⟨s, 0⟩ ts es Body.tokens (Body.events S.source (lastStop 0 ts)) := by
  rw [Round.body]
  refine Ends.get ?_
  split
  · have hblock := ih.block h rfl
    rw [hs] at hblock
    refine hblock.imp ?_
    rintro _ c₁ ⟨x, h₁⟩
    exact ⟨.braced x, h₁⟩
  · refine (h.reportHere (m := ⟨.implicitScope :: s, 0⟩) rfl fun _ => rfl).bind fun _ c₁ h₁ =>
      (ih.statement rfl h₁ rfl).bind ?_
    rintro _ c₂ ⟨x, h₂⟩
    exact (h₂.reportHere rfl fun _ => rfl).imp fun _ c₃ h₃ => ⟨.single x, h₃.of_eq (by simp)⟩

theorem ends_block (ih : Lower S call 0 c₀) (h : At S c₀ false ⟨s, 0⟩ ts es c₀) : S.Ends (Round.block call) c₀
    fun _ => Reads S c₀ ⟨Ledger.blocked s, 0⟩ ts es Block.tokens (Block.events S.source) := by
  rw [Round.block]
  refine (h.endWith rfl fun _ => rfl).bind ?_
  rintro _ c₁ ⟨o, h₁⟩
  refine (ih.statements h₁).imp ?_
  rintro _ c₂ ⟨k, items, h₂⟩
  exact ⟨.mk o items k, h₂.of_eq (by simp)⟩

theorem ends_statements (ih : Lower S call 5 c₀) (h : At S c₀ false ⟨.scope :: s, 0⟩ ts es c₀) :
    S.Ends (Round.statements call) c₀ fun _ c' => ∃ k : Punct "\x7d", Reads S c₀ ⟨s, 0⟩ ts es
      (fun items : Stmts => items.tokens ++ [k.1])
      (fun items => items.events S.source ++ [mark .scopeEnd k.1.stop]) c' := by
  rw [Round.statements]
  refine Ends.get ?_
  split
  · refine (h.endWith rfl fun _ => rfl).imp ?_
    rintro _ c₁ ⟨k, h₁⟩
    exact ⟨k, .nil, h₁⟩
  · refine (ih.statement rfl h rfl).bind ?_
    rintro _ c₁ ⟨x, h₁⟩
    refine (ih.statements h₁).imp ?_
    rintro _ c₂ ⟨k, items, h₂⟩
    exact ⟨k, .cons x items, h₂.of_eq (by simp)⟩

/-! ## Whole sources -/

theorem ends_functionDefinition (ih : Lower S call 6 c₀) (h : At S c₀ false {} ts es c₀) :
    S.Ends (Round.functionDefinition call) c₀
      fun _ => Reads S c₀ {} ts es FunctionPhrase.tokens (FunctionPhrase.events S.source) := by
  rw [Round.functionDefinition]
  refine (ih.specifiers _ _ h rfl).bind ?_
  rintro _ c₁ ⟨ss, hne, h₁⟩
  refine (ends_namedDeclarator ih h₁ rfl).bind ?_
  rintro _ c₂ ⟨d, h₂⟩
  refine h₂.expectPunct fun o c₃ h₃ _ => (ends_parameterList ih h₃).bind ?_
  rintro _ c₄ ⟨k, ps, h₄⟩
  refine (h₄.endWith (m := ⟨[.function], 0⟩) rfl fun _ => ?_).bind ?_
  · simp [Ledger.step, mark, Ledger.settle, Ledger.add, Ledger.enter]
  rintro _ c₅ ⟨u, h₅⟩
  refine (ih.block h₅ rfl).bind ?_
  rintro _ c₆ ⟨x, h₆⟩
  exact (h₆.reportHere rfl fun _ => rfl).imp fun _ c₇ h₇ => ⟨⟨⟨ss, hne rfl⟩, d, o, ps, u, x⟩, h₇.of_eq (by simp)⟩

theorem ends_skipDeclaration (ih : Lower S call 0 c₀) (name? : Option Token) (h : At S c₀ false l ts es c₀) :
    S.Ends (Round.skipDeclaration call name?) c₀ (PassedOver S c₀ false l ts es c₀ name?) := by
  -- The construct ends with the member `us`, or goes on after it.
  have hlast {us : List Token} {c : Cursor} (h' : At S c₀ true l (ts ++ us) es c) (hm : IsMember us c.rest)
      (hblock : isBlock us = true → c.rest.head?.any continues = false) :
      PassedOver S c₀ false l ts es c₀ name? ((memberName? us).or name?) c := by
    refine ⟨us, h'.weaken, hm.passed hblock, ?_, ?_⟩
    · rw [h.rest_eq h', hm.head?_append]
    · have hself : members us = us :: members [] := by rw [hm.members_self, members_nil]
      rw [lastName?_of_members hself, lastName?_nil, Option.none_or]
  have hmore {us : List Token} {c : Cursor} (h' : At S c₀ true l (ts ++ us) es c) (hm : IsMember us c.rest)
      (hends : mayEnd us = true → isBlock us = true ∧ c.rest.head?.any continues = true) :
      S.Ends (call (.skipDeclaration ((memberName? us).or name?))) c (PassedOver S c₀ false l ts es c₀ name?) := by
    refine (ih.skipDeclaration _ h' rfl).imp ?_
    rintro _ c' ⟨more, h'', hpassed, hhead, rfl⟩
    have hmembers := hm.members_eq ⟨c'.rest, (h'.rest_eq h'').symm⟩
    refine ⟨us ++ more, h''.weaken.of_eq (by simp), hpassed.cons hmembers (hhead ▸ hends), ?_, ?_⟩
    · rw [h.rest_eq h', hm.head?_append, hm.head?_append]
    · rw [lastName?_of_members hmembers, Option.or_assoc]
  rw [Round.skipDeclaration]
  refine Ends.get ?_
  cases hf : c₀.front? with
  | none =>
    have hnil : c₀.rest = [] := head?_eq_none_iff.1 hf
    exact ⟨[], h.of_eq (by simp), passed_nil _, by rw [hnil], by simp⟩
  | some t =>
    dsimp only
    split
    case isTrue hsemicolon =>
      have ho : opensGroup t = false := by simp [opensGroup, isPunct_of_ne hsemicolon]
      refine h.advance hf fun c₁ h₁ _ => ?_
      have hend := hlast h₁ (isMember_single ho _) fun hb => ?_
      · rwa [memberName?_of_isPunct hsemicolon, Option.none_or] at hend
      · simp [isBlock, isPunct_of_ne hsemicolon] at hb
    case isFalse hsemicolon =>
      split
      case isTrue ho =>
        obtain ⟨p, hp⟩ : ∃ p, t.isPunct p = true := by
          simp only [Bool.or_eq_true] at ho
          rcases ho with (h | h) | h
          all_goals exact ⟨_, h⟩
        have hgroup {us : List Token} {c : Cursor} (h' : At S c₀ true l (ts ++ t :: us) es c)
            (hm : IsMember (t :: us) c.rest) :
            S.Ends (if (t.isPunct "\x7b" && !c.front?.any continues) = true then pure name?
              else call (.skipDeclaration name?)) c (PassedOver S c₀ false l ts es c₀ name?) := by
          have hname : (memberName? (t :: us)).or name? = name? := by rw [memberName?_of_isPunct hp, Option.none_or]
          split
          case isTrue hclosed =>
            simp only [Bool.and_eq_true, Bool.not_eq_true'] at hclosed
            have hend := hlast h' hm fun _ => hclosed.2
            rwa [hname] at hend
          case isFalse hclosed =>
            have hgo := hmore h' hm fun he => ?_
            · rwa [hname] at hgo
            · have hblock : t.isPunct "\x7b" = true := by simpa [mayEnd, hsemicolon] using he
              exact ⟨hblock, by simpa [hblock, Cursor.front?] using hclosed⟩
        cases hc : Token.close? c₀.rest with
        | none =>
          obtain ⟨us, hr⟩ := front?_eq_some.1 hf
          have hall := moves_advanceWhile (c := c₀) fun _ => true
          have htake : c₀.rest.takeWhile (fun _ => true) = t :: us := by simp [hr]
          rw [htake] at hall
          have hnil : (c₀.advanceWhile fun _ => true).rest = [] := hall.rest_eq (by simpa using hr)
          rw [hr] at hc
          exact Ends.set (hgroup (h.pass hall (cons_ne_nil t us)) (hnil ▸ isMember_unclosed ho hc))
        | some found =>
          obtain ⟨close, rest⟩ := found
          obtain ⟨grp, hopening, rfl, h₁, -⟩ := h.close (h.since hf) hc
          obtain rfl : t = grp.opening := Option.some.inj (hf.symm.trans hopening)
          refine Ends.set (hgroup h₁ (isMember_group ho ?_))
          rw [← h.rest_eq h₁]
          exact hc
      case isFalse ho =>
        refine h.advance hf fun c₁ h₁ _ => ?_
        have hgo := hmore h₁ (isMember_single (Bool.eq_false_iff.2 ho) _) fun he => ?_
        · have hname : (memberName? [t]).or name? = if t.isIdentifier then some t else name? := by
            cases hi : t.isIdentifier <;> simp [memberName?, Option.filter, hi]
          rwa [hname] at hgo
        · simp only [mayEnd, head?_cons, Option.any_some, hsemicolon, Bool.false_or] at he
          simp [he] at ho

theorem ends_otherDeclaration (ih : Lower S call 6 c₀) (h : At S c₀ false {} ts es c₀) (hne : c₀.rest ≠ []) :
    S.Ends (Round.otherDeclaration call) c₀ fun _ c' => ∃ us, c'.Sound S {} (ts ++ us) es ∧ c₀.Comes c' true ∧
      Passed us c'.rest ∧ c'.typeNames = (Item.other us).declared ++ c₀.typeNames := by
  rw [Round.otherDeclaration]
  refine Ends.get ((ih.skipDeclaration none h rfl).bind ?_)
  rintro _ c₁ ⟨us, h₁, hpassed, hhead, rfl⟩
  have hus : us ≠ [] := by
    rintro rfl
    exact hne (head?_eq_none_iff.1 hhead)
  have hcomes : c₀.Comes c₁ true := ⟨us, h.rest_eq h₁, length_pos_iff.2 hus⟩
  have hword : c₀.atWord "typedef" = us.head?.any (·.isWord "typedef") := by rw [Cursor.atWord, Cursor.front?, hhead]
  rw [Option.or_none]
  split
  case isTrue htypedef =>
    cases hname : lastName? us with
    | none => exact ⟨us, h₁.sound, hcomes, hpassed, by simp [Item.declared, ← hword, hname, h₁.types]⟩
    | some name =>
      exact ⟨us, h₁.sound.congr rfl rfl rfl rfl, hcomes, hpassed,
        by simp [Item.declared, ← hword, htypedef, hname, h₁.types]⟩
  case isFalse htypedef =>
    exact ⟨us, h₁.sound, hcomes, hpassed, by simp [Item.declared, ← hword, htypedef, h₁.types]⟩

theorem ends_unit (ih : Lower S call 6 c₀) (h : c₀.Sound S {} ts es) :
    S.Ends (Round.unit call) c₀ fun _ c' => ∃ items : List Item, S.tokens = ts ++ tokensOf items ∧
      Outline c₀.typeNames items ∧ c'.Kept S {} S.tokens (es ++ unitEvents S.source items) := by
  have hrest {us : List Token} {items : List Item} (htokens : S.tokens = ts ++ us ++ tokensOf items) :
      c₀.rest = us ++ tokensOf items := by
    have heq := h.tokens.symm.trans htokens
    rwa [append_assoc, append_cancel_left_eq] at heq
  rw [Round.unit]
  refine Ends.get ?_
  split
  case isTrue hr =>
    have htokens : S.tokens = ts := by simpa [isEmpty_iff.1 hr] using h.tokens
    refine ⟨[], htokens.trans (append_nil ts).symm, .nil, ?_⟩
    rw [htokens, ← h.source]
    refine h.toKept.push rfl ⟨fun e he => ?_, Nat.le_of_eq (by rw [h.source]), fun _ => .inr rfl,
      fun h => absurd h Bool.false_ne_true⟩
    exact (h.past e he).trans (h.source ▸ h.lastEnd_le)
  case isFalse hne =>
    split
    case isTrue hd =>
      refine (ends_functionDefinition ih (.here h)).bind ?_
      rintro _ c₁ ⟨f, h₁⟩
      refine (ih.unit h₁.sound h₁.comes).imp ?_
      rintro _ c₂ ⟨items, htokens, ho, hkept⟩
      rw [atFunctionDefinition_eq, hrest htokens] at hd
      rw [h₁.types] at ho
      refine ⟨.function f :: items, htokens.trans (append_assoc ..), .function hd ho, ?_⟩
      rw [append_assoc] at hkept
      simpa [unitEvents, Item.events] using hkept
    case isFalse hd =>
      refine (ends_otherDeclaration ih (.here h) (by simpa using hne)).bind ?_
      rintro _ c₁ ⟨us, h₁, hcomes, hpassed, htypes⟩
      refine (ih.unit h₁ hcomes).imp ?_
      rintro _ c₂ ⟨items, htokens, ho, hkept⟩
      have hlater : c₁.rest = tokensOf items := append_cancel_left (h₁.tokens.symm.trans htokens)
      rw [atFunctionDefinition_eq, hrest htokens] at hd
      rw [htypes] at ho
      exact ⟨.other us :: items, htokens.trans (append_assoc ..), .other (Bool.eq_false_iff.2 hd) (hlater ▸ hpassed) ho,
        hkept⟩

/-! ## The recursion -/

namespace Job

/-- Before it has passed a token, a job calls jobs of lower rank only. -/
def rank : Job → Nat
  | unary | parameters | declarators => 1
  | expression _ => 2
  | arguments _ | initializer | deferStatement _ => 3
  | initializers _ | statement => 4
  | body | statements => 5
  | unit => 6
  | _ => 0

/-- `j'` at `c'` starts further on in the source than `j` at `c`, or has a lower rank. -/
def Below (j' : Job) (c' : Cursor) (j : Job) (c : Cursor) : Prop :=
  c'.rest <:+ c.rest ∧ (c'.rest.length < c.rest.length ∨ j'.rank < j.rank)

instance (j' : Job) (c' : Cursor) (j : Job) (c : Cursor) : Decidable (j'.Below c' j c) :=
  inferInstanceAs (Decidable (_ ∧ _))

variable {j j' : Job} {c' : Cursor}

theorem Below.lex (h : j'.Below c' j c) :
    Prod.Lex (· < ·) (· < ·) (c'.rest.length, j'.rank) (c.rest.length, j.rank) := by
  obtain ⟨hsuffix, hlt⟩ := h
  rcases Nat.lt_or_eq_of_le hsuffix.length_le with hl | hl
  · exact .left _ _ hl
  · rw [hl]
    exact .right _ (hlt.resolve_left (Nat.ne_of_lt · hl))

/-- Does a job without counting steps, but gives up at a call that is not below. -/
def recognize (j : Job) (c : Cursor) : EStateM.Result Stop Cursor j.Gives :=
  j.round (fun j' c' => if j'.Below c' j c then recognize j' c' else .error .outOfSteps c') c
termination_by (c.rest.length, j.rank)
decreasing_by exact Below.lex ‹_›

/-- What `j` at `c` may call. -/
def guarded (j : Job) (c : Cursor) : Calls :=
  fun j' c' => if j'.Below c' j c then j'.recognize c' else .error .outOfSteps c'

theorem recognize_eq (j : Job) (c : Cursor) : j.recognize c = j.round (j.guarded c) c := by
  rw [recognize]
  rfl

end Job

section

variable {j j' : Job} {c' : Cursor} {ts' : List Token} {es' : List Event}

theorem Cursor.Comes.below (h : c₀.Comes c b) (hr : (b || Nat.blt j'.rank j.rank) = true) : j'.Below c j c₀ := by
  obtain ⟨us, hrest, -⟩ := id h
  refine ⟨⟨us, hrest.symm⟩, ?_⟩
  cases b with
  | true => exact .inl h.length_lt
  | false => exact .inr (Nat.le_of_ble_eq_true hr)

theorem At.after (h : At S c₀ b l ts es c) (h' : At S c true m ts' es' c') : At S c₀ true m ts' es' c' :=
  Bool.or_true b ▸ h.trans h'

theorem At.along (h : At S c₀ b l ts es c) (h' : At S c false m ts' es' c') : At S c₀ b m ts' es' c' :=
  Bool.or_false b ▸ h.trans h'

theorem At.finds {g : Bool} (h : At S c₀ b l ts es c) (h' : Finds S c true m ts' es' g c' e) :
    Finds S c₀ true m ts' es' g c' e := ⟨h.after h'.stands, h'.front, h'.noted⟩

theorem Finds.here {g : Bool} (h : Finds S c₀ b l ts es g c e) : Finds S c false l ts es g c e :=
  ⟨.here h.stands.sound, h.front, h.noted⟩

theorem Finds.along {g : Bool} {x : Expr} (h : Finds S c₀ b l ts es g c x) (h' : Finds S c false l ts es g c' e) :
    Finds S c₀ b l ts es g c' e := ⟨h.stands.along h'.stands, h'.front, h'.noted⟩

/-- Calls keep their contracts if each does what a round of its job does, wherever that is below. -/
theorem lower_of_makes (j : Job) (c₀ : Cursor) (call : Calls)
    (makes : ∀ {b c} (j' : Job) {Q : j'.Gives → Cursor → Prop}, c₀.Comes c b → (b || Nat.blt j'.rank j.rank) = true →
      (∀ call', Lower S call' j'.rank c → S.Ends (j'.round call') c Q) → S.Ends (call j') c Q) :
    Lower S call j.rank c₀ where
  expression _ h hr := (makes (.expression _) h.comes hr fun _ ih => ends_expression ih _ (.here h.sound)).imp
    fun _ _ => Exists.imp fun _ => h.finds
  operators _ h := (makes (.operators _) h.stands.comes rfl fun _ ih => ends_operators ih _ h.here).imp
    fun _ _ => Exists.imp fun _ => h.along
  unary h hr := (makes .unary h.comes hr fun _ ih => ends_unary ih (.here h.sound)).imp
    fun _ _ => Exists.imp fun _ => h.finds
  primary h hr := (makes .primary h.comes hr fun _ ih => ends_primary ih (.here h.sound)).imp
    fun _ _ => Exists.imp fun _ => h.finds
  postfixes h := (makes .postfixes h.stands.comes rfl fun _ ih => ends_postfixes ih h.here).imp
    fun _ _ => Exists.imp fun _ => h.along
  arguments _ h := (makes (.arguments _) h.comes rfl fun _ ih => ends_arguments ih (.here h.sound)).imp
    fun _ _ => Exists.imp fun _ => And.imp_left h.after
  specifiers _ any h hr :=
    (makes (.specifiers _ _) h.comes hr fun _ ih => ends_specifiers ih _ any (.here h.sound)).imp
      fun _ _ => Exists.imp fun _ => And.imp_right fun h' => Bool.or_comm _ _ ▸ h.trans h'
  marks h hr := (makes .marks h.comes hr fun _ ih => ends_marks ih (.here h.sound)).imp
    fun _ _ => Exists.imp fun _ => h.along
  arraySuffixes h := (makes .arraySuffixes h.comes rfl fun _ ih => ends_arraySuffixes ih (.here h.sound)).imp
    fun _ _ => Exists.imp fun _ => h.along
  parameters h := (makes .parameters h.comes rfl fun _ ih => ends_parameters ih (.here h.sound)).imp
    fun _ _ => Exists.imp fun _ => Exists.imp fun _ => h.after
  initializer h hr := (makes .initializer h.comes hr fun _ ih => ends_initializer ih (.here h.sound)).imp
    fun _ _ => Exists.imp fun _ => h.after
  initializers _ h := (makes (.initializers _) h.comes rfl fun _ ih => ends_initializers ih (.here h.sound)).imp
    fun _ _ => Exists.imp fun _ => And.imp_left h.along
  declarators h := (makes .declarators h.comes rfl fun _ ih => ends_declarators ih (.here h.sound)).imp
    fun _ _ => Exists.imp fun _ => Exists.imp fun _ => h.after
  statement hs h hr := (makes .statement h.comes hr fun _ ih => ends_statement ih hs (.here h.sound)).imp
    fun _ _ => Exists.imp fun _ => h.after
  ifStatement k h hf hr := (makes .ifStatement h.comes hr fun _ ih => ends_ifStatement ih k hf (.here h.sound)).imp
    fun _ _ => Exists.imp fun _ => h.after
  doStatement k h hf hr := (makes .doStatement h.comes hr fun _ ih => ends_doStatement ih k hf (.here h.sound)).imp
    fun _ _ => Exists.imp fun _ => h.after
  switchStatement k h hf hr :=
    (makes .switchStatement h.comes hr fun _ ih => ends_switchStatement ih k hf (.here h.sound)).imp
      fun _ _ => Exists.imp fun _ => h.after
  deferStatement k h hf hr :=
    (makes (.deferStatement _) h.comes hr fun _ ih => ends_deferStatement ih k hf (.here h.sound)).imp
      fun _ _ => Exists.imp fun _ => h.after
  body hs h := (makes .body h.comes rfl fun _ ih => ends_body ih hs (.here h.sound)).imp
    fun _ _ => Exists.imp fun _ => h.after
  block h hr := (makes .block h.comes hr fun _ ih => ends_block ih (.here h.sound)).imp
    fun _ _ => Exists.imp fun _ => h.after
  statements h := (makes .statements h.comes rfl fun _ ih => ends_statements ih (.here h.sound)).imp
    fun _ _ => Exists.imp fun _ => Exists.imp fun _ => h.after
  skipDeclaration _ h hr :=
    (makes (.skipDeclaration _) h.comes hr fun _ ih => ends_skipDeclaration ih _ (.here h.sound)).imp
      fun _ _ => Exists.imp fun _ => And.imp_left h.along
  unit h hc := makes .unit hc rfl fun _ ih => ends_unit ih h

/-- All calls keep their contracts. The induction is on what is below. -/
theorem lower_guarded (j : Job) (c₀ : Cursor) : Lower S (j.guarded c₀) j.rank c₀ := by
  refine lower_of_makes j c₀ _ fun {_ c} j' _ h hr hends => ?_
  have hbelow := h.below hr
  rw [Ends, Job.guarded, if_pos hbelow, Job.recognize_eq]
  exact hends _ (lower_guarded j' c)
termination_by (c₀.rest.length, j.rank)
decreasing_by exact hbelow.lex

end

/-! ## Enough steps -/

/-- `y` does what `x` does, unless `x` gives up. -/
def Recognizer.Within {α : Type} (x y : Recognizer α) : Prop := ∀ c, x c = y c ∨ ∃ c', x c = .error .outOfSteps c'

namespace Recognizer.Within

variable {α β : Type} {x x' y y' : Recognizer α} {f g : α → Recognizer β}

theorem refl (x : Recognizer α) : x.Within x := fun _ => .inl rfl

theorem bind (h : x.Within y) (hf : ∀ a, (f a).Within (g a)) : (x >>= f).Within (y >>= g) := by
  intro c
  rcases h c with h | ⟨c', h⟩
  · simp only [Bind.bind, EStateM.bind, h]
    cases y c with
    | ok a c' => exact hf a c'
    | error stop c' => exact .inl rfl
  · exact .inr ⟨c', by simp only [Bind.bind, EStateM.bind, h]⟩

theorem ite {p : Prop} [Decidable p] (h : x.Within y) (h' : x'.Within y') :
    (if p then x else x').Within (if p then y else y') := by
  split
  · exact h
  · exact h'

end Recognizer.Within

open Recognizer in
/-- A round whose calls go on where the other's give up goes on where the other gives up. -/
theorem within_round {call' : Calls} (hcall : ∀ j, (call j).Within (call' j)) (j : Job) :
    (j.round call).Within (j.round call') := by
  cases j <;> simp only [Job.round, Round.expression, Round.operators, Round.unary, Round.primary, Round.postfixes,
    Round.arguments, Round.specifiers, Round.marks, Round.arraySuffixes, Round.parameters, Round.initializer,
    Round.initializers, Round.declarators, Round.statement, Round.ifStatement, Round.doStatement, Round.switchStatement,
    Round.deferStatement, Round.body, Round.block, Round.statements, Round.skipDeclaration,
      Round.unit, Round.declarator,
    Round.parameterList, Round.declaration, Round.condition, Round.expressionUnless, Round.expressionStatement,
    Round.declarationStatement, Round.returnStatement, Round.forParts, Round.deferredExpression,
      Round.functionDefinition,
    Round.otherDeclaration]
  all_goals repeat' first
    | exact hcall _
    | exact .refl _
    | apply Within.ite
    | refine .bind ?_ fun _ => ?_
    | split

theorem Job.rank_le (j : Job) : j.rank ≤ 6 := by cases j <;> simp [rank]

theorem within_run (n : Nat) (j : Job) (c : Cursor) (hn : 8 * c.rest.length + j.rank < n) :
    j.recognize c = Job.run n j c ∨ ∃ c', j.recognize c = .error .outOfSteps c' := by
  induction n generalizing j c with
  | zero => exact absurd hn (Nat.not_lt_zero _)
  | succ n ih =>
    rw [Job.recognize_eq, Job.run]
    refine within_round (fun j' c' => ?_) j c
    rw [Job.guarded]
    split
    case isTrue h =>
      have hlt : 8 * c'.rest.length + j'.rank < 8 * c.rest.length + j.rank := by
        have hle := h.1.length_le
        have hrank := j'.rank_le
        have hlt := h.2
        omega
      exact ih j' c' (hlt.trans_le (Nat.le_of_lt_succ hn))
    case isFalse => exact .inr ⟨c', rfl⟩

/-! ## The outcome -/

/-- Before the first token. -/
def Tokenized.start (S : Tokenized) : Cursor := { source := S.source, rest := S.tokens }

theorem sound_start : S.start.Sound S {} [] [] where
  source := rfl
  tokens := rfl
  lastEnd := rfl
  events := rfl
  ledger := rfl
  told := .nil
  past _ he := by cases he

theorem ends_recognize_unit : S.Ends (Job.recognize .unit) S.start fun _ c => ∃ items : List Item,
    S.tokens = tokensOf items ∧ Outline Token.libraryTypes items ∧
    c.Kept S {} S.tokens (unitEvents S.source items) := by
  unfold Ends
  rw [Job.recognize_eq]
  exact ends_unit (lower_guarded .unit _) sound_start

/-- More steps change nothing. -/
theorem run_unit_eq {n : Nat} (hn : stepBound S.tokens.length ≤ n) :
    Job.run n .unit S.start = Job.recognize .unit S.start := by
  have hlt : 8 * S.start.rest.length + Job.unit.rank < n := (Nat.add_lt_add_left (by decide) _).trans_le hn
  rcases within_run n .unit S.start hlt with h | ⟨c, h⟩
  · exact h.symm
  · have hends := ends_recognize_unit (S := S)
    unfold Ends at hends
    rw [h] at hends
    obtain ⟨⟨e, he, -⟩, -⟩ := hends
    cases he

theorem trace_eq (S : Tokenized) : trace S.source = match Job.recognize .unit S.start with
    | .ok _ c => ⟨c.events, none⟩
    | .error stop c => ⟨c.events, some stop⟩ := by
  rw [← run_unit_eq le_rfl, trace, S.scanned]
  rfl

/-- The events of a source are kept in order, up to where it is turned down. -/
theorem exists_kept_of_trace (S : Tokenized) : ∃ (c : Cursor) (l : Ledger) (ts : List Token),
    c.Kept S l ts (trace S.source).events.toList ∧ ((trace S.source).stop? = none → l = {}) ∧
    ∀ stop, (trace S.source).stop? = some stop → ∃ e, stop = .rejected e ∧ e.offset ≤ S.source.length := by
  have hends := ends_recognize_unit (S := S)
  unfold Ends at hends
  rw [trace_eq]
  cases hrun : Job.recognize .unit S.start with
  | ok _ c =>
    rw [hrun] at hends
    obtain ⟨items, -, -, hkept⟩ := hends
    exact ⟨c, {}, S.tokens, hkept.events ▸ hkept, fun _ => rfl, fun _ h => absurd h.symm (Option.some_ne_none _)⟩
  | error stop c =>
    rw [hrun] at hends
    obtain ⟨hstop, l, ts, es, hkept⟩ := hends
    exact ⟨c, l, ts, hkept.events ▸ hkept, fun h => absurd h (Option.some_ne_none _),
      fun _ h => Option.some.inj h ▸ hstop⟩

theorem trace_of_scan_error {e : Token.ScanError} (h : Token.scan source = .error e) :
    trace source = ⟨#[], some (.rejected (.scan e))⟩ := by
  rw [trace, h]

/-- Recognition stops only where it turns the source down, which is at a place in it. -/
theorem rejected_of_trace {stop : Stop} (h : (trace source).stop? = some stop) :
    ∃ e, stop = .rejected e ∧ e.offset ≤ source.length := by
  cases hscan : Token.scan source with
  | error e =>
    rw [trace_of_scan_error hscan] at h
    exact ⟨.scan e, (Option.some.inj h).symm, (Token.exists_cut_of_scan_error hscan).1.le⟩
  | ok tokens =>
    obtain ⟨c, l, ts, -, -, hstop⟩ := exists_kept_of_trace ⟨source, tokens, hscan⟩
    exact hstop stop h

/-- The events of a source are in order, if there are any. -/
theorem told_of_trace (source : List UInt8) : (trace source).events.toList = [] ∨
    ∃ S : Tokenized, S.source = source ∧ Told S (trace source).events.toList := by
  cases hscan : Token.scan source with
  | error e =>
    rw [trace_of_scan_error hscan]
    exact .inl rfl
  | ok tokens =>
    obtain ⟨c, l, ts, hkept, -⟩ := exists_kept_of_trace ⟨source, tokens, hscan⟩
    exact .inr ⟨_, rfl, hkept.told⟩

theorem exists_fair_of_trace {e : Event} (he : e ∈ (trace source).events.toList) :
    ∃ (S : Tokenized) (es : List Event), S.source = source ∧ Fair S es e := by
  rcases told_of_trace source with hnil | ⟨S, hS, htold⟩
  · rw [hnil] at he
    cases he
  · obtain ⟨es, es', hes⟩ := append_of_mem he
    exact ⟨S, es, hS, htold.fair hes⟩

/-- Each event of a source is legible, or spelled as its token is. -/
theorem spelled_of_trace (hn : source.length < UInt64.size) :
    ∀ e ∈ (trace source).events.toList, Spelled e := by
  intro e he
  obtain ⟨S, es, rfl, hfair⟩ := exists_fair_of_trace he
  exact hfair.spelled hn

/-- The ledger follows the events of a source, and is empty at the end of one that is accepted. -/
theorem exists_run_of_trace (source : List UInt8) :
    ∃ l, Ledger.run {} (trace source).events.toList = some l ∧ ((trace source).stop? = none → l = {}) := by
  cases hscan : Token.scan source with
  | error e =>
    rw [trace_of_scan_error hscan]
    exact ⟨{}, rfl, fun _ => rfl⟩
  | ok tokens =>
    obtain ⟨c, l, ts, hkept, hl, -⟩ := exists_kept_of_trace ⟨source, tokens, hscan⟩
    exact ⟨l, hkept.ledger, hl⟩

/-- A source that is recognized to its end has an outline, and its events are those of its constructs. -/
theorem exists_outline_of_trace (h : (trace source).stop? = none) :
    ∃ (tokens : List Token) (items : List Item), Token.scan source = .ok tokens ∧
      tokens = items.flatMap Item.tokens ∧ (trace source).events.toList = unitEvents source items ∧
        Outline Token.libraryTypes items := by
  cases hscan : Token.scan source with
  | error e =>
    rw [trace_of_scan_error hscan] at h
    cases h
  | ok tokens =>
    have htrace := trace_eq ⟨source, tokens, hscan⟩
    have hends := ends_recognize_unit (S := ⟨source, tokens, hscan⟩)
    unfold Ends at hends
    cases hrun : Job.recognize .unit (Tokenized.start ⟨source, tokens, hscan⟩) with
    | error stop c =>
      rw [hrun] at htrace
      exact absurd (htrace ▸ h) (Option.some_ne_none _)
    | ok _ c =>
      rw [hrun] at hends htrace
      obtain ⟨items, htokens, ho, hkept⟩ := hends
      exact ⟨tokens, items, rfl, htokens, htrace ▸ hkept.events, ho⟩

/-- A source that is recognized to its end consists of items, and its events are theirs. -/
theorem exists_items_of_trace (h : (trace source).stop? = none) :
    ∃ (tokens : List Token) (items : List Item), Token.scan source = .ok tokens ∧
      tokens = items.flatMap Item.tokens ∧ (trace source).events.toList = unitEvents source items := by
  obtain ⟨tokens, items, hs, ht, he, -⟩ := exists_outline_of_trace h
  exact ⟨tokens, items, hs, ht, he⟩

end Deferral.Grammar
