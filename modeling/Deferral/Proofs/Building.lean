import Deferral.Proofs.Progress
import Deferral.Proofs.Reading.TopLevel

/-!
# Building a tree

Each statement that is read leaves one tree of the right shape on the stage, whose text starts where the statement
before it ended. Labels are scopes that the next label or the end of the block closes; `Run` is a list of statements
whose last label may still be open.
-/

namespace Deferral

variable {path : Path} {q : Nat}

namespace Assembly

open Forest Grammar Term

variable {a b b' c n : Assembly} {lo hi p : Nat} {f g h k m d : Forest Entry} {x y : Entry} {e : Event}
  {source : List UInt8} {tokens : List Token}

/-! ## Statements without statements inside -/

/-- A deferred statement that waits for the operation just read can be completed. -/
theorem Standing.completable (A : Standing a) (hw : b.waitingDefers = ⟨⟨a.tree.size⟩, a.height⟩ :: a.waitingDefers)
    (hs : b.scopes = a.scopes) : b.completable = true := by
  obtain ⟨frame, frames, ha, hle⟩ := A.based
  simp [Assembly.completable, hw, hs, ha, hle]

theorem Standing.deferExpression (A : Standing a) {k : Keyword "defer"} {s : Punct ";"} {y : Bare}
    (ho : Ordered a.lastEnd (k.1 :: (y.1.tokens ++ [s.1])))
    (hocc : Occurs tokens a.lastEnd (k.1 :: (y.1.tokens ++ [s.1]))) :
    Reaches a (mark .deferHeader k.1.stop :: (y.1.events source ++ [mark .deferred s.1.stop])) fun b =>
      StagesOne tokens a b s.1.stop := by
  simp only [ordered_cons, ordered_append, Expr.lastStop_tokens] at ho
  obtain ⟨hk, hk', hy, hs, hs', -⟩ := ho
  obtain ⟨n, h₁, hend, H⟩ := A.onDeferHeader (mark .deferHeader k.1.stop)
  replace hend : n.lastEnd = k.1.stop := hend
  have hle := Expr.le_stop hy
  refine .cons rfl h₁ (((H.ready A.toReady.deferring).expression hend.le hy).append ?_)
  rintro b ⟨f, K, hhull, htop⟩
  have hwaiting := K.keeps.waitingDefers.trans H.keeps.waitingDefers
  refine .one (fun _ => A.completable hwaiting (K.keeps.scopes.trans H.keeps.scopes)) ?_
  obtain ⟨t, l, x, d, h₂, K₂, hhull', -⟩ := (K.resuming H).popSingle (e := mark .deferred s.1.stop) htop
  have hw : (Forest.tree x d ++ .nil).Within n.lastEnd y.1.stop := K₂.within
  obtain ⟨hx, hd⟩ : Operand x ∧ Operands d := by simpa using K₂.operands
  have hcore : x.node.span = y.1.core := by simpa [hhull] using hhull'
  change ∃ b', onDeferred _ b = _ ∧ _
  rw [onDeferred_eq (K.keeps.modes.trans H.keeps.modes) hwaiting h₂]
  exact (H.undefer.append K₂.stacked).finishDefer rfl (show a.lastEnd < s.1.stop by omega)
    ⟨k.1, hocc.subset List.mem_cons_self, k.2, hk, show k.1.stop ≤ s.1.stop by omega⟩
    (hw.mono (by omega) (show y.1.stop ≤ s.1.stop by omega)) (shaped_of_operands (by simpa using K₂.operands))
    (.inl ⟨hx.tag, y, ⟨k, s, hocc, rfl⟩, hcore⟩)

theorem Standing.simple (A : Standing a) {s : Simple} (ho : Ordered a.lastEnd s.tokens)
    (hocc : Occurs tokens a.lastEnd s.tokens) :
    Reaches a (s.events source) fun b => StagesOne tokens a b s.stop := by
  cases s with
  | expression y semicolon =>
    simp only [Simple.tokens, ordered_append, ordered_cons, Expr.lastStop_tokens] at ho
    obtain ⟨hy, hs, hs', -⟩ := ho
    refine (A.toReady.expression le_rfl hy).append ?_
    rintro b ⟨f, H, -, htop⟩
    exact .step rfl (H.onStatementEnd A.fragments (hs.trans_lt hs').le
      (Nat.zero_lt_of_lt hs') htop)
  | declaration y semicolon =>
    simp only [Simple.tokens, ordered_append, ordered_cons] at ho
    obtain ⟨hy, hs, hs', -⟩ := ho
    refine (A.toReady.declaration hy).append ?_
    rintro b ⟨f, xs, H, htop⟩
    exact .step rfl (H.onStatementEnd A.fragments (hs.trans_lt hs').le
      (Nat.zero_lt_of_lt hs') htop)
  | empty semicolon => exact .step rfl (A.onEmptyStatement (ho.1.trans_lt ho.2.1))
  | returned keyword value? semicolon =>
    cases value? with
    | none =>
      obtain ⟨hk, hk', hs, hs', -⟩ := ho
      exact .step rfl ((A.holding _).onReturn (show a.lastEnd ≤ semicolon.1.stop by omega)
        (show a.lastEnd < semicolon.1.stop by omega) (fun _ h => by cases h) (fun h => absurd rfl h))
    | some y =>
      simp only [Simple.tokens, optionTokens, Option.map_some, Option.getD_some, ordered_append, ordered_cons,
        Expr.lastStop_tokens] at ho
      obtain ⟨hk, hk', hy, hs, hs', -⟩ := ho
      have hle := Expr.le_stop hy
      refine (A.toReady.expression (show a.lastEnd ≤ keyword.1.stop by omega) hy).append ?_
      rintro b ⟨f, H, hhull, htop⟩
      refine .step rfl (H.onReturn (show y.stop ≤ semicolon.1.stop by omega)
        (show a.lastEnd < semicolon.1.stop by omega)
        (fun span hspan => ?_) fun _ => htop)
      rw [hhull, Option.mem_some_iff] at hspan
      exact ⟨y, ⟨keyword, semicolon, hocc, rfl⟩, hspan.symm⟩
  | jump keyword semicolon =>
    obtain ⟨hk, hk', hs, hs', -⟩ := ho
    obtain ⟨j, hj⟩ := Option.isSome_iff_exists.1 (isSome_jump? keyword)
    exact .step rfl (A.onJump (show a.lastEnd < semicolon.1.stop by omega) hj)
  | deferred keyword y semicolon => exact A.deferExpression ho hocc

/-! ## Labels -/

/-- Statements and labels since `a`, then an open label with the statements after it. -/
def Labelled (tokens : List Token) (a b : Assembly) : Prop :=
  ∃ m g n s text k, Stages tokens a m g ∧ Sequence g.roots ∧ g.Marked true ∧ m.lastEnd < n.lastEnd ∧
    Stacks (m.enter s) n .nil (Forest.tree (.fresh s (.caseLabel text false) ⟨m.lastEnd, m.lastEnd⟩) .nil) ∧
    Stages tokens n b k ∧ Statements k

/-- A list of statements since `a`. -/
def Run (tokens : List Token) (a b : Assembly) : Prop :=
  (∃ f, Stages tokens a b f ∧ Statements f) ∨ Labelled tokens a b

/-- The innermost open scope is no label, and stays it. -/
def Unlabelled (a : Assembly) : Prop := ∀ b, Keeps a b → topTag? b ≠ some .caseLabel

theorem Stacks.inner {s : Slot} {c : Construct} {span : Span}
    (S : Stacks (a.enter s) n .nil (Forest.tree (.fresh s c span) h)) (K : Stacks n b f .nil) :
    Stacks (a.enter s) b f (Forest.tree (.fresh s c span) h) := by
  simpa using S.append K

theorem Run.standing (R : Run tokens a b) (A : Standing a) : Standing b := by
  obtain ⟨f, H, -⟩ | ⟨m, g, n, s, c, k, H, -, -, -, S, K, -⟩ := R
  · exact A.of_stacks H.stacked
  · exact (((A.of_stacks H.stacked).enter s).of_stacks S).of_stacks K.stacked

theorem Run.start (ha : Ready a) : Run tokens a a := .inl ⟨.nil, ha.stages, by simp [Statements]⟩

theorem Run.append (R : Run tokens a b) (K : Stages tokens b b' f) (hf : Statements f) : Run tokens a b' := by
  obtain ⟨g, H, hg⟩ | ⟨m, g, n, s, c, k, H, hg, hc, hlt, S, K', hk⟩ := R
  · exact .inl ⟨g ++ f, H.append K, statements_append.2 ⟨hg, hf⟩⟩
  · exact .inr ⟨m, g, n, s, c, k ++ f, H, hg, hc, hlt, S, K'.append K, statements_append.2 ⟨hk, hf⟩⟩

theorem Labelled.topTag (R : Labelled tokens a b) : topTag? b = some .caseLabel := by
  obtain ⟨m, g, n, s, text, k, -, -, -, -, S, K, -⟩ := R
  exact S.topTag K.stacked.keeps

/-- The open label is closed with the statements after it. -/
theorem Labelled.closeLabel (R : Labelled tokens a b) (A : Standing a) (e : Event) :
    ∃ m g s text k b', Assembly.closeLabel e b = .ok s b' ∧ b'.lastEnd = b.lastEnd ∧ Stages tokens a m g ∧
      Sequence g.roots ∧ g.Marked true ∧
      Stages tokens m b' (Forest.tree (.fresh s (.caseLabel text false) ⟨m.lastEnd, b.lastEnd⟩) k) := by
  obtain ⟨m, g, n, s, text, k, H, hg, hm, hlt, S, K, hk⟩ := R
  have hw := K.listed.within
  have hle := hw.le
  obtain ⟨b₁, h₁, hend, L⟩ := (S.inner K.stacked).closeScope_stages (A.of_stacks H.stacked) e (by omega)
    (hw.mono hlt.le le_rfl) (K.listed.items hk.sequence) hk.marked K.listed.shaped
  refine ⟨m, g, s, text, k, { b₁ with staged := s :: b₁.staged, statementBase := _ }, ?_, hend, H, hg, hm, L⟩
  rw [Assembly.closeLabel, get_bind, bind_eq h₁]
  rfl

theorem Run.closeOpenLabel (R : Run tokens a b) (A : Standing a) (ht : Unlabelled a) (e : Event) :
    ∃ b', Assembly.closeOpenLabel e b = .ok () b' ∧ b'.lastEnd = b.lastEnd ∧
      ∃ f, Stages tokens a b' f ∧ Sequence f.roots ∧ f.Marked false := by
  rw [Assembly.closeOpenLabel, get_bind]
  obtain ⟨f, H, hf⟩ | R := R
  · rw [if_neg (ht b H.stacked.keeps)]
    exact ⟨b, rfl, rfl, f, H, hf.sequence, hf.marked⟩
  · rw [if_pos R.topTag]
    obtain ⟨m, g, s, text, k, b₁, h₁, hend, H, hg, hm, L⟩ := R.closeLabel A e
    exact ⟨b₁, bind_ok.2 ⟨_, _, h₁, rfl⟩, hend, _, H.append L, roots_append .. ▸ hg.label rfl, hm.label rfl⟩

theorem Stages.setLabel {s : Slot} {text : String} {falls falls' : Bool} {span : Span}
    (H : Stages tokens a b (Forest.tree (.fresh s (.caseLabel text falls) span) f)) :
    Stages tokens a { b with tree := b.tree.setConstruct s (.caseLabel text falls') }
      (Forest.tree (.fresh s (.caseLabel text falls') span) f) := by
  obtain ⟨⟨-, hshape⟩, hs⟩ := every_tree.1 H.listed.shaped
  have hst := Tree.Stands.setConstruct (f := .nil) (g := .nil) H.stacked.stands rfl (.caseLabel text falls')
  exact ⟨H.stacked.retree (.modify _ (H.stacked.stands.bound s (by simp)).1) rfl hst, H.listed.tiles, H.listed.within,
    every_tree.2 ⟨⟨rfl, hshape⟩, hs⟩⟩

theorem Run.onLabel (R : Run tokens a b) (A : Standing a) (ht : Unlabelled a) (hlt : b.lastEnd < e.offset)
    (text : String) : ∃ b', Assembly.onLabel e text b = .ok () b' ∧ Labelled tokens a b' ∧ b'.lastEnd = e.offset := by
  -- The label before it is closed.
  obtain ⟨f, b₁, log, H, hf, hm, hend, hd⟩ : ∃ f b₁ log, Stages tokens a b₁ f ∧ Sequence f.roots ∧ f.Marked true ∧
      b₁.lastEnd = b.lastEnd ∧ Assembly.onLabel e text b =
        .ok () { b₁.opened (.caseLabel text false) with lastEnd := e.offset, log } := by
    rw [Assembly.onLabel, get_bind]
    obtain ⟨f, H, hf⟩ | R := R
    · rw [if_neg (ht b H.stacked.keeps)]
      exact ⟨f, b, _, H, hf.sequence, hf.marked, rfl, rfl⟩
    · rw [if_pos R.topTag]
      obtain ⟨m, g, s, old, k, b₁, h₁, hend, H, hg, hm, L⟩ := R.closeLabel A e
      have hholds := L.stacked.stands.holds
      rw [append_nil] at hholds
      have hconstruct : b₁.tree.construct s = .caseLabel old false :=
        hholds.construct_eq (e := .fresh s (.caseLabel old false) ⟨m.lastEnd, b.lastEnd⟩) (by simp)
      have hends : b₁.tree.endsInBreak s = k.endsInBreak :=
        (Tree.holds_tree.1 hholds).2.endsInBreak_eq hholds.children_eq
      simp only [bind_eq h₁, modifyTree_bind, hconstruct, hends]
      exact ⟨_, _, _, H.append L.setLabel, roots_append .. ▸ hg.label rfl, hm.label rfl, hend, rfl⟩
  have B := A.of_stacks H.stacked
  have S := B.toReady.opened (.caseLabel text false)
  have S' : Stacks (b₁.enter ⟨b₁.tree.size⟩)
      { b₁.opened (.caseLabel text false) with lastEnd := e.offset, log } .nil _ :=
    ⟨{ S.keeps with }, S.base, S.staged, S.stands⟩
  refine ⟨_, hd, ⟨b₁, f, _, _, _, .nil, H, hf, hm, ?_, S', (S'.ready (B.toReady.enter _)).stages, by simp [Statements]⟩,
    rfl⟩
  rw [hend]
  exact hlt

theorem Run.label (R : Run tokens a b) (A : Standing a) (ht : Unlabelled a) {l : Label}
    (ho : Ordered b.lastEnd l.tokens) :
    Reaches b [l.event] fun b' => Run tokens a b' ∧ b'.lastEnd = l.stop := by
  have hd (text : String) (hl : dispatch l.event = Assembly.onLabel l.event text) (hlt : b.lastEnd < l.event.offset) :
      ∃ b', dispatch l.event b = .ok () b' ∧ Run tokens a b' ∧ b'.lastEnd = l.event.offset := by
    obtain ⟨b', h, L, hend⟩ := R.onLabel A ht hlt text
    exact ⟨b', hl ▸ h, .inr L, hend⟩
  cases l with
  | case k inside colon text =>
    simp only [Label.tokens, ordered_cons, ordered_append] at ho
    obtain ⟨hk, hk', hi, hc, hc', -⟩ := ho
    have hle := hi.le_lastStop
    refine .step rfl (hd text.1 ?_ (show b.lastEnd < colon.1.stop by omega))
    change Assembly.onCaseLabel _ = _
    rw [Assembly.onCaseLabel, if_neg (by simp [Label.event, mark, text.2])]
    rfl
  | default k colon =>
    obtain ⟨hk, hk', hc, hc', -⟩ := ho
    exact .step rfl (hd "default" rfl (show b.lastEnd < colon.1.stop by omega))

/-! ## Blocks -/

theorem Ready.onScopeStart (ha : Ready a) (e : Event) :
    ∃ b, Assembly.onScopeStart e a = .ok () b ∧ b.lastEnd = e.offset ∧
    Stacks (a.enter ⟨a.tree.size⟩) b .nil
      (Forest.tree (.fresh ⟨a.tree.size⟩ (.scope true) ⟨a.lastEnd, a.lastEnd⟩) .nil) := by
  have H := ha.opened (.scope true)
  exact ⟨_, rfl, rfl, { H.keeps with }, H.base, H.staged, H.stands⟩

section Close

variable {s : Slot} {braced : Bool}

theorem Stacks.closeItems
    (S : Stacks (a.enter s) n .nil (Forest.tree (.fresh s (.scope braced) ⟨a.lastEnd, a.lastEnd⟩) .nil))
    (A : Standing a)
    (hn : a.lastEnd ≤ n.lastEnd) (K : Stages tokens n b f) (hf : Sequence f.roots) (hm : f.Marked false)
    (hlt : a.lastEnd < e.offset) (hb : b.lastEnd ≤ e.offset) (hj : Fills braced e.offset f.roots) :
    Assembly.expectTop e .scope b = .ok s b ∧ (b.tree.construct s).braced = braced ∧
      ∃ b', Assembly.closeScope e e.offset b = .ok s b' ∧ b'.lastEnd = e.offset ∧
        Stages tokens a { b' with staged := s :: b'.staged, statementBase := (s :: b'.staged).length }
          (Forest.tree (.fresh s (.scope braced) ⟨a.lastEnd, e.offset⟩) f) := by
  refine ⟨S.expectTop K.stacked.keeps, ?_, (S.inner K.stacked).closeScope_stages A e hlt (K.listed.within.mono hn hb)
    ⟨K.listed.items hf, hj⟩ hm K.listed.shaped⟩
  rw [Stacks.construct_eq (m := .nil) S K.stacked.keeps]
  rfl

theorem Stacks.onScopeEnd
    (S : Stacks (a.enter s) n .nil (Forest.tree (.fresh s (.scope true) ⟨a.lastEnd, a.lastEnd⟩) .nil)) (A : Standing a)
    (hn : a.lastEnd ≤ n.lastEnd) (R : Run tokens n b) (hlt : a.lastEnd < e.offset) (hb : b.lastEnd < e.offset) :
    ∃ b', Assembly.onScopeEnd e b = .ok () b' ∧
      ∃ x d, Stages tokens a b' (Forest.tree x d) ∧ x.node.construct = .scope true ∧ b'.lastEnd = e.offset := by
  obtain ⟨b₁, h₁, hend, f, K, hf, hm⟩ := R.closeOpenLabel ((A.enter s).of_stacks S)
    (fun b hk => by simp [S.topTag hk, Construct.tag]) e
  -- The brace comes after all statements.
  have hj : Fills true e.offset f.roots := fun k hk _ =>
    ⟨fun _ => rfl, fun _ => (K.listed.tiles.stop_le hk).trans_lt (by omega)⟩
  obtain ⟨htop, hc, b₂, h₂, hend', H⟩ := S.closeItems A hn K hf hm hlt (by omega) hj
  rw [Assembly.onScopeEnd, bind_eq h₁, bind_eq htop]
  simp only [getTree_bind, if_pos hc]
  exact ⟨_, bind_ok.2 ⟨_, _, h₂, rfl⟩, _, f, H.logged _, rfl, hend'⟩

theorem Stacks.onImplicitScopeEnd
    (S : Stacks (a.enter s) n .nil (Forest.tree (.fresh s (.scope false) ⟨a.lastEnd, a.lastEnd⟩) .nil)) (A : Standing a)
    (hn : a.lastEnd ≤ n.lastEnd) (K : Stages tokens n b f) (hf : OneStatement f) (hlt : a.lastEnd < e.offset)
    (hb : b.lastEnd = e.offset) :
    ∃ b', Assembly.onImplicitScopeEnd e b = .ok () b' ∧
      ∃ x d, Stages tokens a b' (Forest.tree x d) ∧ x.node.tag = .scope ∧ b'.lastEnd = e.offset := by
  -- A jump is all of the body, so they end together.
  have hj : Fills false e.offset f.roots := fun k hk hjump => by
    have htiles := K.listed.tiles
    rw [hf.jump k hk hjump] at htiles
    have hstop : k.node.span.stop = b.lastEnd := htiles.2.2.2
    simp [hstop, hb]
  obtain ⟨htop, hc, b₂, h₂, hend, H⟩ := S.closeItems A hn K hf.statements.sequence hf.statements.marked hlt
    hb.le hj
  rw [Assembly.onImplicitScopeEnd, bind_eq htop]
  simp only [getTree_bind, if_neg (Bool.not_eq_true _ ▸ hc)]
  exact ⟨_, bind_ok.2 ⟨_, _, h₂, rfl⟩, _, f, H, rfl, hend⟩

end Close

/-! ## Headers -/

namespace Heading

variable {s g : Slot} {c : Construct}

theorem condition (H : Heading a n s g c p p .nil) (A : Standing a) {q : Condition} (ho : Ordered p q.tokens)
    {kind : Event.Kind} {tag : Construct.Tag} (hc : c.tag = tag) (hk : (kind != .deferred) = true)
    (hd : dispatch (mark kind q.closing.1.stop) = Assembly.onCondition (mark kind q.closing.1.stop) tag) :
    Reaches n (q.events source kind) fun b =>
      ∃ c' r, c'.tag = tag ∧ Heading a b s g c' r r .nil ∧ b.lastEnd = q.closing.1.stop ∧ r < b.lastEnd := by
  simp only [Condition.tokens, ordered_cons, ordered_append, Expr.lastStop_tokens] at ho
  obtain ⟨hp, hp', hq, hlt, hlt', -⟩ := ho
  refine ((H.ready A.toReady).expression le_rfl hq).append ?_
  rintro b ⟨f, K, -, htop⟩
  obtain ⟨b', c', h, hc', H', hend⟩ := H.onCondition (e := mark kind q.closing.1.stop) K (by omega) htop
  refine .step hk ⟨b', by rw [hd, ← hc, h], c', _, hc'.trans hc, H', hend, ?_⟩
  rw [hend]
  exact hlt.trans_lt hlt'

theorem withModes (H : Heading a b s g c p hi f) (ms : List Mode) :
    Heading { a with modes := ms } { b with modes := ms } s g c p hi f := by
  obtain ⟨hc, span, k, hg, hr, hk, ho, K⟩ := H
  exact ⟨hc, span, k, hg, hr, hk, ho, { K.keeps with modes := rfl }, K.base, K.staged, K.stands⟩

theorem forParts (H : Heading a n s g c p p .nil) (ha : Ready a) (hc : c.tag = .loop) (hm : a.mode = .forHeader)
    {q : ForParts} (ho : Ordered p q.tokens) :
    Reaches n (q.events source) fun b => ∃ c' r b₁, c'.tag = .loop ∧ Heading a b₁ s g c' r r .nil ∧
      r < q.closing.1.stop ∧ b = { b₁ with modes := b₁.modes.tail, lastEnd := q.closing.1.stop } := by
  simp only [ForParts.tokens, ordered_cons, ordered_append] at ho
  obtain ⟨hp, hp', hi, hf, hf', ht', hs, hs', hc', hl, hl', -⟩ := ho
  refine ((H.ready ha).forInit hi).append ?_
  rintro b₁ ⟨f₁, K₁, hs₁⟩
  obtain ⟨_, n₁, c₁, h₁, hc₁, H₁, rfl⟩ :=
    H.onForPart (e := mark .forInit q.first.1.stop) (fun s l => { l with init? := s }) hc ha.fragments hm K₁
    (by omega) (fun _ _ => ⟨rfl, rfl⟩) false hs₁
  refine .cons rfl h₁ (((H₁.ready ha).optional _ ht' source).append ?_)
  rintro b₂ ⟨f₂, K₂, hs₂⟩
  obtain ⟨_, n₂, c₂, h₂, hc₂, H₂, rfl⟩ :=
    H₁.onForPart (e := mark .forCondition q.second.1.stop) (fun s l => { l with condition? := s }) hc₁ ha.fragments
    hm K₂ (by omega) (fun _ _ => ⟨rfl, rfl⟩) false hs₂
  refine .cons rfl h₂ (((H₂.ready ha).optional _ hc' source).append ?_)
  rintro b₃ ⟨f₃, K₃, hs₃⟩
  obtain ⟨b, n₃, c₃, h₃, hc₃, H₃, hb⟩ :=
    H₂.onForPart (e := mark .forChange q.closing.1.stop) (fun s l => { l with change? := s }) hc₂ ha.fragments hm K₃
    (by omega) (fun _ _ => ⟨rfl, rfl⟩) true hs₃
  exact .step rfl ⟨b, h₃, c₃, _, n₃, hc₃, H₃, by omega, hb⟩

end Heading

/-! ## Particular headers -/

theorem Ready.onForHeader (ha : Ready a) (e : Event) : ∃ b s g c, Assembly.onForHeader e a = .ok () b ∧ c.tag = .loop ∧
    Heading { a with modes := .forHeader :: a.modes } b s g c a.lastEnd a.lastEnd .nil := by
  obtain ⟨n, s, g, c, h₁, hc, H⟩ := ha.openLoop e .forLoop (by decide)
  have hmodes : n.modes = a.modes := by
    obtain ⟨-, _, _, -, -, -, -, K⟩ := H
    exact K.keeps.modes
  exact ⟨_, s, g, c, bind_ok.2 ⟨_, _, h₁, rfl⟩, hc, hmodes ▸ H.withModes (.forHeader :: n.modes)⟩

theorem Heading.afterFor {s g : Slot} {c : Construct} {m : Mode}
    (H : Heading { a with modes := m :: a.modes } b s g c p p .nil) :
    Heading a { b with modes := b.modes.tail, lastEnd := q } s g c p p .nil := by
  have hmodes : b.modes = m :: a.modes := by
    obtain ⟨-, _, _, -, -, -, -, K⟩ := H
    exact K.keeps.modes
  rw [hmodes]
  exact (H.withModes a.modes).setEnd q

theorem Stacks.setEnd (S : Stacks a b f h) (q : Nat) : Stacks a { b with lastEnd := q } f h :=
  ⟨{ S.keeps with }, S.base, S.staged, S.stands⟩

theorem Heading.close_else {s g : Slot} {c : Construct} (H : Heading a n s g c p p .nil) (A : Standing a)
    (hc : c.tag = .branch) (hp : p < n.lastEnd) (K : Stages tokens n b (Forest.tree x d)) (hx : x.node.tag = .scope)
    (K' : Stages tokens { b with lastEnd := q } b' (Forest.tree y k)) (hy : y.node.tag = .scope) {t : Token}
    (ht : t ∈ tokens) (hw : t.isWord "else" = true) (hstart : b.lastEnd ≤ t.start) (hstop : t.stop = q)
    (hq : b.lastEnd ≤ q) (hend : b'.lastEnd = e.offset) :
    ∃ b'', Assembly.closeConstruct e c.tag b' = .ok () b'' ∧ StagesOne tokens a b'' e.offset := by
  have hxspan : x.node.span.stop = b.lastEnd := K.listed.tiles.2.2.2
  have hyspan : y.node.span.start = q := K'.listed.tiles.1
  have hin := K.listed.within
  have hin' := K'.listed.within
  rw [hend] at hin'
  have hle := H.le
  have hle₁ := hin.le
  have hle₂ : q ≤ e.offset := hin'.le
  refine H.close A (by simpa using (K.stacked.setEnd q).append K'.stacked) (by omega)
    ((hin.mono hp.le le_rfl).append (hin'.mono hq le_rfl))
    (every_append.2 ⟨K.listed.shaped, K'.listed.shaped⟩) (fun span => ?_) (by simp [hx, hy])
  cases c with
  | branch => exact .inr ⟨_, x, y, rfl, rfl, hx, hy, t, ht, hw, hxspan ▸ hstart, hyspan ▸ hstop⟩
  | _ => cases hc

theorem Stacks.closeDo {s : Slot} {l : LoopParts}
    (S : Stacks (a.enter s) b (Forest.tree x d ++ Forest.tree y k)
      (Forest.tree (.fresh s (.loop l) ⟨a.lastEnd, a.lastEnd⟩) .nil)) (A : Standing a) (hl : l.form = .doLoop)
    (hx : x.node.tag = .scope) (hd : Shaped tokens (Forest.tree x d)) (hy : y.node.tag = .group) (hp : y.Plain)
    (hk : Operands k) (hw : (Forest.tree x d).Within a.lastEnd q) (hw' : (Forest.tree y k).Within q e.offset)
    (hlt : a.lastEnd < e.offset) :
    ∃ b', Assembly.closeConstruct e .loop b = .ok () b' ∧ StagesOne tokens a b' e.offset := by
  have hshape : Shape tokens (Entry.fresh s (.loop l) ⟨a.lastEnd, e.offset⟩).node [x, y] := by
    simp only [Shape, Entry.construct_fresh]
    rw [if_pos hl]
    exact ⟨x, y, rfl, hx, hy⟩
  have hgroup : Shaped tokens (Forest.tree y k) := by
    refine every_tree.2 ⟨⟨hp, ?_, hk.marked⟩, shaped_of_operands hk⟩
    obtain ⟨u, c, span, rfl⟩ := hp.exists_fresh
    cases c with
    | group => exact fun z hz => hk z (mem_members_of_mem_roots hz)
    | _ => cases hy
  obtain ⟨b', hb', z, m, K, -, hz, -, hend⟩ := S.closeConstruct A hlt (hw.append hw') hshape (by simp [hx, hy])
    (Forest.every_append.2 ⟨hd, hgroup⟩ : Shaped tokens (Forest.tree x d ++ Forest.tree y k))
  exact ⟨b', hb', _, K, oneStatement_tree (.of_tag (by rw [hz]; rfl) (by rw [hz]; simp [Construct.tag])), hend⟩

theorem Heading.topTag {s g : Slot} {c : Construct} (H : Heading a n s g c p p .nil) (K : Keeps n b) :
    topTag? b ≠ some .caseLabel := by
  obtain ⟨hc, _, _, -, -, -, -, S⟩ := H
  rw [Stacks.topTag S K]
  intro h
  cases c <;> first | exact hc.elim | cases h

/-- The end of a construct whose header is behind. -/
theorem Reaches.closed {c : Construct} {tag : Construct.Tag} (hc : c.tag = tag) (hk : (e.kind != .deferred) = true)
    (hd : dispatch e = closeConstruct e tag)
    (h : ∃ b', closeConstruct e c.tag b = .ok () b' ∧ StagesOne tokens a b' e.offset) :
    Reaches b [e] fun b' => StagesOne tokens a b' e.offset := by
  subst hc
  exact .step hk (by rwa [hd])

/-! ## Statements -/

mutual

/-- A statement other than a label is staged, from the end of the one before it to its own. -/
theorem Standing.stmt : ∀ {s : Stmt} {a : Assembly}, Standing a → Ordered a.lastEnd s.tokens →
    Occurs tokens a.lastEnd s.tokens → (∀ l, s ≠ .label l) →
      Reaches a (s.events source) fun b => StagesOne tokens a b s.stop
  | .simple s, a, A, ho, hocc, _ => A.simple ho hocc
  | .label l, _, _, _, _, h => absurd rfl (h l)
  | .block y, a, A, ho, hocc, _ => by
    refine (Standing.block (y := y) A ho hocc).mono ?_
    rintro b ⟨x, d, H, hx, hend⟩
    exact ⟨_, H, oneStatement_tree (.of_block hx), hend⟩
  | .deferBlock k y, a, A, ⟨hk, hk', hy⟩, hocc, _ => by
    obtain ⟨n, h₁, hend, S⟩ := A.onDeferHeader (mark .deferHeader k.1.stop)
    replace hend : n.lastEnd = k.1.stop := hend
    refine .cons rfl h₁ ((Standing.block (A.deferring.of_stacks S) (hend ▸ hy) (hend ▸ hocc.tail)).append ?_)
    rintro b ⟨x, d, K, hx, hend'⟩
    have hkeeps := K.stacked.keeps
    exact .one (fun _ => A.completable (hkeeps.waitingDefers.trans S.keeps.waitingDefers)
        (hkeeps.scopes.trans S.keeps.scopes))
      (Stages.deferBlock (e := mark .deferred y.stop) S (by omega)
        ⟨k.1, hocc.subset List.mem_cons_self, k.2, hk, hend.symm.le⟩ K (congrArg Construct.tag hx) hend')
  | .branch k q y, a, A, ho, hocc, _ => by
    simp only [Stmt.tokens, ordered_cons, ordered_append, Condition.lastStop_tokens] at ho
    obtain ⟨hk, hk', hq, hy⟩ := ho
    obtain ⟨n, s, g, c, h₁, hc, H⟩ := A.onIfHeader (mark .ifHeader k.1.stop)
    refine .cons rfl h₁ ((H.condition A (hq.mono (by omega)) hc rfl rfl).append ?_)
    rintro n₁ ⟨c', r, hc', H', hend, hr⟩
    refine (Standing.body (y := y) (H'.standing A) (hend ▸ hy) (by simpa [hend] using hocc.tail.append.2)).append ?_
    rintro b ⟨x, d, K, hx, hend'⟩
    exact .closed hc' rfl rfl (H'.close_body A hr K hx hend')
  | .branchElse k q y o z, a, A, ho, hocc, _ => by
    simp only [Stmt.tokens, ordered_cons, ordered_append, Condition.lastStop_tokens, Body.lastStop_tokens] at ho
    obtain ⟨hk, hk', hq, hy, hm, hm', hz⟩ := ho
    obtain ⟨n, s, g, c, h₁, hc, H⟩ := A.onIfHeader (mark .ifHeader k.1.stop)
    refine .cons rfl h₁ ((H.condition A (hq.mono (by omega)) hc rfl rfl).append ?_)
    rintro n₁ ⟨c', r, hc', H', hend, hr⟩
    refine (Standing.body (y := y) (H'.standing A) (hend ▸ hy)
      (by simpa [hend] using hocc.tail.append.2.append.1)).append ?_
    rintro b ⟨x, d, K, hx, hend'⟩
    have htop : Assembly.expectTop (mark .elseMark o.1.stop) .branch b = .ok s b := hc' ▸ H'.expectTop K.stacked.keeps
    refine .cons rfl (bind_ok.2 ⟨_, _, htop, rfl⟩) ((Standing.body (y := z) (a := { b with lastEnd := o.1.stop })
      (((H'.standing A).of_stacks K.stacked).setEnd _) hz hocc.tail.append.2.append.2.tail).append ?_)
    rintro b' ⟨x', d', K', hx', hend''⟩
    exact .closed hc' rfl rfl (H'.close_else A hc' hr K hx K' hx' (hocc.subset (by simp [Stmt.tokens])) o.2
      (by omega) rfl (by omega) hend'')
  | .whileLoop k q y, a, A, ho, hocc, _ => by
    simp only [Stmt.tokens, ordered_cons, ordered_append, Condition.lastStop_tokens] at ho
    obtain ⟨hk, hk', hq, hy⟩ := ho
    obtain ⟨n, s, g, c, h₁, hc, H⟩ := A.openLoop (mark .whileHeader k.1.stop) .whileLoop (by decide)
    refine .cons rfl h₁ ((H.condition A (hq.mono (by omega)) hc rfl rfl).append ?_)
    rintro n₁ ⟨c', r, hc', H', hend, hr⟩
    refine (Standing.body (y := y) (H'.standing A) (hend ▸ hy) (by simpa [hend] using hocc.tail.append.2)).append ?_
    rintro b ⟨x, d, K, hx, hend'⟩
    exact .closed hc' rfl rfl (H'.close_body A hr K hx hend')
  | .forLoop k q y, a, A, ho, hocc, _ => by
    simp only [Stmt.tokens, ordered_cons, ordered_append, ForParts.lastStop_tokens] at ho
    obtain ⟨hk, hk', hq, hy⟩ := ho
    obtain ⟨n, s, g, c, h₁, hc, H⟩ := A.onForHeader (mark .forHeader k.1.stop)
    have ha : Ready { a with modes := .forHeader :: a.modes } := ⟨A.base, A.fragments, nofun⟩
    refine .cons rfl h₁ ((H.forParts ha hc rfl (hq.mono (by omega))).append ?_)
    rintro _ ⟨c', r, n₂, hc', H', hr, rfl⟩
    replace H' := H'.afterFor (q := q.closing.1.stop)
    refine (Standing.body (y := y) (H'.standing A) hy (by simpa using hocc.tail.append.2)).append ?_
    rintro b ⟨x, d, K, hx, hend'⟩
    exact .closed hc' rfl rfl (H'.close_body A hr K hx hend')
  | .doLoop k y w q s, a, A, ho, hocc, _ => by
    simp only [Stmt.tokens, ordered_cons, ordered_append, Body.lastStop_tokens, Condition.tokens, Expr.lastStop_tokens,
      lastStop_cons, lastStop_nil, lastStop_append] at ho
    obtain ⟨hk, hk', hy, hw, hw', ⟨hp, hp', hq, hc, hc', -⟩, hs, hs', -⟩ := ho
    obtain ⟨n, h₁, hend, S⟩ := A.onDoHeader (mark .doHeader k.1.stop)
    replace hend : n.lastEnd = k.1.stop := hend
    have N := (A.enter _).of_stacks S
    refine .cons rfl h₁ ((Standing.body (y := y) N (hend ▸ hy) (hend ▸ hocc.tail.append.1)).append ?_)
    rintro b ⟨x, d, K, hx, hend'⟩
    rw [Condition.events, List.append_assoc]
    refine ((N.of_stacks K.stacked).toReady.expression le_rfl hq).append ?_
    rintro b₁ ⟨f, C, -, htop⟩
    obtain ⟨b₂, l, u, m, h₂, hl, hm, hu, hup, hwu, S', hend''⟩ :=
      S.onDoCondition (e := mark .doWhileCondition q.closing.1.stop) K.stacked C htop
    refine .cons rfl h₂ ?_
    have hle := hy.le_lastStop
    have hle' := Expr.le_stop hq
    rw [Body.lastStop_tokens] at hle
    have hwx := K.listed.within
    exact .step rfl (S'.closeDo (q := q.opening.1.stop) A hl hx K.listed.shaped hu hup hm
      (hwx.mono (by omega) (by omega)) (hwu.mono le_rfl (show q.test.stop ≤ s.1.stop by omega))
      (show a.lastEnd < s.1.stop by omega))
  | .switch k q y, a, A, ho, hocc, _ => by
    simp only [Stmt.tokens, ordered_cons, ordered_append, Condition.lastStop_tokens] at ho
    obtain ⟨hk, hk', hq, hy⟩ := ho
    obtain ⟨n, s, g, c, h₁, hc, H⟩ := A.onSwitchHeader (mark .switchHeader k.1.stop)
    refine .cons rfl h₁ ((H.condition A (hq.mono (by omega)) hc rfl rfl).append ?_)
    rintro n₁ ⟨c', r, hc', H', hend, hr⟩
    refine (Standing.block (y := y) (H'.standing A) (hend ▸ hy) (by simpa [hend] using hocc.tail.append.2)).append ?_
    rintro b ⟨x, d, K, hx, hend'⟩
    obtain ⟨b', h₂, h₃⟩ := H'.close_body A hr (e := mark .switchEnd y.stop) K (congrArg Construct.tag hx) hend'
    have hlabel : closeOpenLabel (mark .switchEnd y.stop) b = .ok () b := by
      rw [closeOpenLabel, get_bind, if_neg (H'.topTag K.stacked.keeps)]
      rfl
    exact .step rfl ⟨b', bind_ok.2 ⟨_, _, hlabel, hc' ▸ h₂⟩, h₃⟩

theorem Standing.stmts : ∀ {ss : Stmts} {a b : Assembly}, Standing a → Run tokens a b → Unlabelled a →
    Ordered b.lastEnd ss.tokens → Occurs tokens b.lastEnd ss.tokens →
      Reaches b (ss.events source) fun b' => Run tokens a b' ∧ b'.lastEnd = lastStop b.lastEnd ss.tokens
  | .nil, _, b, _, R, _, _, _ => .nil ⟨R, rfl⟩
  | .cons s rest, a, b, A, R, ht, ho, hocc => by
    simp only [Stmts.tokens, ordered_append, Stmt.lastStop_tokens, lastStop_append] at ho ⊢
    have hs : Reaches b (s.events source) fun b' => Run tokens a b' ∧ b'.lastEnd = s.stop := by
      by_cases hl : ∃ l, s = .label l
      · obtain ⟨l, rfl⟩ := hl
        exact R.label A ht ho.1
      · refine (Standing.stmt (R.standing A) ho.1 hocc.append.1 (not_exists.1 hl)).mono ?_
        rintro b' ⟨f, H, hf, hend⟩
        exact ⟨R.append H hf.statements, hend⟩
    refine hs.append ?_
    rintro b₁ ⟨R₁, hend⟩
    rw [← hend] at ho ⊢
    exact Standing.stmts A R₁ ht ho.2 (by simpa [hend] using hocc.append.2)

theorem Standing.block : ∀ {y : Block} {a : Assembly}, Standing a → Ordered a.lastEnd y.tokens →
    Occurs tokens a.lastEnd y.tokens → Reaches a (y.events source) fun b =>
      ∃ x d, Stages tokens a b (Forest.tree x d) ∧ x.node.construct = .scope true ∧ b.lastEnd = y.stop
  | .mk o items c, a, A, ho, hocc => by
    simp only [Block.tokens, ordered_cons, ordered_append] at ho
    obtain ⟨hp, hp', hi, hc, hc', -⟩ := ho
    obtain ⟨n, h₁, hend, S⟩ := A.onScopeStart (mark .scopeStart o.1.stop)
    replace hend : n.lastEnd = o.1.stop := hend
    have N := (A.enter _).of_stacks S
    refine .cons rfl h₁ ((Standing.stmts N (.start N.toReady) (fun b hk => by simp [S.topTag hk, Construct.tag])
      (hend ▸ hi) (hend ▸ hocc.tail.append.1)).append ?_)
    rintro b ⟨R, hend'⟩
    have hle := hi.le_lastStop
    rw [hend] at hend'
    exact .step rfl (S.onScopeEnd A (by omega) R (show a.lastEnd < c.1.stop by omega)
      (show b.lastEnd < c.1.stop by omega))

theorem Standing.body : ∀ {y : Body} {a : Assembly} {p : Nat}, Standing a → Ordered a.lastEnd y.tokens →
    Occurs tokens a.lastEnd y.tokens → Reaches a (y.events source p) fun b =>
      ∃ x d, Stages tokens a b (Forest.tree x d) ∧ x.node.tag = .scope ∧ b.lastEnd = y.stop
  | .braced y, a, p, A, ho, hocc => by
    refine (Standing.block (y := y) A ho hocc).mono ?_
    rintro b ⟨x, d, H, hx, hend⟩
    exact ⟨x, d, H, congrArg Construct.tag hx, hend⟩
  | .single s, a, p, A, ho, hocc => by
    intro hf hfit
    -- A label that is all of the body does not fit.
    have hlabel : ∀ l, s ≠ .label l := by
      rintro l rfl
      exact absurd hfit.cons.2.labels
        (by rw [Stmt.events, List.singleton_append, labelsStand_body]; exact Bool.false_ne_true)
    have S := A.toReady.opened (.scope false)
    have hlt : a.lastEnd < lastStop a.lastEnd s.tokens := ho.lt_lastStop s.tokens_ne_nil
    rw [Stmt.lastStop_tokens] at hlt
    refine Reaches.cons rfl rfl ((Standing.stmt ((A.enter _).of_stacks S) ho hocc hlabel).append ?_) hf hfit
    rintro b ⟨f, K, hf, hend⟩
    exact .step rfl (S.onImplicitScopeEnd A le_rfl K hf hlt hend)

end

/-! ## Functions -/

/-- The declarator and the parameters leave the stage, and a function is open. -/
theorem Holding.onFunctionHeader (H : Holding a b lo hi f .nil) (ha : Ready a) (hf : Declarations f.terms) (e : Event) :
    ∃ b' s form, Assembly.onFunctionHeader e b = .ok () b' ∧ b'.lastEnd = e.offset ∧
    (∀ u ∈ form.params, u.index < s.index) ∧
      Stacks (a.enter s) b' .nil (Forest.tree (.fresh s (.function form) ⟨a.lastEnd, a.lastEnd⟩) .nil) := by
  obtain ⟨form, log, hparams, hd⟩ := H.openFunction hf e
  have hmode : (b.unstaged a.staged).mode ≠ .tagName := by
    rw [mode, show (b.unstaged a.staged).modes = a.modes from H.keeps.modes]
    exact ha.mode
  have K : Stacks (a.enter ⟨b.tree.size⟩) ((b.unstaged a.staged).enter ⟨b.tree.size⟩) .nil .nil :=
    ⟨⟨congrArg (_ :: ·) H.keeps.scopes, H.keeps.modes, H.keeps.waitingDefers, ha.fragments.symm, H.keeps.tree⟩,
      H.base, rfl, Tree.stands_nil⟩
  have S := K.append (Ready.opened (a := b.unstaged a.staged) ⟨H.base, rfl, hmode⟩ (.function form))
  rw [show (b.unstaged a.staged).lastEnd = a.lastEnd from H.lastEnd] at S
  have hbound : ∀ u ∈ form.params, a.tree.size ≤ u.index ∧ u.index < b.tree.size := fun u hu =>
    H.stands.bound u (by simp [rootSlots_subset (hparams hu)])
  refine ⟨_, ⟨b.tree.size⟩, form, hd, rfl, fun u hu => (hbound u hu).2, ?_⟩
  have S' := S.retree (g := .nil) (m := Forest.tree (.fresh ⟨b.tree.size⟩ (.function form) ⟨a.lastEnd, a.lastEnd⟩) .nil)
    (.foldl_modify ({ · with parent? := some ⟨b.tree.size⟩ }) fun u hu => (hbound u hu).1) rfl ?_
  · exact ⟨{ S'.keeps with }, S'.base, S'.staged, S'.stands⟩
  · refine S.stands.congr (by rw [Tree.size_foldl_modify]) fun s hs => Tree.node_foldl_modify_ne _ fun hmem => ?_
    have := hbound s hmem
    simp only [Entry.fresh, nil_append, slots_tree, slots_nil, List.mem_singleton] at hs
    subst hs
    exact absurd this.2 (Nat.lt_irrefl _)

/-- All trees are functions. Parameters come before their function. -/
def Functions (f : Forest Entry) : Prop :=
  ∀ k ∈ f.roots, k.node.tag = .function ∧ ∀ u ∈ k.node.construct.params, u.index < k.slot.index

/-- The declarator and the parameters are operands. -/
theorem Ready.functionHead (ha : Ready a) {y : FunctionPhrase} (ho : Ordered p y.tokens) (source : List UInt8) :
    Reaches a (y.specifiers.1.flatMap Specifier.events ++ (y.declarator.events source ++
      y.params.events source y.opening.1.stop)) fun b =>
        ∃ hi f, Holding a b p hi f .nil ∧ Declarations f.terms := by
  simp only [FunctionPhrase.tokens] at ho
  rw [← List.append_assoc, ordered_append, ordered_cons] at ho
  obtain ⟨hd, hopen, hopen', hps⟩ := ho
  replace hps := (ordered_append.1 hps).1
  rw [← List.append_assoc]
  refine .inner ?_ fun hf hl => ?_
  · simp only [List.forall_mem_append, List.forall_mem_flatMap]
    exact ⟨⟨fun s _ => s.inner, y.declarator.inner⟩, y.params.inner _⟩
  · rw [List.forall_mem_append] at hl
    obtain ⟨b₁, f, h₁, D₁, hf₁⟩ := (ha.reads hf p).declarator y.specifiers y.declarator hd hl.1 (by simp)
    obtain ⟨b₂, g, h₂, D₂, hg⟩ := Declared.params ha.mode ha.fragments y.params
      ⟨D₁.holding.mono (show _ ≤ y.opening.1.stop by omega), D₁.failure, D₁.shared⟩ hps hl.2 hf₁
    exact ⟨b₂, h₁.trans h₂, _, g, D₂.holding, hg⟩

theorem Standing.function (A : Standing a) {y : FunctionPhrase} (hp : a.lastEnd ≤ p) (ho : Ordered p y.tokens)
    (hocc : Occurs tokens p y.tokens) : Reaches a (y.events source) fun b =>
      ∃ x d, Stages tokens a b (Forest.tree x d) ∧ Functions (Forest.tree x d) ∧ b.lastEnd = lastStop p y.tokens := by
  have hhead := A.toReady.functionHead ho source
  simp only [FunctionPhrase.tokens, ordered_append, ordered_cons] at ho
  obtain ⟨hs, hd, ho', ho'', hps, hc, hc', hb⟩ := ho
  have hevents : y.events source = (y.specifiers.1.flatMap Specifier.events ++ (y.declarator.events source ++
      y.params.events source y.opening.1.stop)) ++ (mark .functionHeader y.closing.1.stop ::
        (y.body.events source ++ [mark .functionEnd y.body.stop])) := by simp [FunctionPhrase.events]
  rw [hevents]
  refine hhead.append ?_
  rintro b ⟨hi, f, H, hf⟩
  obtain ⟨n, s, form, h₁, hend, hparams, S⟩ :=
    H.onFunctionHeader A.toReady hf (mark .functionHeader y.closing.1.stop)
  replace hend : n.lastEnd = y.closing.1.stop := hend
  refine .cons rfl h₁ ((Standing.block (y := y.body) ((A.enter s).of_stacks S) (hend ▸ hb)
    (hend ▸ hocc.append.2.append.2.tail.append.2.tail)).append ?_)
  rintro b₄ ⟨x, d, K, hx, hend'⟩
  have hle := hs.le_lastStop
  have hle₁ := hd.le_lastStop
  have hle₂ := hps.le_lastStop
  have hle₃ := hb.le_lastStop
  rw [Block.lastStop_tokens] at hle₃
  have hw := K.listed.within
  have hstop : x.node.span.stop = b₄.lastEnd := K.listed.tiles.2.2.2
  rw [hend, hend'] at hw
  rw [hend'] at hstop
  have hshape : Shape tokens (Entry.fresh s (.function form) ⟨a.lastEnd, y.body.stop⟩).node [x] :=
    .inr ⟨x, rfl, congrArg Construct.tag hx, hstop⟩
  obtain ⟨b', h₂, z, m, K', rfl, hz, hzparams, hend''⟩ := (S.inner K.stacked).closeConstruct A
    (e := mark .functionEnd y.body.stop) (show a.lastEnd < y.body.stop by omega) (hw.mono (by omega) le_rfl)
    hshape (by simp [hx, Node.tag, Construct.tag]) K.listed.shaped
  have hfun : Functions (Forest.tree z m) := by
    rintro k hk
    obtain rfl : k = z := by simpa using hk
    exact ⟨hz, hzparams ▸ hparams⟩
  replace hend'' : b'.lastEnd = y.body.stop := hend''
  exact .step rfl ⟨b', h₂, z, m, K', hfun, by simpa [FunctionPhrase.tokens] using hend''⟩

theorem Standing.items : ∀ {items : List Item} {a : Assembly} {p : Nat}, Standing a → a.lastEnd ≤ p →
    Ordered p (items.flatMap Item.tokens) → Occurs tokens p (items.flatMap Item.tokens) →
      Reaches a (items.flatMap (Item.events source)) fun b =>
        ∃ f, Stages tokens a b f ∧ Functions f ∧ b.lastEnd ≤ lastStop p (items.flatMap Item.tokens)
  | [], a, p, A, hp, _, _ => .nil ⟨.nil, A.toReady.stages, by simp [Functions], hp⟩
  | .other ts :: items, a, p, A, hp, ho, hocc => by
    simp only [List.flatMap_cons, Item.tokens, ordered_append, lastStop_append] at ho hocc ⊢
    exact Standing.items A (hp.trans ho.1.le_lastStop) ho.2 hocc.append.2
  | .function y :: items, a, p, A, hp, ho, hocc => by
    simp only [List.flatMap_cons, Item.tokens, ordered_append, lastStop_append] at ho hocc ⊢
    refine (A.function hp ho.1 hocc.append.1).append ?_
    rintro b₁ ⟨x, d, H, hx, hend⟩
    refine (Standing.items (A.of_stacks H.stacked) hend.le ho.2 hocc.append.2).mono ?_
    rintro b ⟨f, K, hf, hle⟩
    refine ⟨_, H.append K, fun k hk => ?_, hle⟩
    exact (List.mem_append.1 (Forest.roots_append .. ▸ hk)).elim (hx k) (hf k)

/-! ## Sources -/

theorem standing_start (path : Path) : Standing (start path) :=
  ⟨⟨rfl, rfl, nofun⟩, nofun, _, _, rfl, le_rfl⟩

theorem Stages.onUnitEnd (H : Stages tokens (start path) b f) (e : Event) :
    ∃ b', Assembly.onUnitEnd e b = .ok () b' ∧
      b'.tree.Stands none 0 (Forest.tree (.fresh .root (.unit path) ⟨0, e.offset⟩) f) := by
  have hscopes : b.scopes.length = 1 := by rw [H.stacked.keeps.scopes]; rfl
  have hplace : (!b.hasOperands && b.modes.isEmpty) = true := by
    rw [H.stacked.hasOperands, H.stacked.keeps.modes]
    rfl
  simp only [Assembly.onUnitEnd, get_bind, if_pos hscopes, if_pos hplace]
  rw [show unstage 0 = unstage ([] : List Slot).length from rfl,
    unstage_bind f.rootSlots [] (by simpa [start] using H.stacked.staged)]
  simp only [forM_attach_bind, modifyTree_bind]
  refine ⟨_, rfl, ?_⟩
  have hroot : b.tree.Stands none 0 (Forest.tree (.fresh .root (.unit path) .absent) .nil) := by
    refine ⟨Tree.holds_tree.2 ⟨?_, trivial⟩, by simp, fun s hs => ?_⟩
    · exact H.stacked.keeps.tree.nodes .root Nat.zero_lt_one
    · obtain rfl : s = .root := by simpa using hs
      exact ⟨le_rfl, H.stacked.keeps.tree.size⟩
  have hf : b.tree.Stands none 1 f := by
    have := H.stacked.stands
    rwa [append_nil] at this
  have hs := hroot.append 1 hf (Nat.zero_le 1) fun s hs => ?_
  · have hs' := Tree.Stands.attachAll (f := .nil) (b := .nil) (g := .nil) (m := f) (by simpa using hs)
    exact Tree.Stands.setSpan (f := .nil) (g := .nil) hs' rfl ⟨0, e.offset⟩
  · obtain rfl : s = .root := by simpa using hs
    exact Nat.zero_lt_one

end Assembly

/-- What is known of the tree of a source: its functions `f` stand below the root. -/
structure Tree.Built (source : List UInt8) (path : Path) (tokens : List Token) (f : Forest Entry)
    (t : Tree) : Prop where
  scanned : Token.scan source = .ok tokens
  stands : t.Stands none 0 (.tree (.fresh .root (.unit path) ⟨0, source.length⟩) f)
  within : f.Within 0 source.length
  shaped : Shaped tokens (.tree (.fresh .root (.unit path) ⟨0, source.length⟩) f)
  params : ∀ e ∈ f.roots, ∀ u ∈ e.node.construct.params, u.index < e.slot.index

namespace Assembly

open Grammar

variable {source : List UInt8}

theorem takes_of_build {t : Tree} (h : ((start path).build source).1 = .ok t) :
    ∃ a, Takes (start path) (trace source).events.toList a ∧ (trace source).stop? = none ∧ a.tree = t := by
  simp only [build, feed] at h
  cases hh : (start path).handleAll (trace source).events.toList with
  | mk a halt? =>
    cases halt? with
    | some halt => simp [hh] at h
    | none =>
      cases hs : (trace source).stop? with
      | some stop => simp [hh, hs] at h
      | none =>
        simp only [hh, hs, Option.map_none, take, Except.ok.injEq] at h
        exact ⟨a, hh, rfl, h⟩

/-- The events of a source that recognition accepts are taken if they fit, and its tree is built. -/
theorem reaches_of_trace (path : Path) (hstop : (trace source).stop? = none) :
    Reaches (start path) (trace source).events.toList fun b => ∃ tokens f, b.tree.Built source path tokens f := by
  obtain ⟨tokens, items, hscan, htokens, hevents⟩ := exists_items_of_trace hstop
  obtain ⟨ho, hle⟩ := Token.scan_ordered hscan
  subst htokens
  rw [hevents]
  refine ((standing_start path).items le_rfl ho (occurs_self _)).append ?_
  rintro b ⟨f, H, hf, hend⟩
  obtain ⟨b', h, hstands⟩ := H.onUnitEnd (mark .unitEnd source.length)
  refine .step rfl ⟨b', h, _, f, hscan, hstands, H.listed.within.mono le_rfl (hend.trans hle), ?_,
    fun e he => (hf e he).2⟩
  exact Forest.every_tree.2 ⟨⟨rfl, ⟨⟨_, _, H.listed.tiles⟩, fun k hk => (hf k hk).1⟩,
    Forest.marked_of_tag_ne fun k hk => by simp [(hf k hk).1]⟩, H.listed.shaped⟩

theorem balanced_of_trace {a : Assembly} (hstop : (trace source).stop? = none)
    (h : Takes (start path) (trace source).events.toList a) :
    (start path).balanced ((trace source).events.toList.map .event) = true := by
  obtain ⟨b, -, hb, -⟩ := reaches_of_trace path hstop rfl h.fitting
  exact hb

theorem exists_built {t : Tree} (h : ((start path).build source).1 = .ok t) :
    ∃ tokens f, t.Built source path tokens f := by
  obtain ⟨a, ht, hstop, rfl⟩ := takes_of_build h
  exact (reaches_of_trace path hstop).of_takes rfl ht

theorem build_get (path : Path) (source : List UInt8) (h : ((start path).build source).1.toOption.isSome = true) :
    ((start path).build source).1 = .ok (((start path).build source).1.toOption.get h) := by
  revert h
  cases ((start path).build source).1 with
  | ok t => exact fun _ => rfl
  | error e => exact fun h => by cases h

theorem exists_tree_of_check (path : Path) (source : List UInt8) (p : Tree → Bool)
    (h : ((start path).build source).1.toOption.any p = true) :
    ∃ t, ((start path).build source).1 = .ok t ∧ p t = true := by
  cases hb : ((start path).build source).1 with
  | ok t => exact ⟨t, rfl, by simpa [hb, Except.toOption] using h⟩
  | error e => simp [hb, Except.toOption] at h

end Assembly

end Deferral
