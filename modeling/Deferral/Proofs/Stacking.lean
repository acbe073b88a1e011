import Deferral.Proofs.Absorbing
import Deferral.Proofs.Cores

/-!
# Statements on the stage

Between two statements the stage holds whole statements only. `Stacks` says what has been staged since an earlier
assembly and what has been taken off the stage again, in slots of its own; `Listed` says that the statements leave no
gap and have the shape they should. `Stages` is both, and statements without statements inside come to it.
-/

namespace Deferral.Assembly

open Forest Grammar

variable {β : Type} {s : Slot}

/-- Between two statements. -/
structure Ready (a : Assembly) : Prop where
  base : a.statementBase = a.height
  fragments : a.fragments = []
  mode : a.mode ≠ .tagName

/-- Since `a`, the trees of `f` have been staged and those of `h` are held apart. -/
structure Stacks (a b : Assembly) (f h : Forest Entry) : Prop where
  keeps : Keeps a b
  base : b.statementBase = b.height
  staged : b.staged = f.rootSlots.reverse ++ a.staged
  stands : b.tree.Stands none a.tree.size (f ++ h)

variable {a b b' c : Assembly} {lo hi p : Nat} {f g h m d : Forest Entry} {x : Entry} {e : Event} {source : List UInt8}
  {tokens : List Token}

theorem Ready.stacked (ha : Ready a) : Stacks a a .nil .nil := ⟨.refl a, ha.base, rfl, Tree.stands_nil⟩

theorem Ready.holding (ha : Ready a) (p : Nat) : Holding a a p p .nil .nil :=
  ⟨.refl a, rfl, ha.base, rfl, Tree.stands_nil, le_rfl, by simp⟩

theorem Holding.stacked (H : Holding a b lo hi .nil h) : Stacks a b .nil h :=
  ⟨H.keeps, by rw [H.base, height, height, H.staged]; rfl, H.staged, H.stands⟩

namespace Stacks

theorem ready (H : Stacks a b f h) (ha : Ready a) : Ready b :=
  ⟨H.base, H.keeps.fragments.trans ha.fragments, by rw [mode, H.keeps.modes]; exact ha.mode⟩

theorem append (H : Stacks a b f h) (K : Stacks b c g m) : Stacks a c (f ++ g) (h ++ m) where
  keeps := H.keeps.trans K.keeps
  base := K.base
  staged := by simp [K.staged, H.staged]
  stands := by
    have hfh : c.tree.Stands none a.tree.size (f ++ h) :=
      H.stands.congr K.keeps.tree.size fun s hs => K.keeps.tree.nodes s (H.stands.bound s hs).2
    have hs := hfh.append b.tree.size K.stands H.keeps.tree.size fun s hs => (H.stands.bound s hs).2
    rw [append_assoc] at hs ⊢
    exact hs.swap

theorem retree (H : Stacks a b f h) {t : Tree} {g m : Forest Entry} (ht : Tree.SameBelow a.tree.size b.tree t)
    (hf : g.rootSlots = f.rootSlots) (hs : t.Stands none a.tree.size (g ++ m)) :
    Stacks a { b with tree := t } g m :=
  ⟨{ H.keeps with tree := H.keeps.tree.trans ht }, H.base, by rw [hf]; exact H.staged, hs⟩

theorem stage (H : Stacks a b f (h ++ m)) :
    Stacks a { b with
      staged := m.rootSlots.reverse ++ b.staged
      statementBase := (m.rootSlots.reverse ++ b.staged).length } (f ++ m) h where
  keeps := { H.keeps with }
  base := rfl
  staged := by simp [H.staged]
  stands := by
    have hs := H.stands
    rw [← append_nil m] at hs
    simpa [append_assoc] using hs.swap

theorem bundle (H : Stacks a b .nil m) (c : Construct) (span : Span) :
    Stacks a { b with tree := (b.tree.push c span).2.attachAll ⟨b.tree.size⟩ m.rootSlots } .nil
      (Forest.tree (.fresh ⟨b.tree.size⟩ c span) m) := by
  refine H.retree ?_ rfl ?_
  · exact .trans (.push c span H.keeps.tree.size)
      (.attachAll H.keeps.tree.size fun u hu => (H.stands.bound u (by simp [rootSlots_subset hu])).1)
  · have hs := H.stands.push H.keeps.tree.size c span
    simpa using (Tree.Stands.swap (f := .nil) (d := .nil) hs).attachAll

theorem hasOperands (H : Stacks a b f h) : b.hasOperands = false := by
  rw [Assembly.hasOperands, H.base]
  simp

theorem expectNoOperands (H : Stacks a b f h) : Assembly.expectNoOperands e b = .ok () b := by
  rw [Assembly.expectNoOperands, get_bind, H.hasOperands]
  rfl

end Stacks

/-! ## Steps that put something on the stage -/

theorem stageStatement_bind (s : Slot) (k : Unit → Step β) : (stageStatement s >>= k) b =
    k () { b with staged := s :: b.staged, statementBase := (s :: b.staged).length } := rfl

theorem setLastEnd_bind (n : Nat) (k : Unit → Step β) :
    (setLastEnd n >>= k) b = k () { b with lastEnd := n } := rfl

theorem finishStatement_bind (k : Unit → Step β) :
    (finishStatement >>= k) b = k () { b with statementBase := b.height } := rfl

theorem Stacks.stageNew (H : Stacks a b .nil m) (c : Construct) :
    ∃ b', Assembly.stageNew e c m.rootSlots b = .ok () b' ∧
      Stacks a b' (Forest.tree (.fresh ⟨b.tree.size⟩ c ⟨b.lastEnd, e.offset⟩) m) .nil ∧ b'.lastEnd = e.offset := by
  simp only [Assembly.stageNew, get_bind, newNode_bind, forM_attach_bind, stageStatement_bind]
  have K := Stacks.stage (h := .nil) (H.bundle c ⟨b.lastEnd, e.offset⟩)
  exact ⟨_, rfl, ⟨{ K.keeps with }, K.base, K.staged, K.stands⟩, rfl⟩

/-! ## Lists of statements -/

/-- The trees have the shape they should, and their text goes from `lo` to `hi` without a gap. -/
structure Listed (tokens : List Token) (lo hi : Nat) (f : Forest Entry) : Prop where
  tiles : Tiles lo hi f.roots
  within : f.Within lo hi
  shaped : Shaped tokens f

/-- Since `a`, the trees of `f` have been staged, one after the other. -/
structure Stages (tokens : List Token) (a b : Assembly) (f : Forest Entry) : Prop where
  stacked : Stacks a b f .nil
  listed : Listed tokens a.lastEnd b.lastEnd f

/-- All trees are statements, and none is a label. -/
def Statements (f : Forest Entry) : Prop := ∀ k ∈ f.roots, k.IsStatement

@[simp] theorem statements_append : Statements (f ++ g) ↔ Statements f ∧ Statements g := by
  simp [Statements, or_imp, forall_and]

theorem Statements.marked {more : Bool} (h : Statements f) : f.Marked more := marked_of_tag_ne fun k hk hl => by
  have := (h k hk).1
  simp [hl, Construct.Tag.isStatement] at this

@[simp] theorem statements_tree : Statements (Forest.tree x d) ↔ x.IsStatement := by simp [Statements]

/-- The trees of one statement. A declaration or an expression can be several, and a jump is always one. -/
structure OneStatement (f : Forest Entry) : Prop where
  statements : Statements f
  jump : ∀ k ∈ f.roots, k.node.tag.isJump = true → f.roots = [k]

/-- Since `a`, the trees of one statement have been staged, and it ends at `stop`. -/
def StagesOne (tokens : List Token) (a b : Assembly) (stop : Nat) : Prop :=
  ∃ f, Stages tokens a b f ∧ OneStatement f ∧ b.lastEnd = stop

theorem oneStatement_tree (h : x.IsStatement) : OneStatement (Forest.tree x d) where
  statements := statements_tree.2 h
  jump k hk _ := by
    rw [roots_tree] at hk ⊢
    rw [List.mem_singleton.1 hk]

theorem oneStatement_operands {f : Forest Entry} (h : Operands f) : OneStatement f where
  statements k hk := by
    have htag := (h k (mem_members_of_mem_roots hk)).tag
    refine .of_tag (Construct.Tag.isStatement_of_isOperand htag) fun hs => ?_
    simp [hs, Construct.Tag.isOperand] at htag
  jump k hk hj := by
    rw [Construct.Tag.isJump_of_isOperand (h k (mem_members_of_mem_roots hk)).tag] at hj
    cases hj

theorem Listed.append {q : Nat} (hf : Listed tokens lo q f) (hg : Listed tokens q hi g) :
    Listed tokens lo hi (f ++ g) where
  tiles := by
    rw [roots_append]
    exact hf.tiles.append hg.tiles
  within := hf.within.append hg.within
  shaped := every_append.2 ⟨hf.shaped, hg.shaped⟩

theorem Statements.sequence (h : Statements f) : Sequence f.roots := ⟨f.roots, [], by simp, h, by simp⟩

theorem Listed.items (hf : Listed tokens lo hi f) (hs : Sequence f.roots) : Items f.roots := ⟨⟨lo, hi, hf.tiles⟩, hs⟩

theorem Listed.tree {c : Construct} (hlt : lo < hi) (hd : d.Within lo hi)
    (hshape : Shape tokens (Entry.fresh s c ⟨lo, hi⟩).node d.roots) (hm : d.Marked false) (hs : Shaped tokens d) :
    Listed tokens lo hi (Forest.tree (.fresh s c ⟨lo, hi⟩) d) where
  tiles := ⟨rfl, hlt.le, Nat.zero_lt_of_lt hlt, rfl⟩
  within := .cons (Nat.zero_lt_of_lt hlt) le_rfl hd le_rfl
  shaped := every_tree.2 ⟨⟨rfl, hshape, hm⟩, hs⟩

theorem Stages.append (H : Stages tokens a b f) (K : Stages tokens b c g) : Stages tokens a c (f ++ g) :=
  ⟨H.stacked.append K.stacked, H.listed.append K.listed⟩

theorem Stages.logged (H : Stages tokens a b f) (log : Array Log.Entry) : Stages tokens a { b with log } f :=
  ⟨⟨{ H.stacked.keeps with }, H.stacked.base, H.stacked.staged, H.stacked.stands⟩, H.listed⟩

theorem Ready.stages (ha : Ready a) : Stages tokens a a .nil :=
  ⟨ha.stacked, rfl, le_rfl, trivial⟩

/-! ## Expression statements and declarations -/

/-- The roots are laid end to end, from `start` to `stop`. -/
def tiled (start stop : Nat) : Forest Entry → Forest Entry
  | .nil => .nil
  | .node x d .nil => .node (.fresh x.slot x.node.construct ⟨start, stop⟩) d .nil
  | .node x d (.node y k r) =>
    .node (.fresh x.slot x.node.construct ⟨start, max x.node.span.stop start⟩) d
      (tiled (max x.node.span.stop start) stop (.node y k r))

theorem rootSlots_tiled : ∀ (h : Forest Entry) (start stop : Nat), (tiled start stop h).rootSlots = h.rootSlots
  | .nil, _, _ => rfl
  | .node _ _ .nil, _, _ => rfl
  | .node _ _ (.node y k r), _, _ => by
    rw [tiled, rootSlots_node, rootSlots_tiled (.node y k r)]
    rfl

theorem tile_stands {low : Nat} (stop : Nat) : ∀ {h : Forest Entry} {t : Tree} {f : Forest Entry} (start : Nat),
    t.Stands none low (f ++ h) → (h.Every fun e _ => e.Plain) →
      (tile t start stop h.rootSlots).Stands none low (f ++ tiled start stop h) ∧
      Tree.SameBelow low t (tile t start stop h.rootSlots)
  | .nil, _, _, _, hs, _ => ⟨hs, .refl _ _⟩
  | .node x d .nil, t, f, start, hs, hp =>
    ⟨Tree.Stands.setSpan (g := .nil) hs hp.1 ⟨start, stop⟩, .modify _ (hs.bound _ (by simp)).1⟩
  | .node x d (.node y k r), t, f, start, hs, hp => by
    have hspan : t.span x.slot = x.node.span := hs.holds.span_eq (by simp)
    have hs₁ := Tree.Stands.setSpan (g := .node y k r) hs hp.1 ⟨start, max x.node.span.stop start⟩
    rw [← append_assoc] at hs₁
    obtain ⟨hs₂, hsame⟩ := tile_stands stop (max x.node.span.stop start) hs₁ hp.2.2
    rw [append_assoc] at hs₂
    have htile : tile t start stop (Forest.node x d (.node y k r)).rootSlots =
        tile (t.setSpan x.slot ⟨start, max x.node.span.stop start⟩) (max x.node.span.stop start) stop
          (Forest.node y k r).rootSlots := by
      simp only [rootSlots_node, tile, hspan]
    rw [htile]
    exact ⟨hs₂, .trans (.modify _ (hs.bound _ (by simp)).1) hsame⟩

theorem tiles_tiled : ∀ {h : Forest Entry} {start stop : Nat}, h ≠ .nil → h.Within start stop → Operands h → 0 < stop →
    Tiles start stop (tiled start stop h).roots ∧ (tiled start stop h).Within start stop ∧ Operands (tiled start stop h)
  | .node x d .nil, start, stop, _, hw, ho, hpos => by
    obtain ⟨hx, hd, -⟩ := operands_node.1 ho
    obtain ⟨hlo, hdw, hle⟩ := (within_present hx.span_ne).1 hw
    refine ⟨⟨rfl, hw.le, hpos, rfl⟩, .cons hpos le_rfl (hdw.mono hlo hle) le_rfl, ?_⟩
    exact operands_tree.2 ⟨⟨rfl, hx.tag, hpos⟩, hd⟩
  | .node x d (.node y k r), start, stop, _, hw, ho, hpos => by
    obtain ⟨hx, hd, hr⟩ := operands_node.1 ho
    obtain ⟨hlo, hdw, hrw⟩ := (within_present hx.span_ne).1 hw
    have hle := hdw.le
    have hmid : max x.node.span.stop start = x.node.span.stop := by omega
    obtain ⟨htiles, hw', ho'⟩ := tiles_tiled (by simp) hrw hr hpos
    rw [tiled, hmid]
    refine ⟨⟨rfl, by simp; omega, hx.present, htiles⟩,
      .cons hx.present le_rfl (hdw.mono hlo le_rfl) hw', ?_⟩
    exact operands_node.2 ⟨⟨rfl, hx.tag, hx.present⟩, hd, ho'⟩

theorem forM_stage : ∀ (ss : List Slot) (b : Assembly),
    ss.forM Assembly.stage b = .ok () { b with staged := ss.reverse ++ b.staged }
  | [], _ => rfl
  | s :: ss, b => by
    have h := forM_stage ss { b with staged := s :: b.staged }
    simp only [List.reverse_cons, List.append_assoc, List.singleton_append]
    exact h

theorem forM_stage_bind (ss : List Slot) (k : Unit → Step β) :
    (ss.forM Assembly.stage >>= k) b = k () { b with staged := ss.reverse ++ b.staged } := by
  change EStateM.bind _ _ _ = _
  rw [EStateM.bind, forM_stage]

theorem Holding.onStatementEnd (H : Holding a b a.lastEnd p f .nil) (ha : a.fragments = []) (hp : p ≤ e.offset)
    (hpos : 0 < e.offset) {xs : List Term} (ht : Term.Topped xs f.terms) :
    ∃ b', Assembly.onStatementEnd e b = .ok () b' ∧ StagesOne tokens a b' e.offset := by
  obtain ⟨t, l, m, h₁, H₁, hm⟩ := H.popStatement (e := e) ht.settled
  generalize b.put t l = b₁ at h₁ H₁
  replace hm := hm fun hf => ht.ne_nil (by simp [hf])
  have hempty : m.rootSlots.isEmpty = false := List.isEmpty_eq_false_iff.2 fun hn => hm (eq_nil_of_rootSlots hn)
  have hw := H₁.within.mono le_rfl hp
  rw [← H₁.lastEnd] at hw
  have ho : Operands m := H₁.operands
  obtain ⟨hs, hsame⟩ := tile_stands (f := .nil) e.offset b₁.lastEnd H₁.stands
    (every_of_members fun k hk => (ho k hk).plain)
  obtain ⟨htiles, hw', ho'⟩ := tiles_tiled hm hw ho hpos
  have hlisted : Listed tokens a.lastEnd e.offset (tiled b₁.lastEnd e.offset m) := by
    rw [H₁.lastEnd] at htiles hw' ho' ⊢
    exact ⟨htiles, hw', shaped_of_operands ho'⟩
  have K := Stacks.stage (h := .nil) (H₁.stacked.retree hsame rfl hs)
  rw [rootSlots_tiled, nil_append] at K
  rw [Assembly.onStatementEnd, bind_eq h₁, hempty, if_neg Bool.false_ne_true]
  simp only [get_bind, modifyTree_bind, forM_stage_bind, setLastEnd_bind, finishStatement_bind]
  exact ⟨_, rfl, _, ⟨⟨{ K.keeps with fragments := ha.symm }, rfl, K.staged, K.stands⟩, hlisted⟩,
    oneStatement_operands ho', rfl⟩

/-! ## Other statements without statements inside -/

theorem Stacks.stageNew_stages (H : Stacks a b .nil m) {c : Construct} (hb : b.lastEnd = a.lastEnd)
    (hlt : a.lastEnd < e.offset) (hw : m.Within a.lastEnd e.offset) (hs : Operands m)
    (hc : ∀ s, Shape tokens (Entry.fresh s c ⟨a.lastEnd, e.offset⟩).node m.roots) (hst : c.tag.isStatement = true)
    (hne : c.tag ≠ .scope) :
    ∃ b', Assembly.stageNew e c m.rootSlots b = .ok () b' ∧ StagesOne tokens a b' e.offset := by
  obtain ⟨b', hd, K, hend⟩ := H.stageNew (e := e) c
  rw [hb] at K
  refine ⟨b', hd, _, ⟨K, ?_⟩, oneStatement_tree (.of_tag hst hne), hend⟩
  rw [hend]
  exact .tree hlt hw (hc _) hs.marked (shaped_of_operands hs)

theorem Ready.onEmptyStatement (ha : Ready a) (hlt : a.lastEnd < e.offset) :
    ∃ b', Assembly.onEmptyStatement e a = .ok () b' ∧ StagesOne tokens a b' e.offset := by
  rw [Assembly.onEmptyStatement, bind_eq ha.stacked.expectNoOperands]
  exact Stacks.stageNew_stages (m := .nil) ha.stacked rfl hlt hlt.le (by simp) (fun _ => rfl) rfl
    (fun h => by cases h)

theorem Ready.onJump (ha : Ready a) (hlt : a.lastEnd < e.offset) {j : Jump} (hj : Jump.ofKeyword? e.literal = some j) :
    ∃ b', Assembly.onJump e a = .ok () b' ∧ StagesOne tokens a b' e.offset := by
  obtain ⟨b', hd, f', H, hst, hend⟩ : ∃ b', stageNew e (.jump j) [] a = .ok () b' ∧ StagesOne tokens a b' e.offset :=
    Stacks.stageNew_stages (m := .nil) ha.stacked rfl hlt hlt.le (by simp) (fun _ => ⟨hlt, rfl⟩) rfl
      (fun h => by cases h)
  simp only [Assembly.onJump, hj]
  exact ⟨_, bind_ok.2 ⟨_, _, ha.stacked.expectNoOperands, bind_ok.2 ⟨_, _, hd, rfl⟩⟩, f', H.logged _, hst, hend⟩

/-- The value of a `return` is an operand that stands alone, or there is none. -/
theorem Holding.onReturn (H : Holding a b a.lastEnd p f .nil) (hp : p ≤ e.offset) (hlt : a.lastEnd < e.offset)
    (hq : ∀ span ∈ f.hull, ∃ y, Quotes tokens "return" y ⟨a.lastEnd, e.offset⟩ span)
    (ht : f ≠ .nil → Term.Topped [] f.terms) :
    ∃ b', Assembly.onReturn e b = .ok () b' ∧ StagesOne tokens a b' e.offset := by
  obtain ⟨m, b₁, value?, K, hroots, hq, hd⟩ : ∃ m b₁ value?, Holding a b₁ a.lastEnd p .nil m ∧
      m.rootSlots = value?.toList ∧
      (∀ k ∈ m.roots, ∃ y, Quotes tokens "return" y ⟨a.lastEnd, e.offset⟩ k.node.span) ∧
      Assembly.onReturn e b = (do
        stageNew e (.returned value?) value?.toList
        report .returned e.offset (if value?.isSome then "with value" else "bare") : Step Unit) b₁ := by
    by_cases hf : f = .nil
    · subst hf
      refine ⟨.nil, b, none, H, rfl, by simp, ?_⟩
      rw [Assembly.onReturn, get_bind, H.stacked.hasOperands]
      rfl
    · obtain ⟨t, l, x, d, h₁, K, hhull, -⟩ := H.popSingle (e := e) (ht hf)
      rw [append_nil, append_nil] at hhull
      refine ⟨Forest.tree x d ++ .nil, _, some x.slot, K, rfl, by simpa using hq x.node.span hhull.symm, ?_⟩
      rw [Assembly.onReturn, get_bind, if_pos (H.hasOperands.2 hf)]
      exact bind_eq h₁ _
  have ho : Operands m := K.operands
  obtain ⟨b₂, h₂, f', K', hst, hend⟩ : ∃ b₂, Assembly.stageNew e (.returned value?) m.rootSlots b₁ = .ok () b₂ ∧
      StagesOne tokens a b₂ e.offset :=
    K.stacked.stageNew_stages K.lastEnd hlt (K.within.mono le_rfl hp) ho
      (fun s => ⟨hlt, hroots, fun k hk => ⟨ho k (mem_members_of_mem_roots hk), hq k hk⟩⟩) rfl nofun
  rw [hd, ← hroots]
  exact ⟨_, bind_ok.2 ⟨_, _, h₂, rfl⟩, f', K'.logged _, hst, hend⟩

/-! ## Deferred statements -/

/-- What has been noted of a deferred statement whose operation is to come. -/
def deferring (a : Assembly) : Assembly :=
  { a with
    waitingDefers := ⟨⟨a.tree.size⟩, a.height⟩ :: a.waitingDefers
    modes := .deferredOperation :: a.modes }

theorem Ready.deferring (ha : Ready a) : Ready a.deferring := ⟨ha.base, ha.fragments, nofun⟩

theorem Ready.onDeferHeader (ha : Ready a) (e : Event) :
    ∃ b, Assembly.onDeferHeader e a = .ok () b ∧ b.lastEnd = e.offset ∧
      Stacks a.deferring b .nil (Forest.tree (.fresh ⟨a.tree.size⟩ .deferred ⟨a.lastEnd, a.lastEnd⟩) .nil) := by
  have H := ha.stacked.bundle .deferred ⟨a.lastEnd, a.lastEnd⟩
  exact ⟨_, bind_ok.2 ⟨_, _, ha.stacked.expectNoOperands, rfl⟩, rfl, ⟨rfl, rfl, rfl, H.keeps.fragments, H.keeps.tree⟩,
    H.base, H.staged, H.stands⟩

/-- The last steps of `onDeferred`: the deferred statement `s` takes its operation. -/
def recordDeferred (e : Event) (s operation : Slot) : Step Unit := do
  attach s operation
  modifyTree fun t => t.setSpan s ⟨(t.span s).start, e.offset⟩
  stageStatement s
  setLastEnd e.offset
  report .deferred e.offset "deferred operation recorded"

theorem Stacks.finishDefer {span : Span}
    (H : Stacks a b .nil (Forest.tree (.fresh s .deferred span) .nil ++ Forest.tree x d))
    (hspan : span.start = a.lastEnd)
    (hlt : a.lastEnd < e.offset) (hk : DeferWithin tokens ⟨a.lastEnd, e.offset⟩)
    (hw : (Forest.tree x d).Within a.lastEnd e.offset) (hs : Shaped tokens (Forest.tree x d))
    (hx : (x.node.tag.isOperand = true ∧ ∃ y : Bare, Quotes tokens "defer" y.1 ⟨a.lastEnd, e.offset⟩ x.node.span) ∨
      x.node.tag = .scope) :
    ∃ b', recordDeferred e s x.slot b = .ok () b' ∧ StagesOne tokens a b' e.offset := by
  have hs₁ := Tree.Stands.attach (f := .nil) (g := .nil) H.stands
  have hs₂ := Tree.Stands.setSpan (g := .nil) hs₁ rfl ⟨span.start, e.offset⟩
  have hstart : (b.tree.attach s x.slot).span s = span :=
    hs₁.holds.span_eq (e := .fresh s .deferred span) (by simp)
  have hlow : a.tree.size ≤ s.index := (H.stands.bound s (by simp)).1
  have hlow' : a.tree.size ≤ x.slot.index := (H.stands.bound x.slot (by simp)).1
  have K := Stacks.stage (h := .nil) (H.retree (g := .nil) (.trans (.attach hlow hlow') (.modify _ hlow)) rfl hs₂)
  have hm : (Forest.tree x d).Marked false := marked_of_tag_ne fun k hk hl => by
    obtain rfl : k = x := by simpa using hk
    rcases hx with ⟨hx, -⟩ | hx <;> simp [hl, Construct.Tag.isOperand] at hx
  simp only [hspan] at K
  simp only [recordDeferred, attach_bind, modifyTree_bind, stageStatement_bind, setLastEnd_bind, hstart, hspan]
  exact ⟨_, rfl, _, ⟨⟨{ K.keeps with }, rfl, K.staged, K.stands⟩, .tree hlt hw ⟨hlt, hk, x, rfl, hx⟩ hm hs⟩,
    oneStatement_tree (.of_tag rfl (by intro h; cases h)), rfl⟩

/-- The assembly in which the innermost deferred statement `w` looks for its operation. -/
def resuming (b : Assembly) (w : Frame) (ws : List Frame) (ms : List Mode) : Assembly :=
  { b with waitingDefers := ws, modes := ms, statementBase := w.base }

theorem onDeferred_eq {w : Frame} {ws : List Frame} {ms : List Mode} (hm : b.modes = .deferredOperation :: ms)
    (hw : b.waitingDefers = w :: ws) (h : popSingle e (b.resuming w ws ms) = .ok s b') :
    onDeferred e b = recordDeferred e w.slot s b' := by
  have hmode : b.mode = .deferredOperation := by simp [mode, hm]
  simp only [onDeferred, get_bind, hmode, hw, hm, set_bind, List.tail_cons, if_true]
  exact bind_eq h _

theorem popSingle_lone {rest : List Slot} (hs : b.staged = s :: rest) (hb : b.statementBase = rest.length)
    (ht : b.tree.tag s ≠ .unary) : popSingle e b = .ok s { b with staged := rest } := by
  have htop : topOperand? b = some s := by simp [topOperand?, hasOperands, height, hs, hb]
  have hno : hasOperands { b with staged := rest } = false := by simp [hasOperands, height, hb]
  have hraw : popRaw e b = .ok s { b with staged := rest } := by
    simp only [popRaw, get_bind, htop, set_bind, hs, List.tail_cons]
    cases hc : b.tree.construct s with
    | unary => exact absurd (congrArg Construct.tag hc) ht
    | _ => rfl
  refine bind_ok.2 ⟨s, _, bind_ok.2 ⟨_, _, hraw, applyWaiting_none s ?_⟩, bind_ok.2 ⟨(), _, ?_, rfl⟩⟩
  · rw [topOperand?, hno]
    rfl
  · rw [Assembly.expectNoOperands, get_bind, hno]
    rfl

theorem Stacks.undefer (H : Stacks a.deferring b f h) :
    Stacks a { b with waitingDefers := a.waitingDefers, modes := a.modes } f h :=
  ⟨⟨H.keeps.scopes, rfl, rfl, H.keeps.fragments, H.keeps.tree⟩, H.base, H.staged, H.stands⟩

/-- What is on the stage when an expression has been read for a deferred statement. -/
theorem Holding.resuming {n : Assembly} {m : Forest Entry} (H : Stacks a.deferring n .nil m)
    (K : Holding n b lo hi f .nil) :
    Holding { n with waitingDefers := a.waitingDefers, modes := a.modes }
      (b.resuming ⟨⟨a.tree.size⟩, a.height⟩ a.waitingDefers a.modes) lo hi f .nil :=
  ⟨⟨K.keeps.scopes, rfl, rfl, K.keeps.fragments, K.keeps.tree⟩, K.lastEnd, congrArg List.length H.staged.symm,
    K.staged, K.stands, K.within, K.operands⟩

theorem Stages.deferBlock {n : Assembly}
    (H : Stacks a.deferring n .nil (Forest.tree (.fresh ⟨a.tree.size⟩ .deferred ⟨a.lastEnd, a.lastEnd⟩) .nil))
    (hlt : a.lastEnd < n.lastEnd) (hk : DeferWithin tokens ⟨a.lastEnd, n.lastEnd⟩)
    (K : Stages tokens n b (Forest.tree x d)) (hx : x.node.tag = .scope) (hend : b.lastEnd = e.offset) :
    ∃ b', Assembly.onDeferred e b = .ok () b' ∧ StagesOne tokens a b' e.offset := by
  have hstaged : b.staged = x.slot :: a.staged := K.stacked.staged.trans (congrArg _ H.staged)
  have htag : b.tree.tag x.slot = .scope :=
    (congrArg Construct.tag (K.stacked.stands.holds.construct_eq (by simp))).trans hx
  have hpop := popSingle_lone (e := e) (b := b.resuming ⟨⟨a.tree.size⟩, a.height⟩ a.waitingDefers a.modes) hstaged rfl
    (fun h => by rw [resuming, htag] at h; cases h)
  rw [onDeferred_eq (K.stacked.keeps.modes.trans H.keeps.modes)
    (K.stacked.keeps.waitingDefers.trans H.keeps.waitingDefers) hpop]
  have K' : Stacks { n with waitingDefers := a.waitingDefers, modes := a.modes }
      { b.resuming ⟨⟨a.tree.size⟩, a.height⟩ a.waitingDefers a.modes with staged := a.staged } .nil (Forest.tree x d) :=
    ⟨⟨K.stacked.keeps.scopes, rfl, rfl, K.stacked.keeps.fragments, K.stacked.keeps.tree⟩, rfl, H.staged.symm,
      K.stacked.stands⟩
  have hw : (Forest.tree x d).Within n.lastEnd e.offset := hend ▸ K.listed.within
  have hle := hw.le
  obtain ⟨t, ht, hword, hstart, hstop⟩ := hk
  exact (H.undefer.append K').finishDefer rfl (by omega) ⟨t, ht, hword, hstart, hstop.trans hle⟩
    (hw.mono (by omega) le_rfl) K.listed.shaped (.inr hx)

end Deferral.Assembly
