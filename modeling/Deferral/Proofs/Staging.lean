import Deferral.Proofs.Terms

/-!
# Operands on the stage

While a statement is read, its operands wait on the stage. `Holding` says what they are: a forest of operands in new
slots whose text is in order. The terms of the forest are a stack, and the stage does what `Push` says: each event of an
expression that finds its operands on the stack is taken (`Holding.step`), so all are (`Holding.run`). The events also
give the text of all operands together (`Event.widen`).
-/

namespace Deferral

variable {n : Nat} {s : Suffix}

/-- Where the text of a leaf starts. -/
def Event.leafStart (e : Event) : Nat := e.start?.getD (e.offset - e.literal.utf8ByteSize)

/-- Where the text that an event adds starts; an event that is no leaf adds none before its end. -/
def Event.start (e : Event) : Nat := if e.kind.isLeaf then e.leafStart else e.offset

/-- The text of what is staged after an event, given what it was before. Two operands that are combined are staged
already; all other events make the text end where they do. -/
def Event.widen (e : Event) (s? : Option Span) : Option Span :=
  if e.kind.isConnective then s? else Span.over s? (some ⟨e.start, e.offset⟩)

/-- The text of what is staged after some events. -/
def widenAll (es : List Event) (s? : Option Span) : Option Span := es.foldl (fun s? e => e.widen s?) s?

@[simp] theorem widenAll_nil (s? : Option Span) : widenAll [] s? = s? := rfl

@[simp] theorem widenAll_cons (e : Event) (es : List Event) (s? : Option Span) :
    widenAll (e :: es) s? = widenAll es (e.widen s?) := rfl

@[simp] theorem widenAll_append (es es' : List Event) (s? : Option Span) :
    widenAll (es ++ es') s? = widenAll es' (widenAll es s?) := List.foldl_append ..

theorem Event.widen_leaf {e : Event} (h : e.kind.isLeaf = true) (s? : Option Span) :
    e.widen s? = Span.over s? (some ⟨e.start, e.offset⟩) := by
  unfold widen
  generalize e.kind = kind at h
  cases kind <;> first | rfl | cases h

theorem Event.widen_connective {e : Event} (h : e.kind.isConnective = true) (s? : Option Span) : e.widen s? = s? :=
  if_pos h

theorem Event.widen_compound {e : Event} (h : e.kind.isCompound = true) (h' : e.kind.isConnective = false)
    (s? : Option Span) : e.widen s? = Span.over s? (some ⟨e.offset, e.offset⟩) := by
  have hl : e.kind.isLeaf = false := by
    generalize e.kind = kind at h
    cases kind <;> first | rfl | cases h
  simp [widen, start, h', hl]

namespace Assembly

open Forest Grammar

/-! ## Events that are taken -/

/-- All events are taken, which leads from `a` to `a'`. -/
def Takes (a : Assembly) (es : List Event) (a' : Assembly) : Prop := a.handleAll es = (a', none)

section Takes

variable {a a' : Assembly} {e : Event} {es es' : List Event}

theorem takes_nil : Takes a [] a' ↔ a' = a := by
  simp [Takes, handleAll, eq_comm]

theorem Takes.cons (h : Takes a (e :: es) a') : ∃ a₁, dispatch e a = .ok () a₁ ∧ Takes a₁ es a' := by
  simp only [Takes, handleAll, handle] at h
  cases hf : a.failure? with
  | some f => simp [hf] at h
  | none =>
    cases hd : dispatch e a with
    | ok _ a₁ => exact ⟨a₁, rfl, by simpa [hf, hd, Takes] using h⟩
    | error halt a₁ => cases halt <;> simp [hf, hd] at h

theorem Takes.one (h : Takes a [e] a') : dispatch e a = .ok () a' := by
  obtain ⟨a₁, h, hn⟩ := h.cons
  rwa [takes_nil.1 hn]

theorem Takes.of_dispatch (ha : a.failure? = none) (h : dispatch e a = .ok () a') : Takes a [e] a' := by
  simp [Takes, handleAll, handle, ha, h]

theorem takes_append : ∀ {es : List Event} {a : Assembly},
    Takes a (es ++ es') a' ↔ ∃ a₁, Takes a es a₁ ∧ Takes a₁ es' a'
  | [], a => by simp [takes_nil]
  | e :: es, a => by
    simp only [Takes, List.cons_append, handleAll]
    cases he : a.handle e with
    | mk a₁ halt? =>
      cases halt? with
      | some halt => simp
      | none => exact takes_append

theorem Takes.trans {a₁ : Assembly} (h : Takes a es a₁) (h' : Takes a₁ es' a') : Takes a (es ++ es') a' :=
  takes_append.2 ⟨a₁, h, h'⟩

end Takes

/-! ## What a statement leaves alone -/

/-- `b` is `a` with more nodes, apart from the stage and the end of the last statement. -/
structure Keeps (a b : Assembly) : Prop where
  scopes : b.scopes = a.scopes
  modes : b.modes = a.modes
  waitingDefers : b.waitingDefers = a.waitingDefers
  fragments : b.fragments = a.fragments
  tree : Tree.SameBelow a.tree.size a.tree b.tree

namespace Keeps

variable {a b c : Assembly}

theorem refl (a : Assembly) : Keeps a a := ⟨rfl, rfl, rfl, rfl, .refl _ _⟩

theorem trans (h : Keeps a b) (h' : Keeps b c) : Keeps a c where
  scopes := h'.scopes.trans h.scopes
  modes := h'.modes.trans h.modes
  waitingDefers := h'.waitingDefers.trans h.waitingDefers
  fragments := h'.fragments.trans h.fragments
  tree := h.tree.trans (h'.tree.mono h.tree.size)

end Keeps

/-! ## New nodes -/

section Steps

variable {β : Type} {b : Assembly}

theorem newNode_bind (c : Construct) (span : Span) (k : Slot → Step β) :
    (newNode c span >>= k) b = k ⟨b.tree.size⟩ { b with tree := (b.tree.push c span).2 } := rfl

theorem attach_bind (s u : Slot) (k : Unit → Step β) :
    (attach s u >>= k) b = k () { b with tree := b.tree.attach s u } := rfl

theorem getTree_bind (k : Tree → Step β) : (getTree >>= k) b = k b.tree b := rfl

theorem modifyTree_apply (change : Tree → Tree) : modifyTree change b = .ok () { b with tree := change b.tree } := rfl

theorem modifyTree_bind (change : Tree → Tree) (k : Unit → Step β) :
    (modifyTree change >>= k) b = k () { b with tree := change b.tree } := rfl

theorem stage_apply (s : Slot) : stage s b = .ok () { b with staged := s :: b.staged } := rfl

theorem forM_attach (s : Slot) : ∀ (us : List Slot) (b : Assembly),
    us.forM (attach s) b = .ok () { b with tree := b.tree.attachAll s us }
  | [], _ => rfl
  | u :: us, b => forM_attach s us { b with tree := b.tree.attach s u }

theorem forM_attach_bind (s : Slot) (us : List Slot) (k : Unit → Step β) :
    (us.forM (attach s) >>= k) b = k () { b with tree := b.tree.attachAll s us } := by
  change EStateM.bind _ _ _ = _
  rw [EStateM.bind, forM_attach]

end Steps

/-! ## Trees on the stage -/

/-- The assembly with another tree and another stage. -/
def put (b : Assembly) (t : Tree) (staged : List Slot) : Assembly := { b with tree := t, staged := staged }

/-- The assembly after a node has been staged, with `ss` below it. -/
def bundled (b : Assembly) (c : Construct) (span : Span) (ss : List Slot) : Assembly :=
  b.put ((b.tree.push c span).2.attachAll ⟨b.tree.size⟩ ss) (⟨b.tree.size⟩ :: b.staged)

/-- On top of `under`, the trees of `f` are operands of the current statement, and those of `h` are in hand. -/
structure Piled (low : Nat) (under : List Slot) (b : Assembly) (f h : Forest Entry) : Prop where
  base : b.statementBase ≤ under.length
  staged : b.staged = f.rootSlots.reverse ++ under
  stands : b.tree.Stands none low (f ++ h)
  plain : (f ++ h).Every fun e _ => e.Plain
  low : low ≤ b.tree.size

theorem isWaiting_eq (t : Tree) (s : Slot) : isWaiting t s = (t.construct s).waits := by
  unfold isWaiting Construct.waits
  rfl

theorem applyWaiting_none {b : Assembly} (s : Slot) (h : topOperand? b = none) :
    applyWaiting n s b = .ok s b := by
  cases n with
  | zero => rfl
  | succ n => simp only [applyWaiting, get_bind, h]; rfl

namespace Piled

variable {low : Nat} {under : List Slot} {b : Assembly} {f g h m d : Forest Entry} {y : Entry} {e : Event}

theorem topOperand? (P : Piled low under b (g ++ Forest.tree y d) h) : Assembly.topOperand? b = some y.slot := by
  have hbase := P.base
  have ho : b.hasOperands = true := by
    rw [Assembly.hasOperands, height, P.staged]
    simp
    omega
  rw [Assembly.topOperand?, if_pos ho, P.staged]
  simp

theorem unstage (P : Piled low under b (g ++ Forest.tree y d) h) :
    Piled low under (b.put b.tree b.staged.tail) g (Forest.tree y d ++ h) where
  base := P.base
  staged := by simp [put, P.staged]
  stands := append_assoc g _ h ▸ P.stands
  plain := append_assoc g _ h ▸ P.plain
  low := P.low

theorem retree (P : Piled low under b f h) {t : Tree} {m : Forest Entry} (hs : t.Stands none low (f ++ m))
    (hp : m.Every fun e _ => e.Plain) (hsize : b.tree.size ≤ t.size) : Piled low under (b.put t b.staged) f m where
  base := P.base
  staged := P.staged
  stands := hs
  plain := every_append.2 ⟨(every_append.1 P.plain).1, hp⟩
  low := P.low.trans hsize

theorem construct_eq (P : Piled low under b (g ++ Forest.tree y d) h) : b.tree.construct y.slot = y.node.construct :=
  P.stands.holds.construct_eq (by simp)

theorem popRaw (P : Piled low under b (g ++ Forest.tree y d) h) (hy : y.node.construct.waits = false) :
    Assembly.popRaw e b = .ok y.slot (b.put b.tree b.staged.tail) := by
  rw [← P.construct_eq] at hy
  rw [Assembly.popRaw, get_bind]
  simp only [P.topOperand?, set_bind]
  cases hc : b.tree.construct y.slot with
  | unary op operand? =>
    cases operand? with
    | none => rw [hc] at hy; cases hy
    | some => rfl
  | _ => rfl

theorem applyOperator {o : Entry} {bo : Forest Entry} {op : String}
    (P : Piled low under b g (Forest.tree o bo ++ (Forest.tree y d ++ h))) (ho : o.node.construct = .unary op none) :
    ∃ t, Assembly.applyOperator o.slot y.slot b = .ok () (b.put t b.staged) ∧ Tree.SameBelow low b.tree t ∧
      Piled low under (b.put t b.staged) g
        (Forest.tree (.fresh o.slot (.unary op (some y.slot)) (o.node.span.merge y.node.span))
          (bo ++ Forest.tree y d) ++
          h) := by
  obtain ⟨-, ⟨hplain, hbo⟩, ⟨hy, hd⟩, hh⟩ : _ ∧ (o.Plain ∧ _) ∧ (y.Plain ∧ _) ∧ _ := by
    simpa only [every_append, every_tree] using P.plain
  have h₁ := P.stands.attach
  have h₂ := h₁.setConstruct hplain (.unary op (some y.slot))
  have h₃ := h₂.setSpan rfl (o.node.span.merge y.node.span)
  have hc : (b.tree.attach o.slot y.slot).construct o.slot = .unary op none :=
    (h₁.holds.construct_eq (by simp)).trans ho
  have hs : ((b.tree.attach o.slot y.slot).setConstruct o.slot (.unary op (some y.slot))).span o.slot = o.node.span :=
    h₂.holds.span_eq (e := .fresh o.slot (.unary op (some y.slot)) o.node.span) (by simp)
  have hlow : low ≤ o.slot.index := (P.stands.bound _ (by simp)).1
  have hlow' : low ≤ y.slot.index := (P.stands.bound _ (by simp)).1
  refine ⟨_, ?_, ?_, P.retree h₃ ?_ ?_⟩
  · simp only [Assembly.applyOperator, attach_bind, modifyTree_apply, hc, hs, h₂.holds.span_eq (e := y) (by simp)]
    rfl
  · exact ((Tree.SameBelow.attach hlow hlow').trans (.modify _ hlow)).trans (.modify _ hlow)
  · simp only [every_append, every_tree]
    exact ⟨⟨Entry.plain_fresh .., hbo, hy, hd⟩, hh⟩
  · simp [Tree.setSpan, Tree.setConstruct, Tree.size_attach]

theorem bundle (P : Piled low under b f m) (c : Construct) (span : Span) :
    Piled low under (b.bundled c span m.rootSlots) (f ++ Forest.tree (.fresh ⟨b.tree.size⟩ c span) m) .nil where
  base := P.base
  staged := by simp [bundled, put, P.staged]
  stands := by
    have hs := P.stands.push P.low c span
    rw [append_assoc] at hs
    simpa [bundled, put] using (Tree.Stands.swap (d := .nil) hs).attachAll
  plain := by
    have hp := P.plain
    simp only [every_append, every_tree, every_nil, and_true] at hp ⊢
    exact ⟨hp.1, Entry.plain_fresh .., hp.2⟩
  low := by
    have hsame : Tree.SameBelow 0 (b.tree.push c span).2
        ((b.tree.push c span).2.attachAll ⟨b.tree.size⟩ m.rootSlots) :=
          .attachAll (Nat.zero_le _) fun _ _ => Nat.zero_le _
    have := hsame.size
    have := P.low
    simp only [Tree.size_push, bundled, put] at *
    omega

theorem onArraySuffix {type name : String} {isReference : Bool} (P : Piled low under b (g ++ Forest.tree y d) h)
    (hy : y.node.construct = .declaration type name isReference) :
    ∃ t, Assembly.onArraySuffix e b = .ok () (b.put t b.staged) ∧ Tree.SameBelow low b.tree t ∧
      Piled low under (b.put t b.staged)
        (g ++ Forest.tree (.fresh y.slot (.declaration (type ++ e.literal) name isReference)
          ⟨y.node.span.start, e.offset⟩)
          d) h := by
  have hp := P.plain
  simp only [every_append, every_tree] at hp
  obtain ⟨⟨hg, hplain, hd⟩, hh⟩ := hp
  have hspan : b.tree.span y.slot = y.node.span := P.stands.holds.span_eq (by simp)
  have hlow : low ≤ y.slot.index := (P.stands.bound _ (by simp)).1
  have hst := P.stands
  rw [append_assoc] at hst
  replace hst := (hst.setConstruct hplain (.declaration (type ++ e.literal) name isReference)).setSpan rfl
    ⟨y.node.span.start, e.offset⟩
  rw [← append_assoc] at hst
  refine ⟨_, ?_, (Tree.SameBelow.modify _ hlow).trans (.modify _ hlow), ⟨P.base, ?_, hst, ?_, ?_⟩⟩
  · simp only [Assembly.onArraySuffix, get_bind, P.topOperand?, P.construct_eq, hy, modifyTree_apply, hspan]
    rfl
  · simpa [put] using P.staged
  · simp only [every_append, every_tree]
    exact ⟨⟨hg, Entry.plain_fresh .., hd⟩, hh⟩
  · simpa [put, Tree.setSpan, Tree.setConstruct] using P.low

end Piled

theorem Piled.hasOperands {low : Nat} {under : List Slot} {b : Assembly} {f h : Forest Entry}
    (P : Piled low under b f h) (hb : b.statementBase = under.length) : b.hasOperands = true ↔ f ≠ .nil := by
  rw [Assembly.hasOperands, hb, height, P.staged]
  cases f with
  | nil => simp
  | node => simp; omega

theorem leafSpan_ok {b b' : Assembly} {p : Nat} {e : Event} {span : Span} (h : leafSpan e b = .ok span b')
    (hp : LeafAfter p e) :
    b' = b ∧ p ≤ span.start ∧ span.start ≤ span.stop ∧ span.stop = e.offset ∧ span.start = e.leafStart := by
  unfold leafSpan at h
  split at h
  · simp [invalidLiteral, fail, throw_apply] at h
  unfold LeafAfter at hp
  rw [Event.leafStart]
  cases hs : e.start? with
  | some | none =>
    simp only [hs] at h hp
    split at h
    · cases h
      exact ⟨rfl, by simp only; omega, by simp only; omega, rfl, rfl⟩
    · simp [invalidLiteral, fail, throw_apply] at h

/-! ## Events that stage a node -/

section Nodes

variable {low : Nat} {under : List Slot} {b b₁ b₂ : Assembly} {f m d k : Forest Entry} {y z : Entry} {e : Event}

theorem dispatch_leaf {c : Construct} {span : Span} (hc : e.leaf? = some c) (hs : leafSpan e b = .ok span b) :
    dispatch e b = .ok () (b.bundled c span []) := by
  have hd : dispatch e = onLeaf e c := by
    unfold Event.leaf? at hc
    unfold dispatch
    split at hc <;> cases hc <;> simp only [*]
  rw [hd]
  exact bind_ok.2 ⟨_, _, hs, rfl⟩

theorem dispatch_connective (hk : e.kind.isConnective = true) : dispatch e = onBinary e := by
  unfold dispatch
  generalize e.kind = kind at hk
  cases kind <;> first | rfl | cases hk

theorem dispatch_suffix (hs : e.suffix? = some (s, n)) : dispatch e = (do
    let operands ← popOperands e n []
    let base ← popRaw e
    stageSuffixed e s base operands) := by
  unfold Event.suffix? at hs
  split at hs
  case h_1 hk =>
    obtain ⟨count, hcount, h⟩ := Option.map_eq_some_iff.1 hs
    cases h
    simp only [dispatch, hk, onCall, countOf, hcount]
    rfl
  case h_2 hk =>
    cases hs
    simp only [dispatch, hk, onIndex, popOperands, bind_assoc, pure_bind]
  case h_3 hk | h_4 hk =>
    obtain ⟨suffix, hsuffix, h⟩ := Option.map_eq_some_iff.1 hs
    cases h
    simp only [dispatch, hk, onMember, onIncrement, hsuffix]
    rfl
  case h_5 => cases hs

namespace Piled

/-- An operator connects two operands, the right one of which is taken first. -/
theorem connect (P : Piled low under b₂ f (Forest.tree z k ++ Forest.tree y d)) (he : e.kind.isConnective = true)
    (hop : e.literal.isEmpty = false) (hy : Assembly.popOperand e b = .ok y.slot b₁)
    (hz : Assembly.popOperand e b₁ = .ok z.slot b₂) :
    dispatch e b = .ok () (b₂.bundled (.binary e.literal z.slot y.slot) (z.node.span.merge y.node.span)
      (Forest.tree z k ++ Forest.tree y d).rootSlots) := by
  have hspan : b₂.tree.span z.slot = z.node.span := P.stands.holds.span_eq (by simp)
  have hspan' : b₂.tree.span y.slot = y.node.span := P.stands.holds.span_eq (by simp)
  rw [Assembly.dispatch_connective he]
  simp only [onBinary, hop]
  refine bind_ok.2 ⟨_, _, hy, bind_ok.2 ⟨_, _, hz, ?_⟩⟩
  rw [getTree_bind, newNode_bind, attach_bind, attach_bind, stage_apply, hspan, hspan']
  rfl

/-- A suffix takes its operands, and then what it applies to. -/
theorem suffix (P : Piled low under b₂ f (Forest.tree y d ++ m)) (hs : e.suffix? = some (s, n))
    (hm : popOperands e n [] b = .ok m.rootSlots b₁) (hy : Assembly.popRaw e b₁ = .ok y.slot b₂) :
    dispatch e b = .ok () (b₂.bundled (.suffixed s y.slot) ⟨y.node.span.start, e.offset⟩
      (Forest.tree y d ++ m).rootSlots) := by
  rw [dispatch_suffix hs]
  refine bind_ok.2 ⟨_, _, hm, bind_ok.2 ⟨_, _, hy, ?_⟩⟩
  simp only [stageSuffixed, getTree_bind, newNode_bind, attach_bind, forM_attach_bind, stage_apply]
  rw [P.stands.holds.span_eq (e := y) (by simp)]
  rfl

/-- A list of initializers starts where the first of them does. -/
theorem list (P : Piled low under b₁ f m) (hk : e.kind = .initializerList) (hn : count? e.literal = some n)
    (hm : popOperands e n [] b = .ok m.rootSlots b₁) :
    dispatch e b = .ok () (b₁.bundled .initializerList
      ⟨(m.roots.head?.map (·.node.span.start)).getD e.offset, e.offset⟩ m.rootSlots) := by
  have hstart : (m.rootSlots.head?.map fun s => (b₁.tree.span s).start) = m.roots.head?.map (·.node.span.start) := by
    rw [rootSlots, List.head?_map, Option.map_map]
    refine Option.map_congr fun y hy => ?_
    have hmem : y ∈ (f ++ m).members := by simp [mem_members_of_mem_roots (List.mem_of_mem_head? hy)]
    simp [P.stands.holds.span_eq hmem]
  simp only [dispatch, hk, onInitializerList, countOf, hn]
  refine bind_ok.2 ⟨_, _, rfl, bind_ok.2 ⟨_, _, hm, ?_⟩⟩
  rw [getTree_bind, newNode_bind, forM_attach_bind, stage_apply, hstart]
  rfl

end Piled

end Nodes

/-! ## Operands of a statement -/

/-- Since `a`, the operands `f` have been staged and the trees of `h` have been taken from the stage. Their text lies
between `lo` and `hi`. -/
structure Holding (a b : Assembly) (lo hi : Nat) (f h : Forest Entry) : Prop where
  keeps : Keeps a b
  lastEnd : b.lastEnd = a.lastEnd
  base : b.statementBase = a.height
  staged : b.staged = f.rootSlots.reverse ++ a.staged
  stands : b.tree.Stands none a.tree.size (f ++ h)
  within : (f ++ h).Within lo hi
  operands : Operands (f ++ h)

namespace Holding

variable {a b : Assembly} {lo hi hi' p : Nat} {f h m : Forest Entry} {e : Event} {x : Term} {xs ys : List Term}

theorem piled (H : Holding a b lo hi f h) : Piled a.tree.size a.staged b f h where
  base := H.base.le
  staged := H.staged
  stands := H.stands
  plain := every_of_members fun e he => (H.operands e he).plain
  low := H.keeps.tree.size

theorem mono (H : Holding a b lo p f h) (hp : p ≤ hi) : Holding a b lo hi f h :=
  { H with within := H.within.mono le_rfl hp }

theorem hasOperands (H : Holding a b lo hi f h) : b.hasOperands = true ↔ f ≠ .nil := H.piled.hasOperands H.base

theorem put (H : Holding a b lo hi f h) {t : Tree} {l : List Slot} {f' h' : Forest Entry} {hi' : Nat}
    (P : Piled a.tree.size a.staged (b.put t l) f' h') (ht : Tree.SameBelow a.tree.size b.tree t)
    (hw : (f' ++ h').Within lo hi') (ho : Operands (f' ++ h')) : Holding a (b.put t l) lo hi' f' h' :=
  ⟨{ H.keeps with tree := H.keeps.tree.trans ht }, H.lastEnd, H.base, P.staged, P.stands, hw, ho⟩

theorem unstage {g d : Forest Entry} {x : Entry} (H : Holding a b lo hi (g ++ Forest.tree x d) h) :
    Holding a (b.put b.tree b.staged.tail) lo hi g (Forest.tree x d ++ h) :=
  H.put H.piled.unstage (.refl _ _) (append_assoc g _ h ▸ H.within) (append_assoc g _ h ▸ H.operands)

/-! ### Taking operands -/

theorem popRaw (H : Holding a b lo hi f h) (hf : f.terms = x :: xs) (hx : x.waits = false) :
    ∃ g y d, Assembly.popRaw e b = .ok y.slot (b.put b.tree b.staged.tail) ∧ f = g ++ Forest.tree y d ∧
      Holding a (b.put b.tree b.staged.tail) lo hi g (Forest.tree y d ++ h) ∧ y.term d = x ∧ g.terms = xs := by
  obtain ⟨g, y, d, rfl, rfl, hg⟩ := exists_last_term hf
  refine ⟨g, y, d, H.piled.popRaw ?_, rfl, H.unstage, rfl, hg⟩
  rw [← Construct.waits_bare]
  exact hx

theorem applyOperator {g bo d : Forest Entry} {o y : Entry} {op : String}
    (H : Holding a b lo hi g (Forest.tree o bo ++ (Forest.tree y d ++ h))) (hc : o.node.construct = .unary op none) :
    ∃ t, Assembly.applyOperator o.slot y.slot b = .ok () (b.put t b.staged) ∧
      Holding a (b.put t b.staged) lo hi g (Forest.tree (.fresh o.slot (.unary op (some y.slot))
        ⟨o.node.span.start, y.node.span.stop⟩) (bo ++ Forest.tree y d) ++ h) := by
  obtain ⟨hg, ho, hbo, hy, hd, hh⟩ :
      Operands g ∧ Operand o ∧ Operands bo ∧ Operand y ∧ Operands d ∧ Operands h := by simpa using H.operands
  obtain ⟨t, ht, hsame, P⟩ := H.piled.applyOperator hc
  obtain ⟨m, hgw, hw⟩ := exists_within_of_append H.within
  rw [ho.merge_eq hy hw] at P
  refine ⟨t, ht, H.put P hsame ?_ ?_⟩
  · rw [tree_append, tree_append, within_present ho.span_ne, within_present hy.span_ne] at hw
    obtain ⟨hlo, hbo, hoy, hd, hh⟩ := hw
    exact hgw.append
      (.cons hy.present hlo (hbo.append ((within_tree hy.span_ne).2 ⟨hoy, hd, le_rfl⟩)) hh)
  · simp only [operands_append, operands_tree]
    exact ⟨hg, ⟨.fresh rfl hy.present, hbo, hy, hd⟩, hh⟩

/-- The operators that wait on top take the operand in hand, as `Term.fold` says. -/
theorem applyWaiting : ∀ {n : Nat} {b : Assembly} {f d : Forest Entry} {y : Entry},
    Holding a b lo hi f (Forest.tree y d ++ h) → f.rootSlots.length ≤ n →
      ∃ t l g z k, Assembly.applyWaiting n y.slot b = .ok z.slot (b.put t l) ∧
        Holding a (b.put t l) lo hi g (Forest.tree z k ++ h) ∧
        (g ++ (Forest.tree z k ++ h)).hull = (f ++ (Forest.tree y d ++ h)).hull ∧
        Term.fold (y.term d) f.terms = (z.term k, g.terms)
  | 0, b, f, d, y, H, hn => by
    obtain rfl := eq_nil_of_rootSlots (List.eq_nil_of_length_eq_zero (Nat.le_zero.1 hn))
    exact ⟨b.tree, b.staged, .nil, y, d, rfl, H, rfl, rfl⟩
  | n + 1, b, f, d, y, H, hn => by
    cases hf : f.terms with
    | nil =>
      obtain rfl : f = .nil := eq_nil_of_terms hf
      have htop : Assembly.topOperand? b = none := by
        rw [Assembly.topOperand?, if_neg fun ho => H.hasOperands.1 ho rfl]
      exact ⟨b.tree, b.staged, .nil, y, d, applyWaiting_none y.slot htop, H, rfl, rfl⟩
    | cons x xs =>
      obtain ⟨g, o, bo, rfl, rfl, rfl⟩ := exists_last_term hf
      rw [Assembly.applyWaiting, get_bind]
      simp only [H.piled.topOperand?, isWaiting_eq, H.piled.construct_eq]
      cases hw : o.node.construct.waits with
      | false =>
        refine ⟨b.tree, b.staged, g ++ Forest.tree o bo, y, d, rfl, H, rfl, ?_⟩
        have hs : (o.term bo).waits = false := (Construct.waits_bare _).trans hw
        rw [Term.fold_of_settled (Term.settled_cons.2 hs), hf]
      | true =>
        obtain ⟨op, hop⟩ := Construct.exists_unary hw
        obtain ⟨t, ho, H'⟩ := H.unstage.applyOperator hop
        obtain ⟨t', l, g', z, k, hz, H'', hhull, hfold⟩ := applyWaiting H' (by simp at hn; omega)
        refine ⟨t', l, g', z, k, ?_, H'', hhull.trans ?_, ?_⟩
        · simp only [if_true, set_bind]
          exact bind_ok.2 ⟨(), _, ho, hz⟩
        · -- The operator and its operand have the same text together as side by side.
          have hpair : Span.over (some ⟨o.node.span.start, y.node.span.stop⟩) h.hull =
              Span.over (some o.node.span) (Span.over (some y.node.span) h.hull) := by
            rw [← Span.over_assoc, Span.some_over_some]
          simp only [hull_append, hull_tree, Entry.span_fresh, hpair, Span.over_assoc]
        · have hlabel : (o.term bo).label = .unary op none := by
            simp [Entry.term, hop, Construct.bare, Construct.mapSlots]
          have hbelow : (bo ++ Forest.tree y d).map (·.node.construct.bare) = (o.term bo).below ++ (y.term d).forest :=
            map_append ..
          rw [Term.fold_waits hlabel, ← hfold, ← hbelow]
          rfl

theorem popOperand (H : Holding a b lo hi f h) (hf : f.terms = x :: xs) (hx : x.waits = false) :
    ∃ t l g z k, Assembly.popOperand e b = .ok z.slot (b.put t l) ∧
      Holding a (b.put t l) lo hi g (Forest.tree z k ++ h) ∧
      (g ++ (Forest.tree z k ++ h)).hull = (f ++ h).hull ∧ Term.fold x xs = (z.term k, g.terms) := by
  obtain ⟨g, y, d, hy, rfl, H', rfl, rfl⟩ := H.popRaw (e := e) hf hx
  obtain ⟨t, l, g', z, k, hz, H'', hhull, hfold⟩ := H'.applyWaiting (n := (b.put b.tree b.staged.tail).height) (by
    rw [height, H'.staged]
    simp)
  refine ⟨t, l, g', z, k, ?_, H'', by rw [hhull, append_assoc], hfold⟩
  rw [Assembly.popOperand]
  exact bind_ok.2 ⟨_, _, hy, hz⟩

theorem expectNoOperands (H : Holding a b lo hi .nil h) : Assembly.expectNoOperands e b = .ok () b := by
  have ho : b.hasOperands = false := Bool.eq_false_iff.2 fun ho => H.hasOperands.1 ho rfl
  simp [Assembly.expectNoOperands, get_bind, ho, pure_apply]

theorem popSingle (H : Holding a b lo hi f h) (hf : Term.Topped [] f.terms) :
    ∃ t l z k, Assembly.popSingle e b = .ok z.slot (b.put t l) ∧
      Holding a (b.put t l) lo hi .nil (Forest.tree z k ++ h) ∧ (Forest.tree z k ++ h).hull = (f ++ h).hull ∧
      Term.take 1 [] f.terms = ([z.term k], []) := by
  obtain ⟨x, rest, hterms, hx, hrest⟩ := hf
  obtain ⟨t, l, g, z, k, hz, H', hhull, hfold⟩ := H.popOperand (e := e) hterms hx
  have hg : (Term.fold x rest).2 = [] := by rw [Term.snd_fold, hrest]; rfl
  rw [hfold] at hg
  obtain rfl : g = .nil := eq_nil_of_terms hg
  refine ⟨t, l, z, k, ?_, H', hhull, by rw [hterms, Term.take, hfold]; rfl⟩
  rw [Assembly.popSingle]
  exact bind_ok.2 ⟨_, _, hz, bind_ok.2 ⟨_, _, H'.expectNoOperands, rfl⟩⟩

theorem popOperands : ∀ {n : Nat} {b : Assembly} {f h : Forest Entry}, Holding a b lo hi f h → Term.Full n f.terms →
    ∃ t l g m, Assembly.popOperands e n h.rootSlots b = .ok m.rootSlots (b.put t l) ∧ Holding a (b.put t l) lo hi g m ∧
      (g ++ m).hull = (f ++ h).hull ∧ Term.take n h.terms.reverse f.terms = (m.terms.reverse, g.terms)
  | 0, b, f, h, H, _ => ⟨b.tree, b.staged, f, h, rfl, H, rfl, rfl⟩
  | n + 1, b, f, h, H, hfull => by
    cases hf : f.terms with
    | nil => rw [hf] at hfull; exact hfull.elim
    | cons x xs =>
      rw [hf] at hfull
      obtain ⟨t, l, g, z, k, hz, H', hhull, hfold⟩ := H.popOperand (e := e) hf hfull.1
      have hrest := hfull.2
      rw [hfold] at hrest
      obtain ⟨t', l', g', m, hm, H'', hhull', htake⟩ := popOperands H' hrest
      refine ⟨t', l', g', m, ?_, H'', hhull'.trans hhull, ?_⟩
      · rw [Assembly.popOperands]
        exact bind_ok.2 ⟨_, _, hz, hm⟩
      · rw [Term.take, hfold, ← htake]
        simp

theorem popAll : ∀ {n : Nat} {b : Assembly} {f h : Forest Entry}, Holding a b lo hi f h → f.rootSlots.length ≤ n →
    Term.Settled f.terms → ∃ t l m, Assembly.popAll e n h.rootSlots b = .ok m.rootSlots (b.put t l) ∧
      Holding a (b.put t l) lo hi .nil m ∧ m.hull = (f ++ h).hull
  | 0, b, f, h, H, hn, _ => by
    obtain rfl := eq_nil_of_rootSlots (List.eq_nil_of_length_eq_zero (Nat.le_zero.1 hn))
    exact ⟨b.tree, b.staged, h, rfl, H, rfl⟩
  | n + 1, b, f, h, H, hn, hs => by
    rw [Assembly.popAll, get_bind]
    cases hf : f.terms with
    | nil =>
      obtain rfl : f = .nil := eq_nil_of_terms hf
      rw [if_neg fun ho => H.hasOperands.1 ho rfl]
      exact ⟨b.tree, b.staged, h, rfl, H, rfl⟩
    | cons x xs =>
      rw [hf, Term.settled_cons] at hs
      rw [if_pos (H.hasOperands.2 fun hn => by simp [hn] at hf)]
      obtain ⟨t, l, g, z, k, hz, H', hhull, hfold⟩ := H.popOperand (e := e) hf hs
      have hg : g.terms = xs.dropWhile Term.waits := by rw [← Term.snd_fold xs x, hfold]
      have hlen : g.rootSlots.length ≤ n := by
        have h₁ := (List.dropWhile_sublist Term.waits (l := xs)).length_le
        have h₂ := congrArg List.length hf
        rw [← hg] at h₁
        simp only [length_terms, List.length_cons] at h₁ h₂
        omega
      obtain ⟨t', l', m, hm, H'', hhull'⟩ := popAll H' hlen (hg ▸ Term.settled_dropWhile xs)
      exact ⟨t', l', m, bind_ok.2 ⟨_, _, hz, hm⟩, H'', hhull'.trans hhull⟩

/-- All operands are taken, and if there are any they are not lost. -/
theorem popStatement (H : Holding a b lo hi f .nil) (hs : Term.Settled f.terms) :
    ∃ t l m, Assembly.popStatement e b = .ok m.rootSlots (b.put t l) ∧ Holding a (b.put t l) lo hi .nil m ∧
      (f ≠ .nil → m ≠ .nil) := by
  obtain ⟨t, l, m, hm, H', hhull⟩ := H.popAll (e := e) (n := b.height) (by rw [height, H.staged]; simp) hs
  refine ⟨t, l, m, hm, H', fun hf hnil => ?_⟩
  subst hnil
  cases f with
  | nil => exact hf rfl
  | node y d r => cases hr : r.hull <;> simp [hr] at hhull

theorem bundle (H : Holding a b lo hi f m) (c : Construct) (span : Span) (hc : c.tag.isOperand = true)
    (hpos : 0 < span.stop) (hw : (f ++ Forest.tree (.fresh ⟨b.tree.size⟩ c span) m).Within lo hi') :
    Holding a (b.bundled c span m.rootSlots) lo hi' (f ++ Forest.tree (.fresh ⟨b.tree.size⟩ c span) m) .nil := by
  refine H.put (H.piled.bundle c span) ?_ (by rwa [append_nil]) ?_
  · exact (Tree.SameBelow.push c span H.keeps.tree.size).trans
      (.attachAll H.keeps.tree.size fun u hu => (H.stands.bound u (by simp [rootSlots_subset hu])).1)
  · have ho := H.operands
    simp only [operands_append, operands_tree, operands_nil] at ho ⊢
    exact ⟨⟨ho.1, .fresh hc hpos, ho.2⟩, trivial⟩

/-! ### Events of expressions -/

/-- The event is taken and leaves operands with the terms `ys`. -/
def Steps (a b : Assembly) (lo : Nat) (f : Forest Entry) (e : Event) (ys : List Term) : Prop :=
  ∃ t l f', dispatch e b = .ok () (b.put t l) ∧ Holding a (b.put t l) lo e.offset f' .nil ∧ f'.terms = ys ∧
    f'.hull = e.widen f.hull

theorem onLeaf (H : Holding a b lo p f .nil) {c : Construct} (he : Follows p e) (hc : e.leaf? = some c)
    (hp : e.placed = true) : Steps a b lo f e (⟨c.bare, .nil⟩ :: f.terms) := by
  obtain ⟨hk, hk', hc'⟩ : e.kind.isLeaf = true ∧ e.kind.isCompound = false ∧ c.tag.isOperand = true := by
    unfold Event.leaf? at hc
    split at hc <;> cases hc <;>
      simp [*, Event.Kind.isLeaf, Event.Kind.isCompound, Construct.tag, Construct.Tag.isOperand]
  obtain ⟨span, hspan⟩ := exists_leafSpan hp b
  have hl : LeafAfter p e := (he.kind.resolve_right (by simp [hk'])).2
  obtain ⟨-, hstart, hle, hstop, hstart'⟩ := leafSpan_ok hspan hl
  have hw : (f ++ Forest.tree (Entry.fresh ⟨b.tree.size⟩ c span) .nil).Within lo e.offset := by
    have := H.within
    rw [append_nil] at this
    exact this.append (.cons (by simpa [hstop] using he.pos) hstart hle hstop.le)
  refine ⟨_, _, _, dispatch_leaf hc hspan, H.bundle _ _ hc' (hstop ▸ he.pos) hw, by simp [Entry.term], ?_⟩
  have hs : span = ⟨e.start, e.offset⟩ := by rw [Event.start, if_pos hk, ← hstart', ← hstop]
  rw [e.widen_leaf hk, hull_append, hull_tree, ← hs]
  rfl

theorem onConnective (H : Holding a b lo p f .nil) (he : Follows p e) (hk : e.kind.isConnective = true)
    (hl : e.literal.isEmpty = false) (hxs : Term.Full 2 f.terms) :
    Steps a b lo f e (Term.combined (.binary e.literal .root .root) 2 f.terms) := by
  cases hf : f.terms with
  | nil => rw [hf] at hxs; exact hxs.elim
  | cons r rs =>
  rw [hf] at hxs
  obtain ⟨t, s, g, y, d, hy, H', hhull, hfold⟩ := H.popOperand (e := e) hf hxs.1
  replace hxs := hxs.2
  rw [hfold] at hxs
  cases hg : g.terms with
  | nil => rw [hg] at hxs; exact hxs.elim
  | cons l ls =>
  rw [hg] at hxs
  obtain ⟨t', s', g', z, k, hz, H'', hhull', hfold'⟩ := H'.popOperand (e := e) hg hxs.1
  rw [append_nil] at H''
  obtain ⟨hzo, -, hyo, -⟩ : Operand z ∧ Operands k ∧ Operand y ∧ Operands d := by
    simpa using (operands_append.1 H''.operands).2
  obtain ⟨mid, hgw, hw⟩ := exists_within_of_append H''.within
  have hd := H''.piled.connect hk hl hy hz
  rw [hzo.merge_eq hyo hw] at hd
  refine ⟨_, _, _, hd, H''.bundle _ _ rfl hyo.present (hgw.append ?_), ?_, ?_⟩
  · rw [tree_append, Forest.tree, within_present hzo.span_ne, within_present hyo.span_ne] at hw
    obtain ⟨hlo, hkw, hzy, hdw, hle⟩ := hw
    refine .cons hyo.present hlo ?_ (hle.trans he.le)
    exact (within_present hzo.span_ne).2 ⟨le_rfl, hkw, (within_tree hyo.span_ne).2 ⟨hzy, hdw, le_rfl⟩⟩
  · simp [Term.combined, Term.take, hfold, hg, hfold', term_fresh, Construct.bare, Construct.mapSlots]
  · rw [e.widen_connective hk]
    simpa using hhull'.trans hhull

/-- A node that starts with its first operand and ends with the event. -/
theorem bundle_to (H : Holding a b lo p f m) (he : Follows p e) {c : Construct} (hc : c.tag.isOperand = true) :
    Holding a (b.bundled c ⟨(m.roots.head?.map (·.node.span.start)).getD e.offset, e.offset⟩ m.rootSlots) lo e.offset
        (f ++ Forest.tree (.fresh ⟨b.tree.size⟩ c
          ⟨(m.roots.head?.map (·.node.span.start)).getD e.offset, e.offset⟩) m) .nil ∧
      (f ++ Forest.tree (.fresh ⟨b.tree.size⟩ c
          ⟨(m.roots.head?.map (·.node.span.start)).getD e.offset, e.offset⟩) m).hull =
        Span.over (f ++ m).hull (some ⟨e.offset, e.offset⟩) := by
  obtain ⟨mid, hg, hw⟩ := exists_within_of_append H.within
  cases m with
  | nil =>
    refine ⟨H.bundle _ _ hc he.pos (hg.append ?_), by simp⟩
    exact .cons he.pos (hw.le.trans he.le) le_rfl le_rfl
  | node y d r =>
    have hy : Operand y := (operands_node.1 (operands_append.1 H.operands).2).1
    obtain ⟨hlo, hw'⟩ := hw.from_start hy.span_ne
    refine ⟨H.bundle _ _ hc he.pos (hg.append ?_), by simp [Span.over_assoc]⟩
    exact .cons he.pos hlo (hw'.mono le_rfl he.le) le_rfl

theorem onSuffix (H : Holding a b lo p f .nil) (he : Follows p e) (hs : e.suffix? = some (s, n))
    (hxs : Term.Full n f.terms) (hy : (Term.take n [] f.terms).2 = x :: ys) (hx : x.waits = false) :
    Steps a b lo f e (Term.suffixed s n f.terms) := by
  have hk : e.kind.isCompound = true ∧ e.kind.isConnective = false := by
    unfold Event.suffix? at hs
    split at hs <;> first | cases hs; done | simp [*, Event.Kind.isCompound, Event.Kind.isConnective]
  obtain ⟨t, l, g, m, hm, H', hhull, htake⟩ := H.popOperands (e := e) hxs
  change Term.take n [] f.terms = _ at htake
  rw [htake] at hy
  change g.terms = _ at hy
  obtain ⟨g', z, d, hz, rfl, H'', rfl, rfl⟩ := H'.popRaw (e := e) hy hx
  obtain ⟨K, hhull'⟩ := H''.bundle_to he (c := .suffixed s z.slot) rfl
  refine ⟨_, _, _, H''.piled.suffix hs hm hz, K, ?_, ?_⟩
  · rw [Term.suffixed, htake, hy]
    simp [term_fresh, Construct.bare, Construct.mapSlots]
  · rw [e.widen_compound hk.1 hk.2, hhull', ← append_assoc, hhull, append_nil]

theorem onInitializerList (H : Holding a b lo p f .nil) (he : Follows p e) (hk : e.kind = .initializerList)
    (hn : count? e.literal = some n) (hxs : Term.Full n f.terms) :
    Steps a b lo f e (Term.combined .initializerList n f.terms) := by
  obtain ⟨t, l, g, m, hm, H', hhull, htake⟩ := H.popOperands (e := e) hxs
  change Term.take n [] f.terms = _ at htake
  obtain ⟨K, hhull'⟩ := H'.bundle_to he (c := .initializerList) rfl
  refine ⟨_, _, _, H'.piled.list hk hn hm, K, ?_, ?_⟩
  · simp [Term.combined, htake, term_fresh, Construct.bare, Construct.mapSlots]
  · rw [e.widen_compound (by rw [hk]; rfl) (by rw [hk]; rfl), hhull', hhull, append_nil]

theorem onArraySuffix (H : Holding a b lo p f .nil) (he : Follows p e) (hk : e.kind = .arraySuffix) {type name : String}
    {isReference : Bool} {below : Forest Construct} (hf : f.terms = ⟨.declaration type name isReference, below⟩ :: xs) :
    Steps a b lo f e (⟨.declaration (type ++ e.literal) name isReference, below⟩ :: xs) := by
  obtain ⟨g, y, d, rfl, hy, rfl⟩ := exists_last_term hf
  have hc : y.node.construct = .declaration type name isReference := by
    have hbare : y.node.construct.bare = .declaration type name isReference := congrArg Term.label hy
    cases hyc : y.node.construct with
    | declaration => rw [hyc] at hbare; exact hbare
    | _ => rw [hyc] at hbare; cases hbare
  obtain ⟨t, hd, hsame, P⟩ := H.piled.onArraySuffix (e := e) hc
  obtain ⟨hg, hyo, hdo⟩ : Operands g ∧ Operand y ∧ Operands d := by simpa using H.operands
  have hw := H.within
  rw [append_nil] at hw
  obtain ⟨mid, hgw, hyw⟩ := exists_within_of_append hw
  obtain ⟨hlo, hdw, hle⟩ := (within_tree hyo.span_ne).1 hyw
  refine ⟨t, _, _, by rw [dispatch, hk]; exact hd, H.put P hsame ?_ ?_, ?_, ?_⟩
  · rw [append_nil]
    exact hgw.append (.cons he.pos hlo (hdw.mono le_rfl (hle.trans he.le)) le_rfl)
  · simpa using ⟨hg, Operand.fresh rfl he.pos, hdo⟩
  · have hbelow : d.map (·.node.construct.bare) = below := congrArg Term.below hy
    rw [terms_append, terms_tree, Entry.term, hbelow]
    rfl
  · rw [e.widen_compound (by rw [hk]; rfl) (by rw [hk]; rfl)]
    simp [Span.over_assoc]

/-- An event that finds its operands on the stack is taken. -/
theorem step (H : Holding a b lo p f .nil) (he : Follows p e) (hp : Push e f.terms ys) : Steps a b lo f e ys := by
  generalize hf : f.terms = zs at hp
  cases hp with
  | leaf hc hp => exact hf ▸ H.onLeaf he hc hp
  | connective hk hl hxs => subst hf; exact H.onConnective he hk hl hxs
  | suffix hs hxs hy hx => subst hf; exact H.onSuffix he hs hxs hy hx
  | list hk hn hxs => subst hf; exact H.onInitializerList he hk hn hxs
  | array hk => exact H.onArraySuffix he hk hf

/-- Events that find their operands on the stack, one after the other, are all taken. -/
theorem run : ∀ {es : List Event} {b : Assembly} {p : Nat} {f : Forest Entry}, Holding a b lo p f .nil →
    b.failure? = none → Rising p es hi → Pushes es f.terms ys →
      ∃ t l f', Takes b es (b.put t l) ∧ Holding a (b.put t l) lo hi f' .nil ∧ f'.terms = ys ∧
        f'.hull = widenAll es f.hull
  | [], b, p, f, H, _, hr, hp => by
    obtain - | - := hp
    exact ⟨b.tree, b.staged, f, takes_nil.2 rfl, H.mono hr, rfl, rfl⟩
  | e :: es, b, p, f, H, hb, ⟨he, hr⟩, hp => by
    obtain - | ⟨hp, hps⟩ := hp
    obtain ⟨t, l, f₁, hd, H₁, rfl, hhull⟩ := H.step he hp
    obtain ⟨t', l', f', ht, H', hterms, hhull'⟩ := run H₁ hb hr hps
    exact ⟨t', l', f', (Takes.of_dispatch hb hd).trans ht, H', hterms, by rw [hhull', hhull, widenAll_cons]⟩

end Holding

end Assembly

end Deferral
