import Deferral.Proofs.Stacking

/-!
# Open scopes

What is staged while a scope is open belongs to it. A scope is opened as a new node that stands apart; when it is closed
it takes what has been staged since, and with its header it is one more statement.
-/

namespace Deferral.Assembly

open Forest Grammar

variable {a b b' c n : Assembly} {lo hi p : Nat} {f g h k m d : Forest Entry} {x y : Entry} {e : Event}
  {source : List UInt8} {tokens : List Token} {q : Nat} {β : Type}

/-- Inside the scope in slot `s`. -/
def enter (a : Assembly) (s : Slot) : Assembly := { a with scopes := ⟨s, a.height⟩ :: a.scopes }

theorem Ready.enter (ha : Ready a) (s : Slot) : Ready (a.enter s) := ⟨ha.base, ha.fragments, ha.mode⟩

/-- Between two statements, inside some scope. -/
structure Standing (a : Assembly) : Prop extends Ready a where
  header : a.mode ≠ .forHeader
  based : ∃ frame frames, a.scopes = frame :: frames ∧ frame.base ≤ a.height

namespace Standing

theorem of_stacks (A : Standing a) (S : Stacks a b f h) : Standing b := by
  obtain ⟨frame, frames, hs, hle⟩ := A.based
  refine ⟨S.ready A.toReady, by rw [mode, S.keeps.modes]; exact A.header, frame, frames, S.keeps.scopes.trans hs, ?_⟩
  rw [height, S.staged, List.length_append]
  exact hle.trans (Nat.le_add_left _ _)

theorem enter (A : Standing a) (s : Slot) : Standing (a.enter s) :=
  ⟨A.toReady.enter s, A.header, _, _, rfl, le_rfl⟩

theorem deferring (A : Standing a) : Standing a.deferring := ⟨A.toReady.deferring, nofun, A.based⟩

theorem setEnd (A : Standing a) (q : Nat) : Standing { a with lastEnd := q } :=
  ⟨⟨A.base, A.fragments, A.mode⟩, A.header, A.based⟩

end Standing

/-! ## Opening and closing -/

/-- The assembly after a scope is opened. -/
def opened (a : Assembly) (construct : Construct) : Assembly :=
  { a with
    tree := (a.tree.push construct ⟨a.lastEnd, a.lastEnd⟩).2
    scopes := ⟨⟨a.tree.size⟩, a.height⟩ :: a.scopes
    statementBase := a.height }

theorem openScope_bind (construct : Construct) (k : Slot → Step β) :
    (openScope construct >>= k) a = k ⟨a.tree.size⟩ (a.opened construct) := rfl

theorem Ready.opened (ha : Ready a) (construct : Construct) :
    Stacks (a.enter ⟨a.tree.size⟩) (a.opened construct) .nil
      (Forest.tree (.fresh ⟨a.tree.size⟩ construct ⟨a.lastEnd, a.lastEnd⟩) .nil) := by
  have H := ha.stacked.bundle construct ⟨a.lastEnd, a.lastEnd⟩
  exact ⟨{ H.keeps with scopes := rfl }, rfl, rfl, H.stands⟩

theorem unstage_bind (ss rest : List Slot) (hs : b.staged = ss.reverse ++ rest) (k : List Slot → Step β) :
    (unstage rest.length >>= k) b = k ss { b with staged := rest } := by
  have hcount : b.height - rest.length = ss.reverse.length := by simp [height, hs]
  have h : (unstage rest.length >>= k) b = k (b.staged.take (b.height - rest.length)).reverse
    { b with staged := b.staged.drop (b.height - rest.length) } := rfl
  rw [h, hcount, hs, List.take_left, List.drop_left, List.reverse_reverse]

theorem forM_modify (change : Node → Node) : ∀ (ss : List Slot) (b : Assembly),
    ss.forM (fun s => modifyTree (·.modify s change)) b =
      .ok () { b with tree := ss.foldl (fun t s => t.modify s change) b.tree }
  | [], _ => rfl
  | s :: ss, b => forM_modify change ss { b with tree := b.tree.modify s change }

/-- A scope is closed: it takes what has been staged, and stands apart again. -/
theorem Stacks.closeScope {s : Slot} {construct : Construct} {span : Span}
    (H : Stacks (a.enter s) b f (Forest.tree (.fresh s construct span) h)) (A : Standing a) (e : Event) (stop : Nat) :
    ∃ b', Assembly.closeScope e stop b = .ok s b' ∧ b'.lastEnd = stop ∧
      Stacks a b' .nil (Forest.tree (.fresh s construct ⟨span.start, stop⟩) (h ++ f)) := by
  obtain ⟨outer, rest, hrest, -⟩ := A.based
  have hscopes : b.scopes = ⟨s, a.height⟩ :: outer :: rest := H.keeps.scopes.trans (congrArg _ hrest)
  have hstaged : b.staged = f.rootSlots.reverse ++ a.staged := H.staged
  have hs₁ := (Tree.Stands.swap (f := .nil) (d := .nil) (m := f) H.stands).attachAll
  have hs₂ := Tree.Stands.setSpan (f := .nil) hs₁ rfl ⟨span.start, stop⟩
  have hspan : (b.tree.attachAll s f.rootSlots).span s = span :=
    hs₁.holds.span_eq (e := .fresh s construct span) (by simp)
  have hlow : a.tree.size ≤ s.index := (H.stands.bound s (by simp)).1
  have hsame : Tree.SameBelow a.tree.size b.tree ((b.tree.attachAll s f.rootSlots).setSpan s ⟨span.start, stop⟩) :=
    .trans (.attachAll hlow fun u hu => (H.stands.bound u (by simp [rootSlots_subset hu])).1) (.modify _ hlow)
  have hle : ¬b.height < a.height := by simp [height, hstaged]
  rw [Assembly.closeScope, bind_eq H.expectNoOperands, get_bind, hscopes]
  simp only [set_bind, if_neg hle]
  rw [height, unstage_bind (b := { b with scopes := outer :: rest }) f.rootSlots a.staged hstaged]
  simp only [forM_attach_bind, modifyTree_bind, setLastEnd_bind, finishStatement_bind, hspan]
  exact ⟨_, rfl, rfl, { H.keeps with scopes := hrest.symm, tree := H.keeps.tree.trans hsame }, rfl, rfl, hs₂⟩

/-! ## Blocks -/

section Top

variable {s : Slot} {construct : Construct} {span : Span}

theorem Stacks.construct_eq (H : Stacks a n f (Forest.tree (.fresh s construct span) h ++ m)) (K : Keeps n b) :
    b.tree.construct s = construct := by
  rw [Tree.construct, K.tree.nodes s (H.stands.bound s (by simp)).2]
  exact H.stands.holds.construct_eq (e := .fresh s construct span) (by simp)

section

variable (H : Stacks (a.enter s) n f (Forest.tree (.fresh s construct span) h)) (K : Keeps n b)
include H K

theorem Stacks.topTag :
    topTag? b = some construct.tag := by
  rw [topTag?, K.scopes, H.keeps.scopes]
  exact congrArg (fun c => some c.tag) (Stacks.construct_eq (m := .nil) H K)

theorem Stacks.expectTop :
    Assembly.expectTop e construct.tag b = .ok s b := by
  have hscopes : b.scopes = ⟨s, a.height⟩ :: a.scopes := K.scopes.trans H.keeps.scopes
  have htag : b.tree.tag s = construct.tag := congrArg Construct.tag (Stacks.construct_eq (m := .nil) H K)
  simp only [Assembly.expectTop, get_bind, hscopes, htag, if_true]
  rfl

end

end Top

theorem Stacks.closeScope_stages {s : Slot} {construct : Construct} {stop : Nat}
    (H : Stacks (a.enter s) b f (Forest.tree (.fresh s construct ⟨a.lastEnd, p⟩) .nil)) (A : Standing a) (e : Event)
    (hlt : a.lastEnd < stop) (hw : f.Within a.lastEnd stop)
    (hshape : Shape tokens (Entry.fresh s construct ⟨a.lastEnd, stop⟩).node f.roots) (hm : f.Marked false)
    (hs : Shaped tokens f) :
    ∃ b', Assembly.closeScope e stop b = .ok s b' ∧ b'.lastEnd = stop ∧
      Stages tokens a { b' with staged := s :: b'.staged, statementBase := (s :: b'.staged).length }
        (Forest.tree (.fresh s construct ⟨a.lastEnd, stop⟩) f) := by
  obtain ⟨b', hd, hend, K⟩ := H.closeScope A e stop
  subst hend
  have K' := Stacks.stage (h := .nil) K
  exact ⟨b', hd, rfl, ⟨K'.keeps, rfl, K'.staged, K'.stands⟩, .tree hlt hw hshape hm hs⟩

/-! ## Statements with a header -/

theorem Stacks.closeConstruct {s : Slot} {construct : Construct}
    (H : Stacks (a.enter s) b f (Forest.tree (.fresh s construct ⟨a.lastEnd, p⟩) h)) (A : Standing a)
    (hlt : a.lastEnd < e.offset) (hw : (h ++ f).Within a.lastEnd e.offset)
    (hshape : Shape tokens (Entry.fresh s construct ⟨a.lastEnd, e.offset⟩).node (h ++ f).roots)
    (htag : ∀ k ∈ (h ++ f).roots, k.node.tag ≠ .caseLabel) (hs : Shaped tokens (h ++ f)) :
    ∃ b', Assembly.closeConstruct e construct.tag b = .ok () b' ∧ ∃ x d, Stages tokens a b' (Forest.tree x d) ∧
      x.slot = s ∧ x.node.tag = construct.tag ∧ x.node.construct.params = construct.params ∧ b'.lastEnd = e.offset := by
  have hmode : ¬(construct.tag = .loop ∧ b.mode = .forHeader) := fun h =>
    A.header (by rw [← h.2, mode, mode, H.keeps.modes]; rfl)
  obtain ⟨b₂, h₂, hend, K⟩ := H.closeScope A e e.offset
  obtain ⟨c, d, hc, hs', hsame, hsh, hw'⟩ := Tree.Stands.absorb (g := .nil) K.stands
    (every_tree.2 ⟨⟨rfl, hshape, marked_of_tag_ne htag⟩, hs⟩) hw
  have K' := Stacks.stage (h := .nil) (K.retree (g := .nil) hsame rfl hs')
  obtain ⟨⟨-, hshape', hm⟩, hd'⟩ := every_tree.1 hsh
  rw [Assembly.closeConstruct, bind_eq (H.expectTop (.refl _))]
  simp only [get_bind, if_neg hmode, bind_eq h₂, modifyTree_bind, stageStatement_bind]
  refine ⟨_, rfl, _, d, ⟨⟨{ K'.keeps with }, rfl, K'.staged, K'.stands⟩, ?_⟩, rfl, hc.1, hc.2, hend⟩
  simp only [hend]
  exact .tree hlt hw' hshape' hm hd'

/-! ## Headers -/

/-- Constructs with the header in slot `g` before what they govern. -/
def HeadOf (g : Slot) : Construct → Prop
  | .branch group? _ => group? = some g
  | .switch group? _ => group? = some g
  | .loop l => l.group? = some g ∧ l.form ≠ .doLoop
  | _ => False

theorem HeadOf.group?_eq {g s : Slot} {t : Tree} (h : HeadOf g (t.construct s)) : group? t s = some g := by
  unfold group?
  generalize t.construct s = c at h
  cases c <;> first | exact h | exact h.1 | cases h

theorem HeadOf.isStatement {g : Slot} {c : Construct} (h : HeadOf g c) :
    c.tag.isStatement = true ∧ c.tag ≠ .scope := by
  cases c <;> first | exact h.elim | exact ⟨rfl, by simp [Construct.tag]⟩

theorem HeadOf.shape {g s : Slot} {c : Construct} {span : Span} {kids : List Entry} (h : HeadOf g c)
    (hk : Headed c.braced span.stop kids) : Shape tokens (Entry.fresh s c span).node kids := by
  cases c with
  | branch => exact .inl hk
  | switch => exact hk
  | loop l =>
    simp only [Shape, Entry.construct_fresh]
    rwa [if_neg h.2]
  | _ => cases h

/-- The scope in slot `s` is open since `a`. Its header `g` has text up to `p`, and the operands `r` are to go there. -/
def Heading (a b : Assembly) (s g : Slot) (c : Construct) (p hi : Nat) (r : Forest Entry) : Prop :=
  HeadOf g c ∧ ∃ span k, (Forest.tree (.fresh g .group span) k).Within a.lastEnd p ∧ r.Within p hi ∧ Operands k ∧
    Operands r ∧ Stacks (a.enter s) b .nil
      (Forest.tree (.fresh s c ⟨a.lastEnd, a.lastEnd⟩) (Forest.tree (.fresh g .group span) k) ++ r)

theorem within_group {s : Slot} {span : Span}
    (hg : (Forest.tree (.fresh s .group span) k).Within lo q) (hx : Operand x)
    (hr : (Forest.tree x d ++ m).Within q hi) :
    (Forest.tree (.fresh s .group (span.merge x.node.span)) (k ++ Forest.tree x d)).Within lo x.node.span.stop ∧
      m.Within x.node.span.stop hi := by
  obtain ⟨hqx, hd, hm⟩ := (within_present hx.span_ne).1 hr
  refine ⟨?_, hm⟩
  have hxd : (Forest.tree x d).Within q x.node.span.stop := (within_tree hx.span_ne).2 ⟨hqx, hd, le_rfl⟩
  have hdle := hd.le
  rcases hg with ⟨habsent, rfl, hle⟩ | ⟨hne, hlo, hk, hle⟩
  · have hmerge : span.merge x.node.span = x.node.span := by
      simp [Span.merge, Span.isAbsent, show span = _ from habsent]
    rw [hmerge]
    have hle' : lo ≤ q := hle
    exact .cons hx.present (by simp only [Entry.span_fresh]; omega)
      ((within_tree hx.span_ne).2 ⟨le_rfl, hd, le_rfl⟩) le_rfl
  · have hkle := hk.le
    have hle' : span.stop ≤ q := hle
    simp only [Entry.span_fresh] at hne hlo hk hkle
    rw [Span.merge_eq hne hx.span_ne (by omega) (by omega)]
    exact .cons hx.present hlo (hk.append (hxd.mono hle' le_rfl)) le_rfl

namespace Heading

variable {s g : Slot} {c : Construct} {hi' : Nat} {r : Forest Entry}

theorem attachToGroup (H : Heading a b s g c p hi (Forest.tree x d ++ r)) :
    ∃ b', Assembly.attachToGroup g x.slot b = .ok () b' ∧ Heading a b' s g c x.node.span.stop hi r := by
  obtain ⟨hc, span, k, hg, hr, hk, ho, K⟩ := H
  obtain ⟨⟨hx, hd⟩, hor⟩ : (Operand x ∧ Operands d) ∧ Operands r := by simpa [and_assoc] using ho
  have hs₁ := Tree.Stands.attach_child K.stands
  have hs₂ := hs₁.setSpan_child rfl (span.merge x.node.span)
  have hgspan : (b.tree.attach g x.slot).span g = span := hs₁.holds.span_eq (e := .fresh g .group span) (by simp)
  have hxspan : (b.tree.attach g x.slot).span x.slot = x.node.span := hs₁.holds.span_eq (by simp)
  have hlow : a.tree.size ≤ g.index := (K.stands.bound g (by simp)).1
  have hlow' : a.tree.size ≤ x.slot.index := (K.stands.bound x.slot (by simp)).1
  obtain ⟨hg', hr'⟩ := within_group hg hx hr
  simp only [Assembly.attachToGroup, attach_bind, modifyTree_apply, hgspan, hxspan]
  exact ⟨_, rfl, hc, _, _, hg', hr', operands_append.2 ⟨hk, operands_tree.2 ⟨hx, hd⟩⟩, hor,
    K.retree (g := .nil) (.trans (.attach hlow hlow') (.modify _ hlow)) rfl hs₂⟩

theorem settle (H : Heading a b s g c p hi .nil) : Heading a b s g c hi hi .nil := by
  obtain ⟨hc, span, k, hg, hr, hk, ho, K⟩ := H
  exact ⟨hc, span, k, hg.mono le_rfl hr, le_rfl, hk, ho, K⟩

theorem attachAll : ∀ {r : Forest Entry} {b : Assembly} {p : Nat}, Heading a b s g c p hi r →
    ∃ b', r.rootSlots.forM (Assembly.attachToGroup g) b = .ok () b' ∧ Heading a b' s g c hi hi .nil
  | .nil, b, _, H => ⟨b, rfl, H.settle⟩
  | .node x d r, b, p, H => by
    obtain ⟨b₁, h₁, H₁⟩ := H.attachToGroup
    obtain ⟨b₂, h₂, H₂⟩ := attachAll H₁
    exact ⟨b₂, bind_ok.2 ⟨_, _, h₁, h₂⟩, H₂⟩

theorem modifyLoop (H : Heading a b s g c p hi r) (change : LoopParts → LoopParts)
    (hl : ∀ l, (change l).form = l.form ∧ (change l).group? = l.group?) :
    ∃ b' c', Assembly.modifyLoop s change b = .ok () b' ∧ c'.tag = c.tag ∧ Heading a b' s g c' p hi r := by
  obtain ⟨hc, span, k, hg, hr, hk, ho, K⟩ := H
  have hconstruct : b.tree.construct s = c := K.construct_eq (.refl b)
  have hlow : a.tree.size ≤ s.index := (K.stands.bound s (by simp)).1
  simp only [Assembly.modifyLoop, modifyTree_apply, hconstruct]
  cases c with
  | loop l =>
    refine ⟨_, .loop (change l), rfl, rfl, ?_, span, k, hg, hr, hk, ho, ?_⟩
    · exact ⟨(hl l).2.trans hc.1, fun h => hc.2 ((hl l).1.symm.trans h)⟩
    · exact K.retree (g := .nil) (.modify _ hlow) rfl
        (Tree.Stands.setConstruct (f := .nil) K.stands rfl (.loop (change l)))
  | _ => exact ⟨b, _, rfl, rfl, hc, span, k, hg, hr, hk, ho, K⟩

/-- Operands that have been read and taken from the stage are to go to the header. -/
theorem append (H : Heading a n s g c p p .nil) (K : Holding n b q hi .nil r) (hq : p ≤ q) :
    Heading a b s g c p hi r := by
  obtain ⟨hc, span, k, hg, -, hk, -, S⟩ := H
  exact ⟨hc, span, k, hg, K.within.mono hq le_rfl, hk, K.operands, by simpa using S.append K.stacked⟩

section

variable (H : Heading a b s g c p hi r)
include H

theorem noting (q : Nat) (log : Array Log.Entry) :
    Heading a { b with lastEnd := q, log } s g c p hi r := by
  obtain ⟨hc, span, k, hg, hr, hk, ho, K⟩ := H
  exact ⟨hc, span, k, hg, hr, hk, ho, { K.keeps with }, K.base, K.staged, K.stands⟩

theorem setEnd (q : Nat) : Heading a { b with lastEnd := q } s g c p hi r := H.noting q b.log

theorem logged (log : Array Log.Entry) : Heading a { b with log } s g c p hi r :=
  H.noting b.lastEnd log

theorem le : a.lastEnd ≤ p := by
  obtain ⟨-, _, _, hg, -⟩ := H
  exact hg.le

theorem ready (ha : Ready a) : Ready b := by
  obtain ⟨-, _, _, -, -, -, -, K⟩ := H
  exact K.ready (ha.enter s)

theorem standing (A : Standing a) : Standing b := by
  obtain ⟨-, _, _, -, -, -, -, K⟩ := H
  exact (A.enter s).of_stacks K

end

end Heading

/-! ## Opening a header -/

/-- The slot of the header of a scope that is opened now. -/
def headSlot (a : Assembly) (c : Construct) : Slot := ⟨(a.opened c).tree.size⟩

/-- The assembly after a scope with an empty header is opened. -/
def headed (a : Assembly) (c : Construct) : Assembly :=
  { a.opened c with
    tree := ((a.opened c).tree.push .group .absent).2.attach ⟨a.tree.size⟩ (a.headSlot c) }

theorem Ready.headed (ha : Ready a) (c : Construct) : Stacks (a.enter ⟨a.tree.size⟩) (a.headed c) .nil
    (Forest.tree (.fresh ⟨a.tree.size⟩ c ⟨a.lastEnd, a.lastEnd⟩)
      (Forest.tree (.fresh (a.headSlot c) .group .absent) .nil)) := by
  have H := ha.opened c
  have hs := Tree.Stands.attach (f := .nil) (g := .nil) (H.stands.push H.keeps.tree.size .group .absent)
  have hlow : a.tree.size ≤ (a.opened c).tree.size := H.keeps.tree.size
  exact H.retree (g := .nil) (.trans (.push _ _ hlow) (.attach le_rfl hlow)) rfl hs

theorem Ready.heading (ha : Ready a) (c c' : Construct) (hc : HeadOf (a.headSlot c) c') :
    Heading a { a.headed c with tree := (a.headed c).tree.setConstruct ⟨a.tree.size⟩ c' } ⟨a.tree.size⟩
      (a.headSlot c) c' a.lastEnd a.lastEnd .nil := by
  have H := ha.headed c
  refine ⟨hc, .absent, .nil, .inl ⟨rfl, rfl, le_rfl⟩, le_rfl, by simp, by simp, ?_⟩
  exact H.retree (g := .nil)
    (.modify _ le_rfl) rfl (Tree.Stands.setConstruct (f := .nil) (g := .nil) H.stands rfl c')

theorem Ready.onIfHeader (ha : Ready a) (e : Event) : ∃ b s g c, Assembly.onIfHeader e a = .ok () b ∧ c.tag = .branch ∧
    Heading a b s g c a.lastEnd a.lastEnd .nil :=
  ⟨_, _, _, _, rfl, rfl, (ha.heading (.branch none true) (.branch (some _) true) rfl).logged _⟩

theorem Ready.onSwitchHeader (ha : Ready a) (e : Event) : ∃ b s g c, Assembly.onSwitchHeader e a = .ok () b ∧
    c.tag = .switch ∧ Heading a b s g c a.lastEnd a.lastEnd .nil :=
  ⟨_, _, _, _, rfl, rfl, (ha.heading (.switch none true) (.switch (some _) true) rfl).logged _⟩

theorem newGroup_bind (c : Construct) (k : Slot → Step β) :
    (newGroup ⟨a.tree.size⟩ >>= k) (a.opened c) = k (a.headSlot c) (a.headed c) := rfl

theorem modifyLoop_apply {s : Slot} {l : LoopParts} (change : LoopParts → LoopParts)
    (hc : b.tree.construct s = .loop l) :
    modifyLoop s change b = .ok () { b with tree := b.tree.setConstruct s (.loop (change l)) } := by
  simp only [modifyLoop, modifyTree_apply, hc]

theorem Ready.openLoop (ha : Ready a) (e : Event) (form : LoopForm) (hf : form ≠ .doLoop) :
    ∃ b s g c, Assembly.openLoop e form a = .ok () b ∧ c.tag = .loop ∧ Heading a b s g c a.lastEnd a.lastEnd .nil := by
  have hconstruct : (a.headed (.loop { form, braced := true })).tree.construct ⟨a.tree.size⟩ =
      .loop { form, braced := true } := Stacks.construct_eq (m := .nil) (ha.headed _) (.refl _)
  rw [Assembly.openLoop, openScope_bind]
  simp only [if_pos hf]
  rw [newGroup_bind, bind_eq (modifyLoop_apply _ hconstruct)]
  exact ⟨_, _, _, _, rfl, rfl, (ha.heading _ (.loop { form, group? := some _, braced := true }) ⟨rfl, hf⟩).logged _⟩

/-! ## Filling a header -/

namespace Heading

variable {s g : Slot} {c : Construct}

section

variable (H : Heading a n s g c p p .nil)
include H

theorem expectTop (K : Keeps n b) : Assembly.expectTop e c.tag b = .ok s b := by
  obtain ⟨-, _, _, -, -, -, -, S⟩ := H
  exact Stacks.expectTop S K

theorem group?_eq (K : Keeps n b) : group? b.tree s = some g := by
  obtain ⟨hc, _, _, -, -, -, -, S⟩ := H
  exact HeadOf.group?_eq (S.construct_eq K ▸ hc)

theorem onCondition (K : Holding n b q hi f .nil) (hq : p ≤ q)
    (ht : Term.Topped [] f.terms) :
    ∃ b' c', Assembly.onCondition e c.tag b = .ok () b' ∧ c'.tag = c.tag ∧ Heading a b' s g c' hi hi .nil ∧
      b'.lastEnd = e.offset := by
  obtain ⟨t, l, x, d, h₂, K₂, -⟩ := K.popSingle (e := e) ht
  obtain ⟨b₃, h₃, H₃⟩ := (H.append K₂ hq).attachToGroup
  obtain ⟨b₄, c', h₄, hc, H₄⟩ := H₃.settle.modifyLoop ({ · with condition? := some x.slot }) fun _ => ⟨rfl, rfl⟩
  rw [Assembly.onCondition, bind_eq (H.expectTop K.keeps), bind_eq h₂, getTree_bind,
    H.group?_eq K₂.keeps, getOrUnexpected,
    pure_bind]
  exact ⟨_, c', bind_ok.2 ⟨_, _, h₃, bind_ok.2 ⟨_, _, h₄, rfl⟩⟩, hc, H₄.setEnd _, rfl⟩

/-- A part of the header of a `for`; the last one also ends the header. -/
theorem onForPart (record : Option Slot → LoopParts → LoopParts) (hc : c.tag = .loop) (ha : a.fragments = [])
    (hm : a.mode = .forHeader) (K : Holding n b q hi f .nil) (hq : p ≤ q)
    (hl : ∀ s? l, (record s? l).form = l.form ∧ (record s? l).group? = l.group?) (isLast : Bool)
    (hs : Term.Settled f.terms) :
    ∃ b' b₁ c', Assembly.onForPart e record isLast b = .ok () b' ∧ c'.tag = .loop ∧ Heading a b₁ s g c' hi hi .nil ∧
      b' = if isLast then { b₁ with modes := b₁.modes.tail, lastEnd := e.offset } else b₁ := by
  have hmode : b.mode = .forHeader := by
    obtain ⟨-, _, _, -, -, -, -, S⟩ := H
    rw [← hm, mode, mode, K.keeps.modes, S.keeps.modes]
    rfl
  obtain ⟨t, l, r, h₂, K₂, -⟩ := K.popStatement (e := e) hs
  obtain ⟨b₃, h₃, H₃⟩ := (H.append K₂ hq).attachAll
  obtain ⟨b₄, c', h₄, hc', hh, span, k, hg, hr, hk, ho, S⟩ := H₃.modifyLoop _ (hl r.rootSlots.head?)
  have H₄ : Heading a { b₄ with fragments := [], sharedType? := none, statementBase := b₄.height } s g c' hi hi .nil :=
    ⟨hh, span, k, hg, hr, hk, ho, { S.keeps with fragments := ha.symm }, rfl, S.staged, S.stands⟩
  simp only [Assembly.onForPart, get_bind, if_pos hmode]
  rw [← hc, bind_eq (H.expectTop K.keeps), getTree_bind, H.group?_eq K.keeps, getOrUnexpected, pure_bind]
  cases isLast <;>
    exact ⟨_, _, c', bind_ok.2 ⟨_, _, h₂, bind_ok.2 ⟨_, _, h₃, bind_ok.2 ⟨_, _, h₄, rfl⟩⟩⟩, hc', H₄, rfl⟩

theorem close (A : Standing a) (K : Stacks n b f .nil)
    (hlt : a.lastEnd < e.offset) (hw : f.Within p e.offset) (hs : Shaped tokens f)
    (hshape : ∀ span, Shape tokens (Entry.fresh s c ⟨a.lastEnd, e.offset⟩).node (.fresh g .group span :: f.roots))
    (htag : ∀ k ∈ f.roots, k.node.tag = .scope) :
    ∃ b', Assembly.closeConstruct e c.tag b = .ok () b' ∧ StagesOne tokens a b' e.offset := by
  obtain ⟨hc, span, k, hg, -, hk, -, S⟩ := H
  obtain ⟨b', hd, x, d, S', -, hx, -, hend⟩ : ∃ b', Assembly.closeConstruct e c.tag b = .ok () b' ∧
      ∃ x d, Stages tokens a b' (Forest.tree x d) ∧ x.slot = s ∧ x.node.tag = c.tag ∧
        x.node.construct.params = c.params ∧ b'.lastEnd = e.offset :=
    Stacks.closeConstruct (by simpa using S.append K) A hlt (hg.append hw) (hshape span)
      (List.forall_mem_cons.2 ⟨nofun, fun x hx => by simp [htag x hx]⟩) (every_append.2 ⟨every_tree.2
        ⟨⟨rfl, fun x hx => hk x (mem_members_of_mem_roots hx), hk.marked⟩, shaped_of_operands hk⟩, hs⟩)
  exact ⟨b', hd, _, S', oneStatement_tree (.of_tag (hx ▸ hc.isStatement.1) (hx ▸ hc.isStatement.2)), hend⟩

theorem close_body (A : Standing a) (hp : p < n.lastEnd)
    (K : Stages tokens n b (Forest.tree x d)) (hx : x.node.tag = .scope) (hend : b.lastEnd = e.offset) :
    ∃ b', Assembly.closeConstruct e c.tag b = .ok () b' ∧ StagesOne tokens a b' e.offset := by
  have hw := K.listed.within
  have hstop : x.node.span.stop = b.lastEnd := K.listed.tiles.2.2.2
  rw [hend] at hw hstop
  have hlt : a.lastEnd < e.offset := H.le.trans_lt (hp.trans_le hw.le)
  exact H.close A K.stacked hlt (hw.mono hp.le le_rfl) K.listed.shaped
    (fun span => H.1.shape ⟨_, [x], rfl, rfl, .inr ⟨x, rfl, hx, hstop⟩⟩) (by simpa using hx)

end

end Heading

/-! ## Conditions at the end -/

theorem Ready.onDoHeader (ha : Ready a) (e : Event) : ∃ b, Assembly.onDoHeader e a = .ok () b ∧ b.lastEnd = e.offset ∧
    Stacks (a.enter ⟨a.tree.size⟩) b .nil
      (Forest.tree (.fresh ⟨a.tree.size⟩ (.loop { form := .doLoop, braced := true }) ⟨a.lastEnd, a.lastEnd⟩) .nil) := by
  have H := ha.opened (.loop { form := .doLoop, braced := true })
  exact ⟨_, rfl, rfl, { H.keeps with }, H.base, H.staged, H.stands⟩

/-- The condition of a `do` goes into a group of its own, which is staged behind the body. -/
theorem Stacks.onDoCondition {s : Slot} {l : LoopParts} {span : Span} {b₁ : Assembly}
    (S : Stacks (a.enter s) n .nil (Forest.tree (.fresh s (.loop l) span) .nil)) (K : Stacks n b f .nil)
    (C : Holding b b₁ q hi g .nil) (ht : Term.Topped [] g.terms) :
    ∃ b' l' u k, Assembly.onDoCondition e b₁ = .ok () b' ∧ l'.form = l.form ∧ Operands k ∧
    u.node.tag = .group ∧ u.Plain ∧
      (Forest.tree u k).Within q hi ∧
      Stacks (a.enter s) b' (f ++ Forest.tree u k) (Forest.tree (.fresh s (.loop l') span) .nil) ∧
      b'.lastEnd = e.offset := by
  obtain ⟨t, ss, x, d, h₃, C₂, -⟩ := C.popSingle (e := e) ht
  generalize b₁.put t ss = b₃ at h₃ C₂
  obtain ⟨hx, hd'⟩ : Operand x ∧ Operands d := by simpa using C₂.operands
  -- The group takes the condition, and its span.
  have B := C₂.stacked.bundle .group .absent
  have hs := Tree.Stands.setSpan (f := .nil) (g := .nil) B.stands rfl x.node.span
  have hspan : ((b₃.tree.push .group .absent).2.attach ⟨b₃.tree.size⟩ x.slot).span ⟨b₃.tree.size⟩ = .absent :=
    B.stands.holds.span_eq (e := .fresh ⟨b₃.tree.size⟩ .group .absent) (by simp)
  have hspan' : ((b₃.tree.push .group .absent).2.attach ⟨b₃.tree.size⟩ x.slot).span x.slot = x.node.span :=
    B.stands.holds.span_eq (e := x) (by simp)
  have hmerge : Span.merge .absent x.node.span = x.node.span := rfl
  have B' := B.retree (g := .nil) (.modify _ C₂.stacked.keeps.tree.size) rfl hs
  -- The loop takes note of both, and the group is staged.
  have T := (S.append K).append B'
  rw [append_nil, append_nil, nil_append] at T
  have hlow : a.tree.size ≤ s.index := (S.stands.bound s (by simp)).1
  have T' := (T.retree (.modify _ hlow) rfl (T.stands.setConstruct rfl
    (.loop { l with condition? := some x.slot, group? := some ⟨b₃.tree.size⟩ }))).stage
  have hd : Assembly.onDoCondition e b₁ = _ := bind_eq (S.expectTop (K.keeps.trans C.keeps)) _
  rw [bind_eq h₃] at hd
  simp only [newNode_bind, Assembly.attachToGroup, bind_assoc, attach_bind, modifyTree_bind,
    hspan, hspan', hmerge] at hd
  erw [bind_eq (modifyLoop_apply _ (T.construct_eq (.refl _)))] at hd
  refine ⟨_, { l with condition? := some x.slot, group? := some ⟨b₃.tree.size⟩ },
    .fresh ⟨b₃.tree.size⟩ .group x.node.span, Forest.tree x d, hd, rfl, ?_, rfl, rfl, ?_,
    ⟨{ T'.keeps with }, rfl, T'.staged, T'.stands⟩, rfl⟩
  · exact operands_tree.2 ⟨hx, hd'⟩
  · obtain ⟨hlo, hdw, hhi⟩ := (within_present hx.span_ne).1 C₂.within
    exact .cons hx.present hlo ((within_tree hx.span_ne).2 ⟨le_rfl, hdw, le_rfl⟩) hhi

end Deferral.Assembly
