import Deferral.Proofs.Agreement
import Deferral.Proofs.Lookup

/-!
# What a construct names

A construct names some of the nodes below its own: the header group, the operands of an expression, the parts of the
header of a loop. Only the condition behind the body of a loop is named before it is below the loop, and the end of the
loop comes right after it (`Grammar.trailsClose`). So in the tree of a source that is accepted everything that is named
is below the node that names it (`Assembly.linked_of_build`).
-/

namespace Deferral

open List

namespace Construct

theorem operands_setBraced (b : Bool) (c : Construct) : (c.setBraced b).operands = c.operands := by cases c <;> rfl

theorem parts_setBraced (b : Bool) (c : Construct) : (c.setBraced b).parts = c.parts := by cases c <;> rfl

theorem mem_operands_of_group? {c : Construct} {g : Slot} (h : c.group? = some g) : g ∈ c.operands := by
  cases c with
  | branch | loop | switch => simpa [operands, group?] using h
  | _ => cases h

theorem operands_of_scope {c : Construct} (h : c.tag = .scope) : c.operands = [] ∧ c.parts = [] := by
  cases c <;> first | exact ⟨rfl, rfl⟩ | cases h

end Construct

namespace Tree

variable {t t' : Tree} {late : Slot → Slot → Prop} {s u p g x body : Slot} {cs l : List Slot}

/-- What a construct names is a child of its node, and what a loop names besides is a child of a header group of the
loop. Children that are still to come are in `late`. -/
structure Linked (t : Tree) (late : Slot → Slot → Prop) : Prop where
  operand : ∀ {s x}, x ∈ (t.construct s).operands → x ∈ t.children s ∨ late s x
  part : ∀ {s x}, x ∈ (t.construct s).parts → ∃ g, t.tag g = .group ∧ x ∈ t.children g ∧ (g ∈ t.children s ∨ late s g)

theorem children_subset_attach {c : Slot} : t.children u ⊆ (t.attach p c).children u := by
  rw [Tree.attach, children, children, node_modify, node_modify]
  split <;> split <;> simp

/-- What has a redundant body is no header group, and names at most its own. -/
theorem group?_of_redundantBody? (h : t.redundantBody? s = some body) :
    t.tag s ≠ .group ∧ ∀ x ∈ (t.construct s).operands, (t.construct s).group? = some x := by
  unfold redundantBody? at h
  rw [tag_eq]
  cases hc : t.construct s with
  | function | loop | branch | switch => exact ⟨by simp [Construct.tag], by simp [Construct.operands, Construct.group?]⟩
  | _ => simp [hc] at h

namespace Linked

variable {c : Construct}

theorem caughtUp (h : t.Linked late) (hl : ∀ s g, late s g → g ∈ t.children s) : t.Linked fun _ _ => False where
  operand hx := .inl ((h.operand hx).elim id (hl _ _))
  part hx := by
    obtain ⟨g, hg, hxg, hgs⟩ := h.part hx
    exact ⟨g, hg, hxg, .inl (hgs.elim id (hl _ _))⟩

theorem mono (h : t.Linked fun _ _ => False) (late : Slot → Slot → Prop) : t.Linked late where
  operand hx := .inl ((h.operand hx).resolve_right id)
  part hx := by
    obtain ⟨g, hg, hxg, hgs⟩ := h.part hx
    exact ⟨g, hg, hxg, .inl (hgs.resolve_right id)⟩

theorem sprout (h : t.Linked late) (hc : ∀ s, s ≠ ⟨t.size⟩ → t'.construct s = t.construct s)
    (hch : ∀ s, t.children s ⊆ t'.children s) (ho : ∀ x ∈ (t'.construct ⟨t.size⟩).operands, x ∈ t'.children ⟨t.size⟩)
    (hp : (t'.construct ⟨t.size⟩).parts = []) : t'.Linked late := by
  refine ⟨fun {s x} hx => ?_, fun {s x} hx => ?_⟩
  · by_cases hs : s = ⟨t.size⟩
    · subst hs
      exact .inl (ho x hx)
    · rw [hc s hs] at hx
      exact (h.operand hx).imp_left (hch s ·)
  · by_cases hs : s = ⟨t.size⟩
    · subst hs
      simp [hp] at hx
    · rw [hc s hs] at hx
      obtain ⟨g, hg, hxg, hgs⟩ := h.part hx
      refine ⟨g, ?_, hch g hxg, hgs.imp_left (hch s ·)⟩
      rw [tag_eq, hc g (ne_new (lt_size_of_tag (by simp [hg]))), ← tag_eq, hg]

theorem grow (h : t.Linked late) (hc : ∀ s, t'.construct s = t.construct s) (hch : ∀ s, t.children s ⊆ t'.children s) :
    t'.Linked late where
  operand hx := (h.operand (hc _ ▸ hx)).imp_left (hch _ ·)
  part hx := by
    obtain ⟨g, hg, hxg, hgs⟩ := h.part (hc _ ▸ hx)
    exact ⟨g, by rw [tag_eq, hc, ← tag_eq, hg], hch g hxg, hgs.imp_left (hch _ ·)⟩

theorem attach (h : t.Linked late) (p c : Slot) : (t.attach p c).Linked late :=
  h.grow (fun _ => construct_attach) fun _ => children_subset_attach

theorem attachAll : ∀ {cs : List Slot} {t : Tree}, t.Linked late → (t.attachAll p cs).Linked late
  | [], _, h => h
  | c :: _, t, h => attachAll (t := t.attach p c) (h.attach p c)

theorem push (h : t.Linked late) (ho : c.operands = []) (hp : c.parts = []) (span : Span) :
    (t.push c span).2.Linked late := by
  refine h.sprout (fun s hs => construct_push_ne hs) (fun s => by rw [children_push]; exact List.Subset.refl _) ?_ ?_
  all_goals simp [construct_push, ho, hp]

theorem make (h : t.Linked late) (ho : ∀ x ∈ c.operands, x ∈ cs) (hp : c.parts = []) (span : Span) :
    ((t.push c span).2.attachAll ⟨t.size⟩ cs).Linked late := by
  have hch : ∀ u, ((t.push c span).2.attachAll ⟨t.size⟩ cs).children u = _ := fun u =>
    children_attachAll cs (t.push c span).2 (by simp)
  refine h.sprout (fun s hs => ?_) (fun s => ?_) (fun x hx => ?_) ?_
  · rw [construct_attachAll, construct_push_ne hs]
  · rw [hch, children_push]
    split
    · exact subset_append_left _ _
    · exact List.Subset.refl _
  · rw [construct_attachAll, construct_push, if_pos rfl] at hx
    rw [hch, if_pos rfl]
    exact mem_append_right _ (ho x hx)
  · rw [construct_attachAll, construct_push, if_pos rfl, hp]

theorem setConstruct (h : t.Linked late) (htag : c.tag = t.tag s) (ho : ∀ x ∈ c.operands, x ∈ t.children s ∨ late s x)
    (hp : ∀ x ∈ c.parts, ∃ g, t.tag g = .group ∧ x ∈ t.children g ∧ (g ∈ t.children s ∨ late s g)) :
    (t.setConstruct s c).Linked late := by
  refine ⟨fun {u x} hx => ?_, fun {u x} hx => ?_⟩
  · rw [construct_setConstruct] at hx
    rw [children_setConstruct]
    split at hx
    case isTrue hu =>
      rw [hu.1]
      exact ho x hx
    case isFalse => exact h.operand hx
  · rw [construct_setConstruct] at hx
    simp only [children_setConstruct, tag_setConstruct htag]
    split at hx
    case isTrue hu =>
      rw [hu.1]
      exact hp x hx
    case isFalse => exact h.part hx

theorem setSpan (h : t.Linked late) (s : Slot) (span : Span) : (t.setSpan s span).Linked late :=
  h.grow (fun _ => construct_setSpan) fun _ => by rw [children_setSpan]; exact List.Subset.refl _

/-- A loop gets a condition in a new header group, which is still to come. -/
theorem trail {p : LoopParts} (h : t.Linked fun _ _ => False) (hp : t.construct s = .loop p) (x : Slot) (span : Span) :
    ((((t.push .group .absent).2.attach ⟨t.size⟩ x).setSpan ⟨t.size⟩ span).setConstruct s
      (.loop { p with condition? := some x, group? := some ⟨t.size⟩ })).Linked fun u y => u = s ∧ y = ⟨t.size⟩ := by
  have hs : s ≠ ⟨t.size⟩ := ne_new (lt_size_of_tag (by rw [tag_eq, hp]; exact nofun))
  have h' := (((h.push (c := .group) rfl rfl .absent).attach ⟨t.size⟩ x).setSpan ⟨t.size⟩ span).mono
    fun u y => u = s ∧ y = ⟨t.size⟩
  have hc : ((((t.push .group .absent).2.attach ⟨t.size⟩ x).setSpan ⟨t.size⟩ span).construct s) = .loop p := by
    rw [construct_setSpan, construct_attach, construct_push_ne hs, hp]
  refine h'.setConstruct ?_ (fun y hy => ?_) fun y hy => ?_
  · rw [tag_eq, hc]
    rfl
  · exact .inr ⟨rfl, by simpa [Construct.operands] using hy⟩
  · by_cases hyx : y = x
    · refine ⟨⟨t.size⟩, ?_, ?_, .inr ⟨rfl, rfl⟩⟩
      · rw [tag_setSpan, tag_attach, tag_push_self]
        rfl
      · rw [children_setSpan, children_attach (by simp), if_pos rfl, hyx]
        simp
    · have hold : y ∈ ((((t.push .group .absent).2.attach ⟨t.size⟩ x).setSpan ⟨t.size⟩ span).construct s).parts := by
        rw [hc, Construct.mem_parts]
        rcases Construct.mem_parts.1 hy with hy | hy | hy
        · exact .inl hy
        · exact absurd (Option.some.inj hy).symm hyx
        · exact .inr (.inr hy)
      exact h'.part hold

theorem foldBody (h : t.Linked late) (hs : t.Sound l) (hb : t.redundantBody? s = some body) :
    (t.foldBody s body).Linked late := by
  obtain ⟨hm, hscope⟩ := mem_children_of_redundantBody? hb
  obtain ⟨hgroup, hnames⟩ := group?_of_redundantBody? hb
  have ho := hs.owned
  obtain ⟨before, after, hsplit, hbefore, -⟩ := ho.exists_split hm
  have hstays : ∀ {u x}, x ∈ t.children u → x ≠ body → u ≠ body → x ∈ (t.foldBody s body).children u := by
    intro u x hx hxb hub
    rw [children_foldBody, children_dissolve (Owned.lt_of_child hm) (ho.child hm).1 (ho.ne_of_child hm) hsplit hbefore,
      if_neg hub]
    split
    case isTrue hu =>
      rw [hu, hsplit] at hx
      simp only [mem_append, mem_cons] at hx ⊢
      rcases hx with hx | hx | hx
      · exact .inl (.inl hx)
      · exact absurd hx hxb
      · exact .inr hx
    case isFalse => exact hx
  have hconstruct : ∀ u, ((t.foldBody s body).construct u).operands = (t.construct u).operands ∧
      ((t.foldBody s body).construct u).parts = (t.construct u).parts := fun u => by
    rcases construct_foldBody (t := t) (s := s) (u := u) with he | he
    · rw [he]
      exact ⟨rfl, rfl⟩
    · rw [he, Construct.operands_setBraced, Construct.parts_setBraced]
      exact ⟨rfl, rfl⟩
  have hnone := Construct.operands_of_scope ((tag_eq t body).symm.trans hscope)
  refine ⟨fun {u x} hx => ?_, fun {u x} hx => ?_⟩
  · rw [(hconstruct u).1] at hx
    have hub : u ≠ body := fun he => by simp [he, hnone.1] at hx
    refine (h.operand hx).imp_left fun hc => hstays hc ?_ hub
    rintro rfl
    obtain rfl := ho.unique hc hm
    simp [hs.groups (hnames _ hx)] at hscope
  · rw [(hconstruct u).2] at hx
    have hub : u ≠ body := fun he => by simp [he, hnone.2] at hx
    obtain ⟨g, hg, hxg, hgu⟩ := h.part hx
    have hgb : g ≠ body := fun he => by simp [← he, hg] at hscope
    refine ⟨g, by rw [tag_foldBody, hg], hstays hxg ?_ hgb, hgu.imp_left fun hc => hstays hc hgb hub⟩
    rintro rfl
    obtain rfl := ho.unique hxg hm
    exact hgroup hg

theorem absorb (h : t.Linked late) (hs : t.Sound l) : (t.absorb s).2.Linked late :=
  (absorbIn_induction (motive := fun t => t.Linked late ∧ t.Sound l)
    (fun ht hb => ⟨ht.1.foldBody ht.2 hb, ht.2.foldBody hb⟩) t.size ⟨h, hs⟩).1

end Linked

end Tree

namespace Grammar

variable {e : Event} {es es' : List Event} {source : List UInt8}

/-! ## Conditions behind a body -/

/-- The condition behind the body of a loop is directly followed by the end of the loop. -/
def trailsClose : List Event → Bool
  | [] => true
  | e :: es => (e.kind != .doWhileCondition || es.head?.any (·.kind == .loopEnd)) && trailsClose es

theorem trailsClose_append : ∀ {es : List Event}, trailsClose es = true → trailsClose es' = true →
    trailsClose (es ++ es') = true
  | [], _, h' => h'
  | e :: es, h, h' => by
    rw [trailsClose, Bool.and_eq_true] at h
    rw [cons_append, trailsClose, trailsClose_append h.2 h', Bool.and_true]
    cases es with
    | nil =>
      have hk : e.kind ≠ .doWhileCondition := by simpa using h.1
      simp [hk]
    | cons => exact h.1

theorem trailsClose_cons (hk : e.kind ≠ .doWhileCondition) (h : trailsClose es = true) :
    trailsClose (e :: es) = true := by
  simp [trailsClose, hk, h]

theorem trailsClose_inner : ∀ {es : List Event}, (∀ e ∈ es, e.kind.isInner = true) → trailsClose es = true
  | [], _ => rfl
  | e :: es, h => by
    obtain ⟨he, hes⟩ := forall_mem_cons.1 h
    refine trailsClose_cons (fun hk => ?_) (trailsClose_inner hes)
    rw [hk] at he
    cases he

theorem Condition.trailsClose (c : Condition) {kind : Event.Kind} (hk : kind ≠ .doWhileCondition) :
    Grammar.trailsClose (c.events source kind) = true :=
  trailsClose_append (trailsClose_inner c.test.inner) (trailsClose_cons hk rfl)

theorem optionEvents_trailsClose (y? : Option Expr) : trailsClose (optionEvents source y?) = true := by
  cases y? with
  | none => rfl
  | some y => exact trailsClose_inner y.inner

theorem ForParts.trailsClose (f : ForParts) : Grammar.trailsClose (f.events source) = true := by
  have hinit : Grammar.trailsClose (f.init.events source) = true := by
    cases f.init with
    | none => rfl
    | declaration d => exact trailsClose_inner d.inner
    | expression y => exact trailsClose_inner y.inner
  exact trailsClose_append hinit (trailsClose_cons nofun (trailsClose_append (optionEvents_trailsClose f.test?)
    (trailsClose_cons nofun (trailsClose_append (optionEvents_trailsClose f.change?) rfl))))

theorem Simple.trailsClose (s : Simple) : Grammar.trailsClose (s.events source) = true := by
  cases s with
  | expression y | declaration y => exact trailsClose_append (trailsClose_inner y.inner) rfl
  | empty | jump => rfl
  | returned _ y? => exact trailsClose_append (optionEvents_trailsClose y?) rfl
  | deferred _ y => exact trailsClose_cons nofun (trailsClose_append (trailsClose_inner y.1.inner) rfl)

mutual

theorem Stmt.trailsClose : ∀ (s : Stmt), Grammar.trailsClose (s.events source) = true
  | .simple s => s.trailsClose
  | .label l => by cases l <;> rfl
  | .block b => b.trailsClose
  | .deferBlock _ b => trailsClose_cons nofun (trailsClose_append b.trailsClose rfl)
  | .branch _ c y =>
    trailsClose_cons nofun (trailsClose_append (c.trailsClose nofun) (trailsClose_append (y.trailsClose _) rfl))
  | .branchElse _ c y _ n =>
    trailsClose_cons nofun (trailsClose_append (c.trailsClose nofun) (trailsClose_append (y.trailsClose _)
      (trailsClose_cons nofun (trailsClose_append (n.trailsClose _) rfl))))
  | .whileLoop _ c b =>
    trailsClose_cons nofun (trailsClose_append (c.trailsClose nofun) (trailsClose_append (b.trailsClose _) rfl))
  | .forLoop _ f b => trailsClose_cons nofun
      (trailsClose_append f.trailsClose (trailsClose_append (b.trailsClose _) rfl))
  | .doLoop _ b _ c _ => by
    refine trailsClose_cons nofun (trailsClose_append (b.trailsClose _) ?_)
    rw [Condition.events, append_assoc]
    exact trailsClose_append (trailsClose_inner c.test.inner) rfl
  | .switch _ c b =>
    trailsClose_cons nofun (trailsClose_append (c.trailsClose nofun) (trailsClose_append b.trailsClose rfl))

theorem Stmts.trailsClose : ∀ (ss : Stmts), Grammar.trailsClose (ss.events source) = true
  | .nil => rfl
  | .cons s rest => trailsClose_append s.trailsClose rest.trailsClose

theorem Block.trailsClose : ∀ (b : Block), Grammar.trailsClose (b.events source) = true
  | .mk _ items _ => trailsClose_cons nofun (trailsClose_append items.trailsClose rfl)

theorem Body.trailsClose : ∀ (b : Body) (p : Nat), Grammar.trailsClose (b.events source p) = true
  | .braced b, _ => b.trailsClose
  | .single s, _ => trailsClose_cons nofun (trailsClose_append s.trailsClose rfl)

end

theorem FunctionPhrase.trailsClose (f : FunctionPhrase) : Grammar.trailsClose (f.events source) = true := by
  have hwords : ∀ e ∈ f.specifiers.1.flatMap Specifier.events, e.kind.isInner = true :=
    forall_mem_flatMap.2 fun s _ => s.inner
  exact trailsClose_append (trailsClose_inner hwords) (trailsClose_append (trailsClose_inner f.declarator.inner)
    (trailsClose_append (trailsClose_inner (f.params.inner _)) (trailsClose_cons nofun
      (trailsClose_append f.body.trailsClose rfl))))

theorem items_trailsClose : ∀ (items : List Item), trailsClose (items.flatMap (Item.events source)) = true
  | [] => rfl
  | .function f :: items => trailsClose_append f.trailsClose (items_trailsClose items)
  | .other _ :: items => items_trailsClose items

theorem trailsClose_of_trace (hstop : (trace source).stop? = none) :
    trailsClose (trace source).events.toList = true := by
  obtain ⟨tokens, items, -, -, hevents⟩ := exists_items_of_trace hstop
  rw [hevents]
  exact trailsClose_append (items_trailsClose items) rfl

end Grammar

namespace Assembly

open Tree

variable {may : Special → Prop} {late : Slot → Slot → Prop} {a b : Assembly} {w w' : Work} {e : Event} {es : List Event}

/-! ## Acts -/

theorem Act.linked (h : Act may w w') (hm : ¬may .trail) (ho : Owning w) (hl : w.assembly.tree.Linked late) :
    w'.assembly.tree.Linked late := by
  cases h with
  | note h =>
    rw [(core_eq h).1]
    exact hl
  | measure s span => exact hl.setSpan s span
  | make c span cs hc => exact hl.make hc.operands hc.parts span
  | @apply a hand held op x text hop =>
    have hlt : op.index < a.tree.size := lt_size_of_tag (by rw [tag_eq, hop]; exact nofun)
    refine (hl.attach op x).setConstruct (by rw [tag_attach, tag_eq, hop]; rfl) (fun y hy => .inl ?_) nofun
    obtain rfl : y = x := by simpa [Construct.operands] using hy
    simp [children_attach hlt]
  | @lead a hand held c frame frames hscopes htag hparams hg hops hp =>
    have hlt := (ho.sound.free _ (Work.slot_mem_loose hscopes)).1
    have hlt' : frame.slot.index < (a.tree.push .group .absent).2.size := by
      rw [size_push]
      exact Nat.lt_succ_of_lt hlt
    refine ((hl.push rfl rfl .absent).attach frame.slot ⟨a.tree.size⟩).setConstruct ?_
      (fun y hy => .inl ?_) (by simp [hp])
    · rw [tag_attach, tag_push_ne (ne_new hlt), htag]
    · obtain rfl : y = ⟨a.tree.size⟩ := by simpa [hops] using hy
      simp [children_attach hlt']
  | leave => exact hl.attachAll
  | absorb => exact hl.absorb ho.sound
  | @recast a hand held s c htag hparams hg hops hp =>
    refine hl.setConstruct htag (fun y hy => hl.operand (hops ▸ hy)) fun y hy => ?_
    rcases hp y hy with hy | ⟨g, hgroup, hy⟩
    · exact hl.part hy
    · have htag := ho.sound.groups hgroup
      exact ⟨g, htag, hy (lt_size_of_tag (by simp [htag])), hl.operand (Construct.mem_operands_of_group? hgroup)⟩
  | trail hm' => exact absurd hm' hm
  | adopt => exact hl.attach _ _
  | give => exact hl.attach _ _
  | param =>
    refine hl.grow (fun u => ?_) fun u => ?_
    · rw [Tree.construct, node_modify]
      split <;> rfl
    · rw [children, children, node_modify]
      split <;> exact List.Subset.refl _
  | complete => exact hl.attachAll
  | _ => exact hl

theorem Acts.linked (h : Acts may w w') (hm : ¬may .trail) (ho : Owning w) (hlight : may .fill → w.Light)
    (hl : w.assembly.tree.Linked late) : w'.assembly.tree.Linked late := by
  induction h with
  | refl => exact hl
  | tail hacts hact ih =>
    refine hact.linked hm ?_ ih
    by_cases hf : may .fill
    · exact (Acts.owning hacts ho (hlight hf)).1
    · exact Acts.owning_of_not_fill hacts hf ho

/-! ## Events -/

theorem Kept.linked (h : Kept a) (hf : a.failure? = none) (hk : e.kind ≠ .doWhileCondition) (hl : a.tree.Linked late)
    (hd : Assembly.dispatch e a = .ok () b) : b.tree.Linked late := by
  by_cases hk' : e.kind = .deferred
  · rw [Assembly.dispatch, hk'] at hd
    rcases onDeferred_cases e a with ⟨f, herror⟩ | ⟨waiting, rest, hw, hgoes, -⟩
    · change Assembly.onDeferred e a = .ok () b at hd
      rw [herror] at hd
      cases hd
    · change Assembly.onDeferred e a = .ok () b at hd
      rw [hd] at hgoes
      have hacts : Acts _ _ ⟨[], [], b⟩ := hgoes
      exact hacts.linked id (h.owning.resumed hw) (fun hfill => by cases hfill) hl
  · have hgoes := proper_dispatch hk' [] [] a
    rw [hd] at hgoes
    have hacts : Acts _ _ ⟨[], [], b⟩ := hgoes
    refine hacts.linked (fun hm => hk ?_) h.owning (fun _ => h.light hf) hl
    unfold specials at hm
    split at hm <;> first | assumption | cases hm

/-- A condition behind a body. Its group is named by the loop and on top of the stage. -/
theorem Kept.linked_trail (h : Kept a) (hb : a.Bounded) (hl : a.tree.Linked fun _ _ => False)
    (hd : onDoCondition e a = .ok () b) :
    ∃ frame frames g, b.scopes = frame :: frames ∧ frame.base < b.height ∧ b.staged.head? = some g ∧
      b.tree.Linked fun s x => s = frame.slot ∧ x = g := by
  obtain ⟨s, a₁, h₁, hd⟩ := bind_ok.1 hd
  obtain ⟨rfl, htag, frame, frames, hs, rfl⟩ := expectTop_ok h₁
  obtain ⟨x, c, h₂, hd⟩ := bind_ok.1 hd
  obtain ⟨hgoes, hfixed⟩ : Gets (fun _ => False) ⟨[], [], a₁⟩ (popSingle e a₁) ([·]) := gets_popSingle e [] [] a₁
  rw [h₂] at hgoes
  have hacts : Acts (fun _ => False) ⟨[], [], a₁⟩ ⟨[x], [], c⟩ := hgoes
  have hlc := hacts.linked id h.owning nofun hl
  have hoc := hacts.owning_of_not_fill id h.owning
  have hbc := hacts.bounded hb
  replace hfixed := hfixed h₂
  obtain ⟨l, hloop⟩ : ∃ l, c.tree.construct frame.slot = .loop l :=
    Construct.exists_loop ((hfixed.tag frame.slot).trans htag)
  have hne : frame.slot ≠ ⟨c.tree.size⟩ := ne_new (lt_size_of_tag (by rw [tag_eq, hloop]; exact nofun))
  rw [newNode_bind, attachToGroup_bind, modifyLoop_bind (l := l) _ (by simp [Tree.construct_push, hne, hloop])] at hd
  obtain ⟨-, rfl⟩ := EStateM.Result.ok.inj hd
  have hs' : c.scopes = frame :: frames := hfixed.scopes.trans hs
  refine ⟨frame, frames, ⟨c.tree.size⟩, hs', ?_, rfl, hlc.trail hloop x _⟩
  have hle := hbc.scopes
  rw [hs'] at hle
  exact Nat.lt_succ_of_le (hle.1.trans hbc.base)

theorem closeScope_ok {s : Slot} {stop : Nat} (h : closeScope e stop a = .ok s b) : ∃ frame outer frames,
    a.scopes = frame :: outer :: frames ∧ frame.base ≤ a.height ∧ b = a.left frame (outer :: frames) stop := by
  obtain ⟨u, a₁, h₁, h₂⟩ := bind_ok.1 h
  obtain ⟨rfl, hb⟩ := expectNoOperands_ok h₁
  rcases hs : a₁.scopes with - | ⟨frame, - | ⟨outer, frames⟩⟩
  case cons.cons =>
    by_cases hle : frame.base ≤ a₁.height
    · rw [closeScope_eq hb hs hle] at h
      exact ⟨frame, outer, frames, rfl, hle, (EStateM.Result.ok.inj h).2.symm⟩
    · rw [get_bind, hs] at h₂
      dsimp only at h₂
      rw [set_bind, if_pos (Nat.lt_of_not_le hle)] at h₂
      cases h₂
  all_goals
    rw [get_bind, hs] at h₂
    cases h₂

theorem closing_ok {s : Slot} {tag : Construct.Tag} (h : closing e tag a = .ok s b) :
    closeScope e e.offset a = .ok s b := by
  obtain ⟨u, a₁, h₁, h₂⟩ := bind_ok.1 h
  obtain ⟨rfl, -⟩ := expectTop_ok h₁
  rw [get_bind] at h₂
  split at h₂
  · cases h₂
  · exact h₂

theorem Kept.linked_loopEnd (h : Kept a) {frame : Frame} {frames : List Frame} {g : Slot}
    (hs : a.scopes = frame :: frames) (hlt : frame.base < a.height) (hg : a.staged.head? = some g)
    (hl : a.tree.Linked fun s x => s = frame.slot ∧ x = g) (hd : closeConstruct e .loop a = .ok () b) :
    b.tree.Linked fun _ _ => False := by
  rw [closeConstruct_eq] at hd
  obtain ⟨s, a₁, h₁, hd⟩ := bind_ok.1 hd
  have hgoes : Goes (fun _ => False) ⟨[], [], a⟩ (closing e .loop a) fun s b => ⟨[], [s], b⟩ :=
    goes_closing e .loop [] [] a
  rw [h₁] at hgoes
  have hacts : Acts (fun _ => False) ⟨[], [], a⟩ ⟨[], [s], a₁⟩ := hgoes
  have hcaught : a₁.tree.Linked fun _ _ => False := by
    refine (hacts.linked id h.owning nofun hl).caughtUp ?_
    rintro _ _ ⟨rfl, rfl⟩
    obtain ⟨frame, outer, frames, hs', -, rfl⟩ := closeScope_ok (closing_ok h₁)
    obtain ⟨rfl, -⟩ := List.cons.inj (hs'.symm.trans hs)
    obtain ⟨rest, hstaged⟩ := head?_eq_some_iff.1 hg
    have hfree := (h.owning.sound.free _ (Work.slot_mem_loose hs)).1
    obtain ⟨k, hk⟩ : ∃ k, a.height - frame.base = k + 1 := ⟨a.height - frame.base - 1, by omega⟩
    simp only [left, children_setSpan]
    rw [children_attachAll _ _ hfree, if_pos rfl, hk, hstaged]
    simp
  have hstage : Goes (Eq .fold) ⟨[], [s], a₁⟩ (stageClosed e .loop s a₁) fun _ b => ⟨[], [], b⟩ :=
    goes_stageClosed rfl e .loop s [] [] a₁
  rw [hd] at hstage
  have hrest : Acts _ _ ⟨[], [], b⟩ := hstage
  exact hrest.linked nofun (hacts.owning_of_not_fill id h.owning) nofun hcaught

/-! ## Runs -/

/-- An assembly without fault that completes deferred statements in time, with the events to come. -/
structure Steady (a : Assembly) (es : List Event) : Prop where
  kept : Kept a
  bounded : a.Bounded
  failure : a.failure? = none
  balanced : a.balanced (es.map .event) = true

theorem Steady.step (h : Steady a (e :: es)) (hd : Assembly.dispatch e a = .ok () b) : Steady b es := by
  have hcall : a.call (.event e) = (b, none) := by simp [call, handle, h.failure, hd]
  have hbal := h.balanced
  rw [map_cons, Assembly.balanced, hcall, Bool.and_eq_true] at hbal
  have hfail : b.failure? = none := (failure_of_dispatch hd).trans h.failure
  have hbounded := Bounded.call (.event e) (fun _ => h.bounded) fun e' he _ hk => by
    obtain rfl := Call.event.inj he
    simpa [h.failure, hk] using hbal.1
  rw [hcall] at hbounded
  obtain ⟨ho, hl⟩ := (h.kept.dispatch h.failure).1 () b hd
  exact ⟨⟨ho, fun _ => hl⟩, hbounded.1 hfail, hfail, hbal.2⟩

theorem Steady.linked : ∀ {es : List Event} {a : Assembly}, Steady a es → Grammar.trailsClose es = true → Takes a es b →
    a.tree.Linked (fun _ _ => False) → b.tree.Linked fun _ _ => False
  | [], _, _, _, ht, hl => by
    rw [takes_nil.1 ht]
    exact hl
  | e :: es, a, h, hc, ht, hl => by
    obtain ⟨a₁, h₁, ht⟩ := ht.cons
    rw [Grammar.trailsClose, Bool.and_eq_true] at hc
    by_cases hk : e.kind = .doWhileCondition
    · -- The end of the loop is taken together with its condition.
      cases es with
      | nil => simp [hk] at hc
      | cons e' es =>
        have hk' : e'.kind = .loopEnd := by simpa [hk] using hc.1
        obtain ⟨a₂, h₂, ht⟩ := ht.cons
        have hs₁ := h.step h₁
        have hs₂ := hs₁.step h₂
        simp only [Assembly.dispatch, hk] at h₁
        simp only [Assembly.dispatch, hk'] at h₂
        obtain ⟨frame, frames, g, hs, hlt, hg, hl'⟩ := h.kept.linked_trail h.bounded hl h₁
        have hc₂ := hc.2
        rw [Grammar.trailsClose, Bool.and_eq_true] at hc₂
        exact hs₂.linked hc₂.2 ht (hs₁.kept.linked_loopEnd hs hlt hg hl' h₂)
    · exact (h.step h₁).linked hc.2 ht (h.kept.linked h.failure hk hl h₁)

theorem linked_start (path : Path) : (start path).tree.Linked fun _ _ => False := by
  have hnone : ∀ s, ((start path).tree.construct s).operands = [] ∧ ((start path).tree.construct s).parts = [] := by
    rintro ⟨_ | i⟩
    · exact ⟨rfl, rfl⟩
    · simp [start, Tree.ofPath, Tree.construct, Tree.node, default, Construct.operands, Construct.parts]
  exact ⟨fun hx => by simp [(hnone _).1] at hx, fun hx => by simp [(hnone _).2] at hx⟩

/-- In the tree of a source everything that is named is below the node that names it. -/
theorem linked_of_build {path : Path} {source : List UInt8} {t : Tree} (h : ((start path).build source).1 = .ok t) :
    t.Linked fun _ _ => False := by
  obtain ⟨a, ht, hstop, rfl⟩ := takes_of_build h
  exact Steady.linked ⟨kept_start path, bounded_start path, rfl, balanced_of_trace hstop ht⟩
    (Grammar.trailsClose_of_trace hstop) ht
    (linked_start path)

end Assembly

end Deferral
