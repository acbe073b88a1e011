import Deferral.Proofs.Bounds
import Mathlib.Data.List.Perm.Basic

/-!
# What is loose in an assembly

A node without parent is loose as long as a step may still give it one: nodes on the stage, open scopes, deferred
statements without operation, and what a step has in hand. Each act takes its children from what is loose, so that no
node gets two parents (`Act.owning`). A header group is filled while it is below an open scope; what goes into it comes
from the current statement, and no header group is below that (`Light`), so that no node gets above itself.
-/

namespace Deferral

open List

theorem Construct.group?_setBraced (b : Bool) (c : Construct) : (c.setBraced b).group? = c.group? := by
  cases c <;> rfl

namespace Tree

variable {t t' : Tree} {s u v p c g : Slot} {l l' cs : List Slot}

theorem group?_foldBody : ((t.foldBody s u).construct v).group? = (t.construct v).group? := by
  have hc : (t.foldBody s u).construct v = _ ∨ _ := construct_foldBody
  rcases hc with h | h <;> simp [h, Construct.group?_setBraced]

section New

variable {construct : Construct} {span : Span}

theorem ne_new (h : s.index < t.size) : s ≠ ⟨t.size⟩ := by
  rintro rfl
  exact Nat.lt_irrefl _ h

theorem construct_push_ne (h : u ≠ ⟨t.size⟩) : (t.push construct span).2.construct u = t.construct u := by
  rw [construct_push, if_neg h]

theorem tag_push_ne (h : u ≠ ⟨t.size⟩) : (t.push construct span).2.tag u = t.tag u := by
  rw [tag_eq, construct_push_ne h, tag_eq]

theorem tag_push_self : (t.push construct span).2.tag ⟨t.size⟩ = construct.tag := by
  rw [tag_eq, construct_push, if_pos rfl]

end New

/-! ## Loose nodes -/

/-- The nodes in `loose` are different and have no parent, and parents and children agree everywhere. -/
structure Sound (t : Tree) (loose : List Slot) : Prop where
  owned : t.Owned
  free : ∀ s ∈ loose, s.index < t.size ∧ t.parent? s = none
  nodup : loose.Nodup
  /-- What a construct has as its header group is one. -/
  groups : ∀ {s g}, (t.construct s).group? = some g → t.tag g = .group

namespace Sound

theorem perm (h : t.Sound l) (hp : l'.Perm l) : t.Sound l' :=
  ⟨h.owned, fun s hs => h.free s (hp.mem_iff.1 hs), hp.nodup_iff.2 h.nodup, h.groups⟩

theorem sublist (h : t.Sound l) (hl : l'.Sublist l) : t.Sound l' :=
  ⟨h.owned, fun s hs => h.free s (hl.subset hs), hl.nodup h.nodup, h.groups⟩

theorem tail (h : t.Sound (c :: l)) : t.Sound l := h.sublist (sublist_cons_self c l)

theorem setSpan (h : t.Sound l) (s : Slot) (span : Span) : (t.setSpan s span).Sound l :=
  ⟨h.owned.setSpan s span, fun u hu => by simpa using h.free u hu, h.nodup, fun hg => by
    rw [tag_setSpan]
    rw [construct_setSpan] at hg
    exact h.groups hg⟩

theorem setConstruct (h : t.Sound l) {construct : Construct} (htag : construct.tag = t.tag s)
    (hparams : construct.params = (t.construct s).params)
    (hg : ∀ g, construct.group? = some g → t.tag g = .group) : (t.setConstruct s construct).Sound l :=
  ⟨h.owned.setConstruct hparams, fun u hu => by simpa using h.free u hu, h.nodup, fun hg' => by
    rw [tag_setConstruct htag]
    rw [construct_setConstruct] at hg'
    split at hg'
    · exact hg _ hg'
    · exact h.groups hg'⟩

theorem push (h : t.Sound l) {construct : Construct} (span : Span) (hg : construct.group? = none) :
    (t.push construct span).2.Sound (⟨t.size⟩ :: l) := by
  have hnew : ¬(⟨t.size⟩ : Slot).index < t.size := Nat.lt_irrefl _
  refine ⟨h.owned.push construct span, fun u hu => ?_, nodup_cons.2 ⟨fun hm => hnew (h.free _ hm).1, h.nodup⟩,
    fun {u g} hg' => ?_⟩
  · rw [parent?_push, size_push]
    rcases mem_cons.1 hu with rfl | hu
    · exact ⟨Nat.lt_succ_self _, parent?_eq_none hnew⟩
    · exact ⟨Nat.lt_succ_of_lt (h.free u hu).1, (h.free u hu).2⟩
  · have hold : t.tag g = .group := by
      rw [construct_push] at hg'
      split at hg'
      · simp [hg] at hg'
      · exact h.groups hg'
    have hlt := lt_size_of_tag (t := t) (s := g) (by simp [hold])
    rw [tag_eq, construct_push, if_neg]
    · exact hold
    · rintro rfl
      exact hnew hlt

theorem hang (h : t.Sound (c :: l)) (hp : p.index < t.size) (hfar : ¬t.Leads p c) : (t.attach p c).Sound l := by
  obtain ⟨hc, hroot⟩ := h.free c mem_cons_self
  have hnd := nodup_cons.1 h.nodup
  refine ⟨h.owned.attach hp hc hroot hfar, fun u hu => ?_, hnd.2, fun hg => ?_⟩
  · rw [parent?_attach hc, if_neg fun he : u = c => hnd.1 (he ▸ hu), size_attach]
    exact h.free u (mem_cons_of_mem _ hu)
  · rw [tag_attach]
    rw [construct_attach] at hg
    exact h.groups hg

theorem attach (h : t.Sound (c :: l)) (hp : p ∈ l) : (t.attach p c).Sound l := by
  obtain ⟨hlt, hroot⟩ := h.free p (mem_cons_of_mem _ hp)
  exact h.hang hlt (Owned.not_leads_of_none hroot fun he => (nodup_cons.1 h.nodup).1 (he ▸ hp))

theorem attachAll : ∀ {cs : List Slot} {t : Tree}, t.Sound (cs ++ l) → p ∈ l → (t.attachAll p cs).Sound l
  | [], _, h, _ => h
  | c :: cs, t, h, hp => by
    have h' : (t.attach p c).Sound (cs ++ l) := Sound.attach h (mem_append_right _ hp)
    exact @attachAll cs (t.attach p c) h' hp

theorem tie (h : t.Sound (c :: l)) (hp : p ∈ l) (hparam : c ∈ (t.construct p).params) :
    (t.modify c ({ · with parent? := some p })).Sound l := by
  obtain ⟨hc, hroot⟩ := h.free c mem_cons_self
  obtain ⟨-, hproot⟩ := h.free p (mem_cons_of_mem _ hp)
  have hnd := nodup_cons.1 h.nodup
  have hco : ∀ v, (t.modify c ({ · with parent? := some p })).construct v = t.construct v := by
    intro v
    rw [Tree.construct, node_modify]
    split <;> rfl
  refine ⟨h.owned.tie hc hroot (Owned.not_leads_of_none hproot fun he => hnd.1 (he ▸ hp)) hparam, fun u hu => ?_, hnd.2,
    fun hg => ?_⟩
  · rw [parent?, node_modify_ne fun he : u = c => hnd.1 (he ▸ hu), size_modify]
    exact h.free u (mem_cons_of_mem _ hu)
  · rw [tag_eq, hco]
    rw [hco] at hg
    exact h.groups hg

theorem foldBody (h : t.Sound l) (hb : t.redundantBody? s = some u) : (t.foldBody s u).Sound l := by
  obtain ⟨hm, -⟩ := mem_children_of_redundantBody? hb
  refine ⟨h.owned.foldBody hb, fun v hv => ?_, h.nodup, fun {v g} hg => ?_⟩
  · obtain ⟨hlt, hroot⟩ := h.free v hv
    rw [parent?_foldBody, h.owned.parent?_dissolve hm, size_foldBody]
    refine ⟨hlt, ?_⟩
    split
    · rfl
    · rw [if_neg fun hc => by simp [(h.owned.child hc).2] at hroot]
      exact hroot
  · rw [tag_foldBody]
    rw [group?_foldBody] at hg
    exact h.groups hg

theorem absorb (h : t.Sound l) (s : Slot) : (t.absorb s).2.Sound l :=
  absorbIn_induction (motive := fun t => t.Sound l) (fun ho hb => ho.foldBody hb) t.size h

end Sound

/-! ## Header groups below a node -/

theorem Owned.eq_of_leads_new (h : t.Owned) (hl : t.Leads s ⟨t.size⟩) : s = ⟨t.size⟩ := by
  rcases hl.cases_tail with he | ⟨v, -, hv⟩
  · exact he.symm
  · have hnew : ¬(⟨t.size⟩ : Slot).index < t.size := Nat.lt_irrefl _
    rcases h.parent hv with hc | hc
    · simp [children_eq_nil hnew] at hc
    · simp [Tree.construct, node_eq_default hnew, Construct.params, default] at hc

theorem Heavy.of_setSpan {span : Span} (h : (t.setSpan u span).Heavy s) : t.Heavy s :=
  h.of_leads (fun _ => tag_setSpan) fun _ hl => hl.of_parent fun _ => parent?_setSpan

theorem Heavy.of_setConstruct {construct : Construct} (htag : construct.tag = t.tag u)
    (h : (t.setConstruct u construct).Heavy s) : t.Heavy s :=
  h.of_leads (fun _ => tag_setConstruct htag) fun _ hl => hl.of_parent fun _ => parent?_setConstruct

theorem Heavy.of_push {construct : Construct} {span : Span} (h : (t.push construct span).2.Heavy s) :
    t.Heavy s ∨ construct.tag = .group ∧ s = ⟨t.size⟩ := by
  obtain ⟨g, hg, hl⟩ := h
  have hl' : t.Leads g s := hl.of_parent fun _ => parent?_push
  rw [tag_eq, construct_push] at hg
  split at hg
  case isTrue hnew =>
    subst hnew
    exact .inr ⟨hg, hl'.eq_of_none (parent?_eq_none (Nat.lt_irrefl _))⟩
  case isFalse => exact .inl ⟨g, hg, hl'⟩

theorem Heavy.of_attach (hc : c.index < t.size) (h : (t.attach p c).Heavy s) : t.Heavy s ∨ t.Heavy c ∧ t.Leads p s :=
  h.of_link (fun _ => parent?_attach hc) fun _ => tag_attach

theorem Heavy.of_attachAll_light : ∀ {cs : List Slot} {t : Tree}, (∀ c ∈ cs, c.index < t.size ∧ ¬t.Heavy c) →
    (t.attachAll p cs).Heavy s → t.Heavy s
  | [], _, _, h => h
  | c :: cs, t, hcs, h => by
    obtain ⟨hc, hlight⟩ := hcs c mem_cons_self
    have hone : ∀ {v}, (t.attach p c).Heavy v → t.Heavy v :=
      fun hv => (hv.of_attach hc).resolve_right fun h' => hlight h'.1
    refine hone (@Heavy.of_attachAll_light cs (t.attach p c) (fun x hx => ?_) h)
    rw [size_attach]
    exact (hcs x (mem_cons_of_mem _ hx)).imp_right (· ∘ hone)

/-- A loose node that takes others is the only one that gets heavy by that. -/
theorem Heavy.of_attachAll : ∀ {cs : List Slot} {t : Tree}, t.Sound (cs ++ l) → p ∈ l →
    (t.attachAll p cs).Heavy s → t.Heavy s ∨ s = p
  | [], _, _, _, h => .inl h
  | c :: cs, t, hs, hp, h => by
    have h' : (t.attach p c).Sound (cs ++ l) := Sound.attach hs (mem_append_right _ hp)
    rcases @Heavy.of_attachAll cs (t.attach p c) h' hp h with h | h
    · refine (h.of_attach (hs.free c mem_cons_self).1).imp_right fun h => ?_
      exact h.2.eq_of_none (hs.free p (mem_cons_of_mem _ (mem_append_right _ hp))).2
    · exact .inr h

theorem Heavy.of_absorb (ho : t.Owned) (h : (t.absorb s).2.Heavy u) : t.Heavy u := by
  have hkeep : (t.absorb s).2.Owned ∧ ((t.absorb s).2.Heavy u → t.Heavy u) := by
    refine absorbIn_induction (motive := fun t' => t'.Owned ∧ (t'.Heavy u → t.Heavy u)) ?_ t.size ⟨ho, id⟩
    rintro t' body ⟨ho', hh⟩ hb
    refine ⟨ho'.foldBody hb, fun h => hh (h.of_leads (fun _ => tag_foldBody) fun v hl => ?_)⟩
    exact ho'.leads_of_dissolve (mem_children_of_redundantBody? hb).1 (hl.of_parent fun _ => parent?_foldBody)
  exact hkeep.2 h

end Tree

namespace Assembly

open Tree

variable {may : Special → Prop} {a : Assembly} {w w' : Work} {hand held : List Slot} {s : Slot} {e : Event}

/-! ## Acts -/

/-- The nodes that may still get a parent. -/
def Work.loose (w : Work) : List Slot :=
  w.hand ++ w.held ++ w.assembly.staged ++ w.assembly.scopes.map Frame.slot ++ w.assembly.waitingDefers.map Frame.slot

/-- The operands of the current statement. -/
def current (a : Assembly) : List Slot := a.staged.take (a.height - a.statementBase)

/-- No node in hand and no operand of the current statement has a header group below it. -/
def Work.Light (w : Work) : Prop := ∀ s ∈ w.hand ++ w.assembly.current, ¬w.assembly.tree.Heavy s

/-- Parents and children agree, and the source file is the outermost scope. -/
structure Owning (w : Work) : Prop where
  sound : w.assembly.tree.Sound w.loose
  root : ∃ base, w.assembly.scopes.getLast? = some ⟨.root, base⟩

theorem Owning.rearrange (h : Owning w) {w' : Work} (htree : w'.assembly.tree = w.assembly.tree)
    (hroot : ∃ base, w'.assembly.scopes.getLast? = some ⟨.root, base⟩)
    (hcount : ∀ x, w'.loose.count x = w.loose.count x) :
    Owning w' := ⟨by rw [htree]; exact h.sound.perm (perm_iff_count.2 hcount), hroot⟩

theorem Work.loose_make (cs hand held : List Slot) (a : Assembly) :
    (⟨cs ++ hand, held, a⟩ : Work).loose = cs ++ (⟨hand, held, a⟩ : Work).loose := by simp [Work.loose]

theorem Work.slot_mem_loose {frame : Frame} {frames : List Frame} (hs : w.assembly.scopes = frame :: frames) :
    frame.slot ∈ w.loose := by simp [Work.loose, hs]

theorem root_mem_scopes (h : ∃ base, a.scopes.getLast? = some ⟨.root, base⟩) : .root ∈ a.scopes.map Frame.slot := by
  obtain ⟨base, hb⟩ := h
  exact mem_map_of_mem (f := Frame.slot) (mem_of_getLast? hb)

theorem sound_leaving {frame : Frame} {frames : List Frame} (hscopes : a.scopes = frame :: frames)
    (hs : a.tree.Sound (⟨hand, held, a⟩ : Work).loose) :
    a.tree.Sound ((a.staged.take (a.height - frame.base)).reverse ++ Work.loose ⟨hand, frame.slot :: held,
      { a with scopes := frames, staged := a.staged.drop (a.height - frame.base) }⟩) := by
  have hcount : ∀ x, a.staged.count x = (a.staged.take (a.height - frame.base)).count x +
      (a.staged.drop (a.height - frame.base)).count x := fun x => by
    rw [← count_append, take_append_drop]
  refine hs.perm (perm_iff_count.2 fun x => ?_)
  simp only [Work.loose, hscopes, map_cons, count_append, count_cons, count_reverse, hcount]
  omega

theorem sound_completing (hs : a.tree.Sound (⟨hand, held, a⟩ : Work).loose) :
    a.tree.Sound (a.staged.reverse ++ Work.loose ⟨hand, held, { a with staged := [] }⟩) := by
  refine hs.perm (perm_iff_count.2 fun x => ?_)
  simp only [Work.loose, count_append, count_reverse, count_nil]
  omega

/-- Parents and children agree after every act. Only filling a header needs to know that no group is below what goes
into it. -/
theorem Act.owning (h : Act may w w') (ho : Owning w) (hl : may .fill → w.Light) : Owning w' := by
  obtain ⟨hs, hroot⟩ := ho
  cases h with
  | note h =>
    obtain ⟨htree, hstaged, hscopes, -, hwaiting, -⟩ := core_eq h
    refine Owning.rearrange ⟨hs, hroot⟩ htree (by rwa [hscopes]) fun x => ?_
    simp only [Work.loose, hstaged, hscopes, hwaiting]
  | measure s span => exact ⟨hs.setSpan s span, hroot⟩
  | shuffle hp =>
    refine Owning.rearrange ⟨hs, hroot⟩ rfl hroot fun x => ?_
    simp [Work.loose, count_append, hp.count_eq]
  | spare => exact ⟨hs.tail, hroot⟩
  | aside | stage | settle =>
    refine Owning.rearrange ⟨hs, hroot⟩ rfl hroot fun x => ?_
    simp only [Work.loose, count_append, count_cons]
    omega
  | @make a hand held c span cs hc =>
    rw [Work.loose_make] at hs
    have h' : (a.tree.push c span).2.Sound (cs ++ ⟨a.tree.size⟩ :: (⟨hand, held, a⟩ : Work).loose) :=
      (hs.push span hc.group?).perm perm_middle
    exact ⟨h'.attachAll mem_cons_self, hroot⟩
  | take hb hstaged =>
    refine Owning.rearrange ⟨hs, hroot⟩ rfl hroot fun x => ?_
    simp only [Work.loose, hstaged, count_append, count_cons]
    omega
  | @apply a hand held op x text hop =>
    have h' : (a.tree.attach op x).Sound (⟨op :: hand, held, a⟩ : Work).loose := hs.attach mem_cons_self
    refine ⟨h'.setConstruct ?_ ?_ nofun, hroot⟩
    · rw [tag_attach, Tree.tag_eq, hop]
      rfl
    · rw [construct_attach, hop]
      rfl
  | finish => exact ⟨hs, hroot⟩
  | enter =>
    obtain ⟨base, hbase⟩ := hroot
    refine Owning.rearrange ⟨hs, base, hbase⟩ rfl ⟨base, by rw [getLast?_cons, hbase]; rfl⟩ fun x => ?_
    simp only [Work.loose, map_cons, count_append, count_cons]
    omega
  | @lead a hand held c frame frames hscopes htag hparams hg hops hp =>
    have hm : frame.slot ∈ (⟨hand, held, a⟩ : Work).loose := Work.slot_mem_loose hscopes
    have hne : frame.slot ≠ ⟨a.tree.size⟩ := ne_new (hs.free _ hm).1
    have hpush : (a.tree.push .group .absent).2.Sound (⟨a.tree.size⟩ :: (⟨hand, held, a⟩ : Work).loose) :=
      hs.push .absent rfl
    have h' := hpush.attach hm
    refine ⟨h'.setConstruct ?_ ?_ fun g h => ?_, hroot⟩
    · rw [tag_attach, tag_push_ne hne, htag]
    · rw [construct_attach, construct_push_ne hne, hparams]
    · obtain rfl := Option.some.inj (hg.symm.trans h)
      rw [tag_attach, tag_push_self]
      rfl
  | @leave a hand held frame outer frames hscopes hle =>
    refine ⟨(sound_leaving hscopes hs).attachAll (by simp [Work.loose]), ?_⟩
    rw [hscopes] at hroot
    simpa using hroot
  | absorb hm hm' => exact ⟨hs.absorb _, hroot⟩
  | recast s c htag hparams hg hops hp =>
    exact ⟨hs.setConstruct htag hparams fun g h => hs.groups (hg ▸ h), hroot⟩
  | @adopt a hand held s g x hm hg =>
    have hgroup := hs.groups hg
    refine ⟨hs.hang (lt_size_of_tag (by simp [hgroup])) fun hlead => ?_, hroot⟩
    exact hl hm x mem_cons_self ⟨g, hgroup, hlead⟩
  | @trail a hand held x frame frames l hm span hscopes hloop =>
    have hmem : frame.slot ∈ (⟨x :: hand, held, a⟩ : Work).loose := Work.slot_mem_loose hscopes
    have hne : frame.slot ≠ ⟨a.tree.size⟩ := ne_new (hs.free _ hmem).1
    have hpush : (a.tree.push .group .absent).2.Sound (x :: ⟨a.tree.size⟩ :: (⟨hand, held, a⟩ : Work).loose) :=
      (hs.push .absent rfl).perm (List.Perm.swap _ _ _)
    have h' := (hpush.attach mem_cons_self).setSpan ⟨a.tree.size⟩ span
    refine ⟨Sound.perm (h'.setConstruct ?_ ?_ fun g h => ?_) (perm_iff_count.2 fun y => ?_), hroot⟩
    · rw [tag_setSpan, tag_attach, tag_push_ne hne, tag_eq, hloop]
      rfl
    · rw [construct_setSpan, construct_attach, construct_push_ne hne, hloop]
      rfl
    · cases h
      rw [tag_setSpan, tag_attach, tag_push_self]
      rfl
    · simp only [Work.loose, count_append, count_cons]
      omega
  | give => exact ⟨hs.attach (by simp), hroot⟩
  | @param a hand held p frame frames hscopes hp =>
    exact ⟨hs.tie (Work.slot_mem_loose (w := ⟨hand, held, a⟩) hscopes) hp, hroot⟩
  | wait =>
    refine Owning.rearrange ⟨hs, hroot⟩ rfl hroot fun x => ?_
    simp only [Work.loose, map_cons, count_append, count_cons]
    omega
  | @complete a hand held hone =>
    exact ⟨(sound_completing hs).attachAll (mem_append_left _ (mem_append_right _ (root_mem_scopes hroot))), hroot⟩

theorem current_eq_nil (h : a.height ≤ a.statementBase) : a.current = [] := by
  rw [current, Nat.sub_eq_zero_of_le h, take_zero]

theorem mem_current_of_stage {u : Slot} (h : u ∈ ({ a with staged := s :: a.staged } : Assembly).current) :
    u = s ∨ u ∈ a.current := by
  simp only [current, height, length_cons] at h ⊢
  rcases Nat.lt_or_ge a.staged.length a.statementBase with hlt | hle
  · rw [Nat.sub_eq_zero_of_le hlt, take_zero] at h
    simp at h
  · rw [Nat.succ_sub hle, take_succ_cons] at h
    exact mem_cons.1 h

theorem mem_current_of_take {u : Slot} {rest : List Slot} (hb : a.statementBase < a.height) (hs : a.staged = s :: rest)
    (h : u ∈ s :: ({ a with staged := rest } : Assembly).current) : u ∈ a.current := by
  simp only [current, height, hs, length_cons] at h hb ⊢
  rw [Nat.succ_sub (Nat.le_of_lt_succ hb), take_succ_cons]
  exact h

theorem mem_loose_of_mem_current (h : s ∈ a.current) : s ∈ a.staged := mem_of_mem_take h

theorem Owning.ne_of_mem (h : Owning w) {u : Slot} (hs : s ∈ w.hand ++ w.assembly.current)
    (hu : u ∈ w.held ∨ u ∈ w.assembly.scopes.map Frame.slot) : s ≠ u := by
  rintro rfl
  have hnd := h.sound.nodup
  simp only [Work.loose, nodup_append, mem_append] at hnd
  have hs' : s ∈ w.hand ∨ s ∈ w.assembly.staged := (mem_append.1 hs).imp_right mem_loose_of_mem_current
  rcases hu with hu | hu <;> rcases hs' with hs' | hs'
  · exact hnd.1.1.1.2.2 s hs' s hu rfl
  · exact hnd.1.1.2.2 s (.inr hu) s hs' rfl
  · exact hnd.1.2.2 s (.inl (.inl hs')) s hu rfl
  · exact hnd.1.2.2 s (.inr hs') s hu rfl

theorem Work.Light.subset {w' : Work} (h : w.Light) (htree : w'.assembly.tree = w.assembly.tree)
    (hsub : ∀ s ∈ w'.hand ++ w'.assembly.current, s ∈ w.hand ++ w.assembly.current) : w'.Light := fun s hs => by
  rw [htree]
  exact h s (hsub s hs)

theorem mem_loose_of_operand (h : s ∈ w.hand ++ w.assembly.current) : s ∈ w.loose := by
  simp only [Work.loose, mem_append]
  rcases mem_append.1 h with h | h
  · exact .inl (.inl (.inl (.inl h)))
  · exact .inl (.inl (.inr (mem_loose_of_mem_current h)))

theorem Work.Light.of_hand {w' : Work} (h : w.Light) (hhand : ∀ s ∈ w'.hand, s ∈ w.hand)
    (hend : w'.assembly.height ≤ w'.assembly.statementBase)
    (hheavy : ∀ s ∈ w'.hand, w'.assembly.tree.Heavy s → w.assembly.tree.Heavy s) : w'.Light := by
  intro s hs hh
  rw [current_eq_nil hend, append_nil] at hs
  exact h s (mem_append_left _ (hhand s hs)) (hheavy s hs hh)

theorem Act.light (h : Act may w w') (ho : Owning w) (hl : w.Light) : w'.Light := by
  have hs := ho.sound
  cases h with
  | note h =>
    obtain ⟨htree, hstaged, -, hbase, -⟩ := core_eq h
    refine hl.subset htree fun s hs => ?_
    simpa only [current, height, hstaged, hbase] using hs
  | measure => exact fun s hs h => hl s hs h.of_setSpan
  | shuffle hp =>
    refine hl.subset rfl fun s hs => ?_
    rw [mem_append] at hs ⊢
    exact hs.imp_left hp.mem_iff.2
  | spare | aside => exact hl.subset rfl fun s hs => mem_cons_of_mem _ hs
  | @make a hand held c span cs hc =>
    have hpush : ∀ {v}, (a.tree.push c span).2.Heavy v → a.tree.Heavy v := fun hv =>
      hv.of_push.resolve_right fun h => hc.tag h.1
    have hcs : ∀ x ∈ cs, x.index < (a.tree.push c span).2.size ∧ ¬(a.tree.push c span).2.Heavy x := fun x hx => by
      rw [size_push]
      refine ⟨Nat.lt_succ_of_lt (hs.free x (by simp [Work.loose, hx])).1, fun h => hl x (by simp [hx]) (hpush h)⟩
    intro s hsm h
    have h' : a.tree.Heavy s := hpush (Tree.Heavy.of_attachAll_light hcs h)
    rw [cons_append, mem_cons] at hsm
    rcases hsm with rfl | hsm
    · obtain ⟨g, hg, hlead⟩ := h'
      obtain rfl := hs.owned.eq_of_leads_new hlead
      have hgroup : a.tree.tag ⟨a.tree.size⟩ = .group := hg
      have hne : a.tree.tag ⟨a.tree.size⟩ ≠ .emptyStatement := by rw [hgroup]; simp
      exact Nat.lt_irrefl a.tree.size (lt_size_of_tag hne)
    · exact hl s (by rw [append_assoc]; exact mem_append_right _ hsm) h'
  | @take a hand held rest s hb hstaged =>
    refine hl.subset rfl fun u hu => ?_
    rw [cons_append, mem_cons, mem_append] at hu
    rw [mem_append]
    rcases hu with hu | hu | hu
    · exact .inr (mem_current_of_take hb hstaged (mem_cons.2 (.inl hu)))
    · exact .inl hu
    · exact .inr (mem_current_of_take hb hstaged (mem_cons_of_mem _ hu))
  | @apply a hand held op x text hop =>
    intro s hsm h
    have h' := h.of_setConstruct (by rw [tag_attach, tag_eq, hop]; rfl)
    have hx := hs.free x (by simp [Work.loose])
    exact hl s (mem_cons_of_mem _ hsm) ((h'.of_attach hx.1).resolve_right fun h => hl x (by simp) h.1)
  | stage =>
    refine hl.subset rfl fun u hu => ?_
    rw [mem_append] at hu
    rw [cons_append, mem_cons, mem_append]
    rcases hu with hu | hu
    · exact .inr (.inl hu)
    · exact (mem_current_of_stage hu).imp_right .inr
  | settle | finish | enter => exact hl.of_hand (fun _ h => h) le_rfl fun _ _ h => h
  | @lead a hand held c frame frames hscopes htag hparams hg hops hp =>
    intro s hsm h
    have hm : frame.slot ∈ (⟨hand, held, a⟩ : Work).loose := Work.slot_mem_loose hscopes
    have hne : frame.slot ≠ ⟨a.tree.size⟩ := ne_new (hs.free _ hm).1
    have hs' := hs.free s (mem_loose_of_operand hsm)
    have h' := h.of_setConstruct (by rw [tag_attach, tag_push_ne hne, htag])
    rcases h'.of_attach (by simp) with h' | ⟨-, hlead⟩
    · exact hl s hsm (h'.of_push.resolve_right fun h => ne_new hs'.1 h.2)
    · refine ho.ne_of_mem hsm (.inr (by simp [hscopes])) ((hlead.eq_of_none ?_))
      rw [parent?_push]
      exact (hs.free _ hm).2
  | @leave a hand held frame outer frames hscopes hle =>
    refine hl.of_hand (fun _ h => h) le_rfl fun s hsm h => ?_
    refine (Tree.Heavy.of_attachAll (sound_leaving hscopes hs) (by simp [Work.loose]) h).resolve_right ?_
    exact ho.ne_of_mem (mem_append_left _ hsm) (.inr (by simp [hscopes]))
  | absorb => exact fun s hsm h => hl s hsm (h.of_absorb hs.owned)
  | recast s c htag => exact fun s hsm h => hl s hsm (h.of_setConstruct htag)
  | @adopt _ _ _ _ _ x | @give _ _ _ _ x =>
    intro u hu h
    exact hl u (mem_cons_of_mem _ hu) ((h.of_attach (hs.free x (by simp [Work.loose])).1).resolve_right
      fun h => hl x (by simp) h.1)
  | @trail a hand held x frame frames l hm span hscopes hloop =>
    refine hl.of_hand (fun u hu => mem_cons_of_mem _ hu) le_rfl fun s hsm h => ?_
    have hne : frame.slot ≠ ⟨a.tree.size⟩ := ne_new (hs.free _ (Work.slot_mem_loose hscopes)).1
    have hlight : ∀ {v}, v ∈ x :: hand → ¬(a.tree.push .group .absent).2.Heavy v := fun {v} hv h =>
      have hv' : v ∈ (⟨x :: hand, held, a⟩ : Work).hand ++ a.current := mem_append_left _ hv
      hl v hv' (h.of_push.resolve_right fun h => ne_new (hs.free v (mem_loose_of_operand hv')).1 h.2)
    have hx : x.index < (a.tree.push .group .absent).2.size := by
      rw [size_push]
      exact Nat.lt_succ_of_lt (hs.free x (by simp [Work.loose])).1
    have h' := (h.of_setConstruct (by rw [tag_setSpan, tag_attach, tag_push_ne hne, tag_eq, hloop]; rfl)).of_setSpan
    exact absurd ((h'.of_attach hx).resolve_right fun h => hlight mem_cons_self h.1)
      (hlight (mem_cons_of_mem _ hsm))
  | @param a hand held p frame frames hscopes hp =>
    intro u hu h
    have hp' := hs.free p (by simp [Work.loose])
    refine hl u (mem_cons_of_mem _ hu) ((h.of_link (c := p) (p := frame.slot) (fun v => ?_) fun v => ?_).resolve_right
      fun h => hl p (by simp) h.1)
    · exact parent?_tie hp'.1
    · rw [tag, node_modify]
      split <;> rfl
  | wait => exact hl
  | @complete a hand held hone =>
    refine hl.of_hand (fun _ h => h) le_rfl fun s hsm h => ?_
    refine (Tree.Heavy.of_attachAll (sound_completing hs) ?_ h).resolve_right ?_
    · exact mem_append_left _ (mem_append_right _ (root_mem_scopes ho.root))
    · exact ho.ne_of_mem (mem_append_left _ hsm) (.inr (root_mem_scopes ho.root))

/-! ## Steps -/

theorem Acts.owning (h : Acts may w w') (ho : Owning w) (hl : w.Light) : Owning w' ∧ w'.Light := by
  induction h with
  | refl => exact ⟨ho, hl⟩
  | tail _ hact ih => exact ⟨hact.owning ih.1 fun _ => ih.2, hact.light ih.1 ih.2⟩

theorem Acts.owning_of_not_fill (h : Acts may w w') (hm : ¬may .fill) (ho : Owning w) : Owning w' := by
  induction h with
  | refl => exact ho
  | tail _ hact ih => exact hact.owning ih fun h => absurd h hm

theorem Owning.drop (h : Owning ⟨hand, held, a⟩) : Owning ⟨[], [], a⟩ := by
  refine ⟨h.sound.sublist ?_, h.root⟩
  simp only [Work.loose, nil_append, append_assoc]
  exact (sublist_append_right _ _).trans (sublist_append_right _ _)

theorem owning_start (path : Path) : Owning ⟨[], [], start path⟩ := by
  refine ⟨⟨.ofPath path, fun s hs => ?_, by simp [Work.loose, start], fun {s g} hg => ?_⟩, 0, rfl⟩
  · obtain rfl : s = .root := by simpa [Work.loose, start] using hs
    exact ⟨by simp [start, Tree.ofPath, Tree.size, Slot.root], rfl⟩
  · exfalso
    rcases s with ⟨_ | i⟩
    · simp [start, Tree.ofPath, Tree.construct, Tree.node, Construct.group?] at hg
    · simp [start, Tree.ofPath, Tree.construct, Tree.node, Construct.group?, default] at hg

/-- An assembly between two calls. A fault may come in the middle of a statement. -/
structure Kept (a : Assembly) : Prop where
  owning : Owning ⟨[], [], a⟩
  light : a.failure? = none → (⟨[], [], a⟩ : Work).Light

theorem kept_start (path : Path) : Kept (start path) :=
  ⟨owning_start path, fun _ s hs => by simp [current, start] at hs⟩

theorem Goes.owning {r : EStateM.Result Halt Assembly Unit} (h : Goes may w r fun _ b => ⟨[], [], b⟩) (ho : Owning w)
    (hl : w.Light) : (∀ u b, r = .ok u b → Owning ⟨[], [], b⟩ ∧ (⟨[], [], b⟩ : Work).Light) ∧
      ∀ f b, r = .error (.fault f) b → Owning ⟨[], [], b⟩ := by
  refine ⟨fun u b hr => ?_, fun f b hr => ?_⟩
  · subst hr
    exact Acts.owning h ho hl
  · subst hr
    obtain ⟨hand, held, hacts⟩ := h
    exact (hacts.owning ho hl).1.drop

theorem Owning.resumed {waiting : Frame} {rest : List Frame} (h : Owning ⟨[], [], a⟩)
    (hw : a.waitingDefers = waiting :: rest) : Owning ⟨[], [waiting.slot], a.resumed waiting rest⟩ := by
  refine h.rearrange rfl h.root fun x => ?_
  simp only [Work.loose, hw, Assembly.resumed, map_cons, count_append, count_cons, count_nil]
  omega

theorem onDeferred_settled {u : Unit} {b : Assembly} (h : onDeferred e a = .ok u b) : b.statementBase = b.height := by
  unfold onDeferred at h
  rw [get_bind] at h
  split at h
  case isFalse => cases h
  case isTrue =>
    cases hw : a.waitingDefers with
    | nil =>
      rw [hw] at h
      cases h
    | cons waiting rest =>
      rw [hw] at h
      dsimp only at h
      rw [set_bind] at h
      obtain ⟨x, c, -, h⟩ := bind_ok.1 h
      rw [attach_bind, modifyTree_bind, stageStatement_bind, setLastEnd_bind] at h
      obtain ⟨-, rfl⟩ := EStateM.Result.ok.inj h
      rfl

theorem Kept.onDeferred (h : Kept a) :
    (∀ u b, Assembly.onDeferred e a = .ok u b → Owning ⟨[], [], b⟩ ∧ (⟨[], [], b⟩ : Work).Light) ∧
      ∀ f b, Assembly.onDeferred e a = .error (.fault f) b → Owning ⟨[], [], b⟩ := by
  rcases onDeferred_cases e a with ⟨f, hf⟩ | ⟨waiting, rest, hw, hgoes, -⟩
  · exact ⟨fun u b hok => by simp [hf] at hok, fun f' b he => by
      obtain ⟨-, rfl⟩ := EStateM.Result.error.inj (hf.symm.trans he)
      exact h.owning⟩
  · have ho := h.owning.resumed hw
    refine ⟨fun u b hok => ⟨?_, fun s hs => ?_⟩, fun f b he => ?_⟩
    · rw [hok] at hgoes
      exact Acts.owning_of_not_fill hgoes id ho
    · simp [current_eq_nil (onDeferred_settled hok).symm.le] at hs
    · rw [he] at hgoes
      obtain ⟨hand, held, hacts⟩ := hgoes
      exact (hacts.owning_of_not_fill id ho).drop

theorem Kept.dispatch (h : Kept a) (hf : a.failure? = none) :
    (∀ u b, Assembly.dispatch e a = .ok u b → Owning ⟨[], [], b⟩ ∧ (⟨[], [], b⟩ : Work).Light) ∧
      ∀ f b, Assembly.dispatch e a = .error (.fault f) b → Owning ⟨[], [], b⟩ := by
  by_cases hk : e.kind = .deferred
  · rw [Assembly.dispatch, hk]
    exact h.onDeferred
  · exact (proper_dispatch hk [] [] a).owning h.owning (h.light hf)

theorem Kept.call (h : Kept a) (c : Call) (hc : ∀ halt, (a.call c).2 = some halt → ∃ f, halt = .fault f) :
    Kept (a.call c).1 := by
  cases c with
  | startUnit path =>
    exact ⟨(owning_start path).rearrange rfl ⟨0, rfl⟩ fun _ => rfl, fun _ s hs => by
      simp [current, Assembly.call, startUnit, start] at hs⟩
  | take =>
    exact ⟨(owning_start a.tree.path).rearrange rfl ⟨0, rfl⟩ fun _ => rfl, fun _ s hs => by
      simp [current, Assembly.call, take, start] at hs⟩
  | event e =>
    simp only [Assembly.call, handle] at hc ⊢
    cases hf : a.failure? with
    | some f => exact h
    | none =>
      obtain ⟨hok, herror⟩ := h.dispatch (e := e) hf
      rw [hf] at hc
      cases hd : Assembly.dispatch e a with
      | ok u b => exact ⟨(hok u b hd).1, fun _ => (hok u b hd).2⟩
      | error halt b =>
        rw [hd] at hc
        cases halt with
        | fault f => exact ⟨(herror f b hd).rearrange rfl (herror f b hd).root fun _ => rfl,
            fun hnone => by cases hnone⟩
        | outOfRange base staged =>
          obtain ⟨f, hf⟩ := hc _ rfl
          cases hf

end Assembly

end Deferral
