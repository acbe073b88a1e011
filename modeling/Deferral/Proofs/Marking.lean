import Deferral.Proofs.Identity
import Deferral.Proofs.Resolving

/-!
# What a resolved forest shows

Resolving moves nothing that stands at its own place (`Firing.Resolves.inOrder`), and nodes that stay ask for no more
than a closing brace (`Firing.Settled`). In the text of the forest, just the outermost deferred statements are left out,
and just the values that are stored are replaced (`Firing.Resolves.marks`).
-/

namespace Deferral

open Forest Range
open List hiding append_nil nil_append

/-! ## New trees -/

namespace Forest

/-- All trees are new. -/
def Added (c : Forest Entry) : Prop := ∀ e ∈ c.roots, e.node.status = .added

variable {lo hi : Nat} {c f : Forest Entry}

theorem inOrder_append_added (hc : c.Added) : (c ++ f).InOrder lo hi ↔ f.InOrder lo hi := by
  induction c with
  | nil => rfl
  | node e b r _ ihr =>
    obtain ⟨he, hr⟩ := forall_mem_cons.1 hc
    rw [node_append, inOrder_added he, ihr hr]

theorem InOrder.append_added (h : f.InOrder lo hi) (hc : c.Added) : (f ++ c).InOrder lo hi := by
  induction f generalizing lo with
  | nil =>
    have := (inOrder_append_added (f := nil) hc).2 h
    rwa [append_nil] at this
  | node e b r _ ihr =>
    by_cases ha : e.node.status = .added
    · exact (inOrder_added ha).2 (ihr ((inOrder_added ha).1 h))
    · refine (inOrder_inPlace ha).2 (((inOrder_inPlace ha).1 h).imp ?_ ?_)
      · rintro ⟨hsp, hn, hb, hr⟩
        exact ⟨hsp, hn, hb, ihr hr⟩
      · rintro ⟨hlo, hb, hr⟩
        exact ⟨hlo, hb, ihr hr⟩

end Forest

namespace Firing

variable {t : Tree} {whole f f' g c : Forest Entry} {d : Nat} {scopes armed armed' : List Placed}
  {tokens : List Token} {lo hi : Nat}

theorem Splice.added {e : Entry} {b : Forest Entry} {actions : Actions} {lead? : Option String}
    (h : Splice e b actions lead? g) : g.Added := by
  cases h
  simp [Added, Entry.added]

theorem Copies.added {brace : Bool} {ss : List Slot} (h : Copies t whole brace ss c) : c.Added := by
  induction h with
  | nil => simp [Added]
  | cons _ _ hg _ ih =>
    intro e he
    rw [roots_append, mem_append] at he
    exact he.elim (hg.added e) (ih e)

/-! ## Order -/

theorem within_map (change : Entry → Entry) (hc : ∀ e, (change e).node.span = e.node.span) (h : f.Within lo hi) :
    (f.map change).Within lo hi := by
  induction f generalizing lo hi with
  | nil => exact h
  | node e b r ihb ihr =>
    rcases h with ⟨ha, rfl, hr⟩ | ⟨ha, hlo, hb, hr⟩
    · exact .inl ⟨hc e ▸ ha, rfl, ihr hr⟩
    · refine .inr ?_
      rw [hc]
      exact ⟨ha, hlo, ihb hb, ihr hr⟩

theorem inPlace_removed {e : Entry} (h : e.Plain) : (e.mark .removed).InPlace := ⟨nofun, h.replacement?_eq⟩

theorem inPlace_closed {e : Entry} (h : e.Plain) : (e.mark .closed).InPlace := ⟨nofun, h.replacement?_eq⟩

theorem inOrder_removed (hs : Shaped tokens f) (hw : f.Within lo hi) : (f.map (Entry.mark .removed)).InOrder lo hi := by
  refine (within_map (.mark .removed) (fun _ => rfl) hw).inOrder (every_of_members fun x hx => ?_)
  rw [members_map] at hx
  obtain ⟨e, he, rfl⟩ := mem_map.1 hx
  obtain ⟨_, hplain, -⟩ := hs.exists_below he
  exact inPlace_removed hplain

theorem Resolves.inOrder {p? : Option Slot} (h : Resolves t whole d scopes armed f armed' f') (ht : t.Holds p? f)
    (hs : Shaped tokens f) (hw : f.Within lo hi) : f'.InOrder lo hi := by
  induction h generalizing p? lo hi with
  | nil => exact hw
  | deferred _ _ ih =>
    obtain ⟨⟨he, -⟩, hb, hr⟩ := hs
    exact hw.inOrder_node (inPlace_removed he) rfl (inOrder_removed hb ·) (ih ht.2.2 hr ·)
  | opens _ _ hc _ ihb ihr =>
    obtain ⟨⟨he, -⟩, hb, hr⟩ := hs
    exact hw.inOrder_node he.inPlace rfl (fun hw => (ihb ht.2.1 hb hw).append_added hc.added) (ihr ht.2.2 hr ·)
  | passes _ _ _ _ _ ihb ihr =>
    obtain ⟨⟨he, -⟩, hb, hr⟩ := hs
    exact hw.inOrder_node he.inPlace rfl (ihb ht.2.1 hb ·) (ihr ht.2.2 hr ·)
  | leaves _ _ _ hc _ ih =>
    obtain ⟨⟨he, -⟩, hb, hr⟩ := hs
    rw [inOrder_append_added hc.added]
    have hbelow := fun {lo hi} (hw : Forest.Within lo hi _) => hw.inOrder (hb.mono fun _ _ h => h.1.inPlace)
    split
    · exact hw.inOrder_node (inPlace_closed he) rfl hbelow (ih ht.2.2 hr ·)
    · exact hw.inOrder_node he.inPlace rfl hbelow (ih ht.2.2 hr ·)
  | @stores _ _ _ _ _ e v k _ _ _ _ hx _ _ hg hc _ ih =>
    obtain ⟨⟨he, hshape, -⟩, hb, hr⟩ := hs
    rw [inOrder_append_added hg.added, inOrder_append_added hc.added]
    refine hw.inOrder_node (inPlace_closed he) rfl (fun {lo hi} hw => ?_) (ih ht.2.2 hr ·)
    rw [ht.construct_eq (e := e) (by simp)] at hx
    obtain ⟨hlo, hk, hhi⟩ := (within_tree (Shape.present_of_returned hshape hx)).1 hw
    refine (inOrder_inPlace (e := v.mark (.replaced storedValue)) nofun).2 (.inr ⟨hlo, ?_, hhi⟩)
    exact hk.inOrder (hb.2.1.mono fun _ _ h => h.1.inPlace)

/-! ## Nodes of a resolved forest -/

/-- What holds of the nodes there were, with and without marks, and of the nodes of copies, holds of all nodes. -/
theorem Resolves.forall_members {Q : Entry → Prop} (h : Resolves t whole d scopes armed f armed' f')
    (hf : f.subtrees ⊆ whole.subtrees)
    (hown : ∀ e ∈ f.members, Q e ∧ Q (e.mark .removed) ∧ Q (e.mark .closed) ∧ ∀ text, Q (e.mark (.replaced text)))
    (hcopy : ∀ {op : Entry} {b g : Forest Entry} {actions : Actions} {lead? : Option String}, (op, b) ∈ whole.subtrees →
      actions.omitted = false → Splice op b actions lead? g → ∀ x ∈ g.members, Q x) :
    ∀ x ∈ f'.members, Q x := by
  have hcopies {brace : Bool} {ss : List Slot} {c : Forest Entry} (hc : Copies t whole brace ss c) :
      ∀ x ∈ c.members, Q x := by
    induction hc with
    | nil => simp
    | cons hop _ hg _ ih =>
      rw [members_append, forall_mem_append]
      exact ⟨hcopy hop rfl hg, ih⟩
  induction h with
  | nil => simp
  | deferred _ _ ih =>
    simp only [subtrees, cons_subset, append_subset] at hf
    simp only [members_node, forall_mem_cons, forall_mem_append, members_map, forall_mem_map] at hown ⊢
    exact ⟨hown.1.2.1, fun x hx => (hown.2.1 x hx).2.1, ih hf.2.2 hown.2.2⟩
  | opens _ _ hc _ ihb ihr =>
    simp only [subtrees, cons_subset, append_subset] at hf
    simp only [members_node, members_append, forall_mem_cons, forall_mem_append] at hown ⊢
    exact ⟨hown.1.1, ⟨ihb hf.2.1 hown.2.1, hcopies hc⟩, ihr hf.2.2 hown.2.2⟩
  | passes _ _ _ _ _ ihb ihr =>
    simp only [subtrees, cons_subset, append_subset] at hf
    simp only [members_node, forall_mem_cons, forall_mem_append] at hown ⊢
    exact ⟨hown.1.1, ihb hf.2.1 hown.2.1, ihr hf.2.2 hown.2.2⟩
  | leaves _ _ _ hc _ ih =>
    simp only [subtrees, cons_subset, append_subset] at hf
    simp only [members_node, members_append, forall_mem_cons, forall_mem_append] at hown ⊢
    refine ⟨hcopies hc, ?_, fun x hx => (hown.2.1 x hx).1, ih hf.2.2 hown.2.2⟩
    split
    · exact hown.1.2.2.1
    · exact hown.1.1
  | stores _ _ _ hg hc _ ih =>
    simp only [subtrees, tree, cons_subset, append_subset] at hf
    simp only [members_node, members_append, members_tree, forall_mem_cons, forall_mem_append] at hown ⊢
    exact ⟨hcopy hf.2.1.1 rfl hg, hcopies hc, hown.1.2.2.1,
      ⟨hown.2.1.1.2.2.2 _, fun x hx => (hown.2.1.2 x hx).1⟩, ih hf.2.2 hown.2.2⟩

/-! ## Requests -/

/-- Requests of a node that stays: none, or to close a brace. -/
def Closing (a : Actions) : Prop := a = {} ∨ a = { braceAfter := true }

/-- What a node of a resolved forest asks for. Text that is brought in is from the first `n` bytes of the source. -/
structure Settled (n : Nat) (e : Entry) : Prop where
  stays : e.node.Stays → Closing e.node.actions ∧ e.node.lead? = none ∧ e.node.replacement? = none
  added : e.node.status = .added → e.node.actions.omitted = false ∧ e.node.span.stop ≤ n
  removed : e.node.status = .removed → e.node.replacement? = none
  replaced : e.node.replacement?.isSome = true → e.node.actions = {} ∧ e.node.lead? = none

section Settled

variable {n : Nat} {e : Entry}

theorem settled_plain (h : e.Plain) : Settled n e where
  stays _ := ⟨.inl h.actions_eq, h.lead?_eq, h.replacement?_eq⟩
  added hs := by simp [h.status_eq] at hs
  removed hs := by simp [h.status_eq] at hs
  replaced hr := by simp [h.replacement?_eq] at hr

theorem settled_removed (h : e.Plain) : Settled n (e.mark .removed) where
  stays hs := by simp [Node.Stays, Entry.mark, Mark.apply] at hs
  added hs := by simp [Entry.mark, Mark.apply] at hs
  removed _ := h.replacement?_eq
  replaced hr := by simp [Entry.mark, Mark.apply, h.replacement?_eq] at hr

theorem settled_closed (h : e.Plain) : Settled n (e.mark .closed) where
  stays _ := ⟨.inr (by simp [Entry.mark, Mark.apply, h.actions_eq, Actions.union]), h.lead?_eq, h.replacement?_eq⟩
  added hs := by simp [Entry.mark, Mark.apply] at hs
  removed _ := h.replacement?_eq
  replaced hr := by simp [Entry.mark, Mark.apply, h.replacement?_eq] at hr

theorem settled_replaced (h : e.Plain) (text : String) : Settled n (e.mark (.replaced text)) where
  stays hs := by simp [Node.Stays, Entry.mark, Mark.apply] at hs
  added hs := by simp [Entry.mark, Mark.apply] at hs
  removed hs := by simp [Entry.mark, Mark.apply] at hs
  replaced _ := ⟨h.actions_eq, h.lead?_eq⟩

theorem Splice.settled {b : Forest Entry} {actions : Actions} {lead? : Option String} (h : Splice e b actions lead? g)
    (he : e.node.span.stop ≤ n) (ha : actions.omitted = false) : ∀ x ∈ g.members, Settled n x := by
  cases h with
  | mk m =>
    intro x hx
    rw [members_tree, mem_cons, members_map] at hx
    rcases hx with rfl | hx
    · exact ⟨by simp [Entry.added, Node.Stays], fun _ => ⟨ha, he⟩, by simp [Entry.added], by simp [Entry.added]⟩
    · obtain ⟨y, -, rfl⟩ := mem_map.1 hx
      exact settled_plain rfl

theorem Resolves.settled (h : Resolves t whole d scopes armed f armed' f') (hf : f.subtrees ⊆ whole.subtrees)
    (hw : ∀ e ∈ whole.members, e.node.span.stop ≤ n) (hp : ∀ e ∈ f.members, e.Plain) :
    ∀ x ∈ f'.members, Settled n x := by
  refine h.forall_members hf (fun e he => ?_) fun {op _ _ _ _} hop ha hg => ?_
  · have hplain := hp e he
    exact ⟨settled_plain hplain, settled_removed hplain, settled_closed hplain, settled_replaced hplain⟩
  · exact hg.settled (hw op ((members_sublist hop).subset (by simp))) ha

end Settled

/-! ## Views of a forest -/

section Views

variable {β : Type} {v : Range → List β} {k : Nat} {e : Entry} {b r : Forest Entry}

/-- What is seen of the text of a forest. -/
def viewed (v : Range → List β) (k : Nat) (f : Forest Entry) : List β := (f.ranged k).members.flatMap v

@[simp] theorem viewed_nil : viewed v k .nil = [] := rfl

theorem viewed_append (v : Range → List β) (k : Nat) (f g : Forest Entry) :
    viewed v k (f ++ g) = viewed v k f ++ viewed v k g := by
  simp [viewed, ranged_append]

section

variable (hv : Range.View Closing v)
include hv

theorem viewed_stays (hs : e.node.Stays) (ha : Closing e.node.actions)
    (hl : e.node.lead? = none) (hn : e.node.replacement? = none) :
    ∃ k', viewed v k (.node e b r) = viewed v k' b ++ viewed v k r := by
  rw [viewed, Forest.ranged, hs.showing_eq, Node.kept]
  cases e.node.span.isEmpty with
  | true => exact ⟨k, by simp [viewed]⟩
  | false =>
    have hbare : v { Range.ofNode e.node k with actions := e.node.actions } = [] := hv.bare _ ⟨rfl, ha, hl, hn⟩
    exact ⟨k + 1, by simp [viewed, hbare]⟩

theorem viewed_own (he : e.Plain) :
    ∃ k', viewed v k (.node e b r) = viewed v k' b ++ viewed v k r :=
  viewed_stays hv (.inl he.status_eq) (.inl he.actions_eq) he.lead?_eq he.replacement?_eq

theorem viewed_closed (he : e.Plain) :
    ∃ k', viewed v k (.node (e.mark .closed) b r) = viewed v k' b ++ viewed v k r :=
  viewed_stays hv (.inr ⟨rfl, congrArg Option.isSome he.replacement?_eq⟩)
    (.inr (by simp [Entry.mark, Mark.apply, he.actions_eq, Actions.union])) he.lead?_eq he.replacement?_eq

theorem viewed_plain (h : f.Every fun e _ => e.Plain) : viewed v k f = [] := by
  induction f generalizing k with
  | nil => rfl
  | node e b r ihb ihr =>
    obtain ⟨he, hb, hr⟩ := h
    obtain ⟨k', hk⟩ := viewed_own (k := k) (b := b) (r := r) hv he
    rw [hk, ihb hb, ihr hr, List.append_nil]

/-- A jump with operands below it is not seen, with or without a brace after it. -/
theorem viewed_jump (he : e.Plain) (hb : b.Every fun e _ => e.Plain) (brace : Bool) :
    viewed v k (.node (if brace then e.mark .closed else e) b r) = viewed v k r := by
  cases brace with
  | true =>
    obtain ⟨k', hk⟩ := viewed_closed (k := k) (b := b) (r := r) hv he
    exact hk.trans (by rw [viewed_plain hv hb, List.nil_append])
  | false =>
    obtain ⟨k', hk⟩ := viewed_own (k := k) (b := b) (r := r) hv he
    exact hk.trans (by rw [viewed_plain hv hb, List.nil_append])

end

end Views

/-! ## Places that are marked -/

section Marks

variable {k : Nat} {e : Entry} {b r : Forest Entry}

theorem Closing.shown {a : Actions} (h : Closing a) : a.omitted = false := by
  rcases h with rfl | rfl <;> rfl

theorem view_mark : Range.View Closing Range.mark where
  bare r hr := by simp [Range.mark, hr.inPlace, hr.requests.shown, hr.own]
  depth _ _ := rfl

/-- What is marked in the text of a forest. -/
def marksOf (k : Nat) (f : Forest Entry) : List (Span × Option String) := (f.ranged k).members.flatMap Range.mark

@[simp] theorem marksOf_nil : marksOf k .nil = [] := rfl

theorem marksOf_append (k : Nat) (f g : Forest Entry) : marksOf k (f ++ g) = marksOf k f ++ marksOf k g :=
  viewed_append Range.mark k f g

theorem marksOf_added (h : c.Added) : marksOf k c = [] := by
  induction c with
  | nil => rfl
  | node e b r _ ihr =>
    obtain ⟨he, hr⟩ := forall_mem_cons.1 h
    have hr := ihr hr
    simp only [marksOf] at hr ⊢
    simp [Forest.ranged, Node.showing, he, hr, Range.mark]

theorem marksOf_own (he : e.Plain) : ∃ k', marksOf k (.node e b r) = marksOf k' b ++ marksOf k r :=
  viewed_own view_mark he

theorem marksOf_closed (he : e.Plain) : ∃ k', marksOf k (.node (e.mark .closed) b r) = marksOf k' b ++ marksOf k r :=
  viewed_closed view_mark he

theorem marksOf_removed (he : e.node.span.start < e.node.span.stop) :
    marksOf k (.node (e.mark .removed) b r) = (e.node.span, none) :: marksOf k r := by
  have hempty : e.node.span.isEmpty = false := by simpa [Span.isEmpty] using he
  simp [marksOf, Forest.ranged, Node.showing, Entry.mark, Mark.apply, hempty, Range.mark, Range.ofNode, Range.span]

theorem marksOf_replaced (ha : e.node.actions.omitted = false) (text : String) :
    marksOf k (.node (e.mark (.replaced text)) b r) = (e.node.span, some text) :: marksOf k r := by
  simp [marksOf, Forest.ranged, Node.showing, Entry.mark, Mark.apply, Range.mark, Range.ofNode, Range.span, ha]

end Marks

/-- Where text is left out. -/
def deletions (marks : List (Span × Option String)) : List Span :=
  marks.filterMap fun m => if m.2.isNone then some m.1 else none

/-- Where text is replaced, and by what. -/
def replacements (marks : List (Span × Option String)) : List (Span × String) :=
  marks.filterMap fun m => m.2.map (m.1, ·)

section Changes

variable (ms ns : List (Span × Option String)) (span : Span)

@[simp] theorem deletions_append : deletions (ms ++ ns) = deletions ms ++ deletions ns := filterMap_append

@[simp] theorem replacements_append : replacements (ms ++ ns) = replacements ms ++ replacements ns :=
  filterMap_append

@[simp] theorem deletions_none : deletions ((span, none) :: ms) = span :: deletions ms := rfl

@[simp] theorem deletions_some (text : String) : deletions ((span, some text) :: ms) = deletions ms := rfl

@[simp] theorem replacements_none : replacements ((span, none) :: ms) = replacements ms := rfl

@[simp] theorem replacements_some (text : String) :
    replacements ((span, some text) :: ms) = (span, text) :: replacements ms := rfl

@[simp] theorem deletions_nil : deletions [] = [] := rfl

@[simp] theorem replacements_nil : replacements [] = [] := rfl

end Changes

theorem filter_outer_operands (h : ∀ s ∈ f.slots, (t.tag s).isOperand = true) :
    (outer t f).filter (t.tag · = .deferred) = [] := by
  refine filter_eq_nil_iff.2 fun s hs => ?_
  obtain ⟨hd, -⟩ := isOperand_passes (h s ((outer_sublist f).subset hs))
  simpa using hd

/-- Just the outermost deferred statements are left out, and just the values that are stored are replaced. -/
theorem Resolves.marks {p? : Option Slot} (h : Resolves t whole d scopes armed f armed' f') (ht : t.Holds p? f)
    (hs : Shaped tokens f) (hx : PlainExits t f) (k : Nat) :
    deletions (marksOf k f') = ((outer t f).filter (t.tag · = .deferred)).map t.span ∧
      replacements (marksOf k f') =
        ((edits t d scopes armed f).1.filterMap Edit.bound?).map fun v => (t.span v.1, storedValue) := by
  induction h generalizing p? k with
  | nil => exact ⟨rfl, rfl⟩
  | @deferred _ _ _ _ e b _ _ hd _ ih =>
    obtain ⟨⟨-, hshape, -⟩, hb, hr⟩ := hs
    have hc : e.node.construct = .deferred := ht.construct_eq (e := e) (by simp) ▸ Construct.eq_deferred hd
    have hspan : t.span e.slot = e.node.span := ht.span_eq (by simp)
    obtain ⟨hdel, hrep⟩ := ih ht.2.2 hr hx.2.2 k
    simp only [Shape, hc] at hshape
    rw [marksOf_removed hshape.1, bound_deferred hd, outer_deferred hd]
    simp [hd, hspan, hdel, hrep]
  | @opens _ _ _ _ _ e b b' c r r' ho hinner hc _ ihb ihr =>
    obtain ⟨⟨he, -⟩, hb, hr⟩ := hs
    have hd : t.tag e.slot ≠ .deferred := fun hd => by rw [hd] at ho; cases ho
    obtain ⟨k', hk⟩ := marksOf_own (k := k) (b := b' ++ c) (r := r') he
    obtain ⟨hdelb, hrepb⟩ := ihb ht.2.1 hb hx.2.1 k'
    obtain ⟨hdelr, hrepr⟩ := ihr ht.2.2 hr hx.2.2 k
    rw [hk, marksOf_append, marksOf_added hc.added, List.append_nil, bound_opens ho, outer_passes hd]
    simp [hd, hdelb, hrepb, hdelr, hrepr, hinner.armed_eq hx.2.1]
  | @passes _ _ _ _ _ e b b' r r' hd ho hn hinner _ ihb ihr =>
    obtain ⟨⟨he, -⟩, hb, hr⟩ := hs
    obtain ⟨k', hk⟩ := marksOf_own (k := k) (b := b') (r := r') he
    obtain ⟨hdelb, hrepb⟩ := ihb ht.2.1 hb hx.2.1 k'
    obtain ⟨hdelr, hrepr⟩ := ihr ht.2.2 hr hx.2.2 k
    rw [hk, bound_passes hd ho, outer_passes hd, jumpEdits_of_left hn]
    simp [hd, hdelb, hrepb, hdelr, hrepr, hinner.armed_eq hx.2.1]
  | @leaves _ _ _ _ exit e b c r r' hexit hne hv hc _ ih =>
    obtain ⟨⟨he, -⟩, hb, hr⟩ := hs
    obtain ⟨hd, -⟩ := exit?_passes (t := t) (s := e.slot) (by rw [hexit]; rfl)
    have hops := (hx.1 (by simp [hexit])).1
    obtain ⟨hdel, hrep⟩ := ih ht.2.2 hr hx.2.2 k
    have hkept : ∀ brace : Bool, marksOf k (.node (if brace then e.mark .closed else e) b r') = marksOf k r' :=
      viewed_jump view_mark he (hb.mono fun _ _ h => h.1)
    rw [marksOf_append, marksOf_added hc.added, hkept, bound_of_left hexit hne hops, hv, outer_passes hd]
    simp [hd, hdel, hrep, filter_outer_operands hops]
  | @stores _ _ _ _ type e v b g c r r' hc' hne hv hg hc _ ih =>
    obtain ⟨⟨he, -⟩, ⟨⟨hplain, -⟩, -⟩, hr⟩ := hs
    have hexit : exit? (t.construct e.slot) = some .returned := by rw [hc']; rfl
    obtain ⟨hd, -⟩ := exit?_passes (t := t) (s := e.slot) (by rw [hexit]; rfl)
    have hops := (hx.1 (by simp [hexit])).1
    have hspan : t.span v.slot = v.node.span := ht.span_eq (by simp)
    obtain ⟨hdel, hrep⟩ := ih ht.2.2 hr hx.2.2 k
    obtain ⟨k', hk⟩ := marksOf_closed (k := k) (b := tree (v.mark (.replaced storedValue)) b) (r := r') he
    rw [marksOf_append, marksOf_append, marksOf_added hg.added, marksOf_added hc.added, hk, tree,
      marksOf_replaced (by rw [hplain.actions_eq]), bound_of_left hexit hne hops, hv, outer_passes hd]
    simp [hd, hdel, hrep, hspan, filter_outer_operands hops]

end Firing

end Deferral
