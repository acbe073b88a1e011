import Deferral.Proofs.Covering

/-!
# Text that is brought in

Resolving brings in text from elsewhere in the source: operations that fire, and values that are stored. In the text of
a resolved tree this is just what the edits of the plan ask for, in their order (`Tree.Built.copies_cuts`), and
operations are brought in as often as something fires, in the order of firing (`Tree.Built.fired_copies`).
-/

namespace Deferral

open Forest Range Firing

/-! ## Copies -/

/-- Text of the source that is brought in as a statement, perhaps after a brace, and perhaps with text that makes it a
declaration. -/
structure Copy where
  span : Span
  brace : Bool
  lead? : Option String

/-- What is written for a copy. -/
def Copy.written (source : List UInt8) (c : Copy) : List UInt8 :=
  (if c.brace then ['\x7b'.toUInt8] else []) ++ '\n'.toUInt8 ::
    (Utf8.encode (c.lead?.getD "") ++ sourceText source c.span.start c.span.stop ++ [';'.toUInt8])

/-- A copy as it is seen in the output: where it is from, what makes it a declaration, and what is written for it. -/
def Copy.view (source : List UInt8) (c : Copy) : Span × Option String × List UInt8 :=
  (c.span, c.lead?, c.written source)

/-- What is seen of text that is brought in. -/
def Range.broughtIn (source : List UInt8) (r : Range) : List (Span × Option String × List UInt8) :=
  if r.spliced then [(r.span, r.lead?, r.written source)] else []

theorem Range.view_broughtIn (source : List UInt8) : Range.View Closing (broughtIn source) where
  bare r hr := by simp [broughtIn, hr.inPlace]
  depth _ _ := rfl

theorem Range.flatMap_broughtIn (source : List UInt8) (cuts : List Range) : cuts.flatMap (broughtIn source) =
    (cuts.filter (·.spliced)).map fun c => (c.span, c.lead?, c.written source) := by
  induction cuts with
  | nil => rfl
  | cons c cs ih =>
    rw [List.flatMap_cons, ih, List.filter_cons, broughtIn]
    cases c.spliced <;> rfl

namespace Firing

/-- What an edit brings in. -/
def Edit.copy? (t : Tree) : Edit → Option Copy
  | .append _ op => some ⟨t.span op, false, none⟩
  | .insertBefore _ op brace => some ⟨t.span op, brace, none⟩
  | .bindValue _ value type => some ⟨t.span value, true, some (declares type)⟩
  | .remove _ | .closeBrace _ => none

/-- Copies of the operations of deferred statements, the first perhaps after a brace. -/
def copiesOf (t : Tree) : (brace : Bool) → (deferred : List Slot) → List Copy
  | _, [] => []
  | brace, s :: ss => ⟨t.span (operation t s), brace, none⟩ :: copiesOf t false ss

variable {t : Tree} {whole f f' g c : Forest Entry} {d k : Nat} {scopes armed armed' : List Placed}
  {tokens : List Token} {source : List UInt8}

theorem filterMap_copy_insertions (jump : Slot) (brace : Bool) (owed : List (Placed × Slot)) :
    (insertions t jump brace owed).filterMap (Edit.copy? t) = copiesOf t brace (owed.map (·.1.slot)) := by
  induction owed generalizing brace with
  | nil => rfl
  | cons y owed ih => simp [insertions, Edit.copy?, copiesOf, ih]

theorem filterMap_copy_endEdits (scope : Placed) :
    (Plan.endEdits t { armed } scope).filterMap (Edit.copy? t) = copiesOf t false (ended t armed scope) := by
  rw [endEdits_eq]
  induction ended t armed scope with
  | nil => rfl
  | cons s ss ih => simp [Edit.copy?, copiesOf, ih]

/-- A jump before which something fires brings in the value it stores, and then what fires. -/
theorem filterMap_copy_jumpEdits {exit : Exit} {jump : Slot} (hx : exit? (t.construct jump) = some exit)
    (hne : left t scopes armed exit ≠ []) : (Plan.jumpEdits t { scopes, armed } jump).filterMap (Edit.copy? t) =
      ((Plan.boundBy? t { scopes, armed } jump exit).toList.map fun v => ⟨t.span v.1, true, some (declares v.2)⟩) ++
        copiesOf t (Plan.bracesAt t { scopes, armed } jump exit && (Plan.boundBy? t { scopes, armed } jump exit).isNone)
          (left t scopes armed exit) := by
  rw [Plan.jumpEdits, hx]
  simp only [exitEdits_of_left hne, List.filterMap_append, filterMap_copy_insertions]
  congr 1
  · cases Plan.boundBy? t { scopes, armed } jump exit <;> rfl
  · cases Plan.bracesAt t { scopes, armed } jump exit <;> simp [left, Edit.copy?, List.filterMap_cons]

/-! ## Copies in a resolved forest -/

theorem Splice.viewed {e : Entry} {b : Forest Entry} {brace : Bool} {lead? : Option String}
    (h : Splice e b { braceBefore := brace } lead? g) :
    viewed (broughtIn source) k g = [Copy.view source ⟨e.node.span, brace, lead?⟩] := by
  cases h with
  | mk n =>
    cases brace <;>
      simp [Firing.viewed, Forest.ranged, Node.showing, Entry.added, tree, broughtIn, Copy.view, Copy.written,
        Range.span, Range.ofNode, Range.written, pieces, opening, closing, Range.text, Actions.union]

theorem Copies.viewed {p? : Option Slot} (ht : t.Holds p? whole) {brace : Bool} {ss : List Slot}
    (h : Copies t whole brace ss c) :
    viewed (broughtIn source) k c = (copiesOf t brace ss).map (Copy.view source) := by
  induction h with
  | nil => rfl
  | @cons _ s _ op _ _ _ hmem hop hg _ ih =>
    have hspan : t.span (operation t s) = op.node.span := hop ▸ ht.span_eq ((members_sublist hmem).subset (by simp))
    rw [viewed_append, hg.viewed, ih, copiesOf, hspan]
    rfl

theorem viewed_removed {e : Entry} {b r : Forest Entry} :
    viewed (broughtIn source) k (.node (e.mark .removed) b r) = viewed (broughtIn source) k r := by
  rw [viewed, Forest.ranged]
  cases he : e.node.span.isEmpty <;>
    simp [Node.showing, Entry.mark, Mark.apply, he, broughtIn, Range.ofNode, viewed]

theorem viewed_replaced {e : Entry} {b r : Forest Entry} (text : String) :
    viewed (broughtIn source) k (.node (e.mark (.replaced text)) b r) = viewed (broughtIn source) k r := by
  simp [viewed, Forest.ranged, Node.showing, Entry.mark, Mark.apply, broughtIn, Range.ofNode]

theorem Resolves.copies {p? q? : Option Slot} (h : Resolves t whole d scopes armed f armed' f') (hw : t.Holds q? whole)
    (ht : t.Holds p? f) (hs : Shaped tokens f) (hx : PlainExits t f) (k : Nat) : viewed (broughtIn source) k f' =
      ((edits t d scopes armed f).1.filterMap (Edit.copy? t)).map (Copy.view source) := by
  have hv := view_broughtIn source
  induction h generalizing p? k with
  | nil => rfl
  | deferred hd _ ih =>
    rw [viewed_removed, ih ht.2.2 hs.2.2 hx.2.2, edits_deferred hd]
    rfl
  | @opens _ _ _ _ _ e b b' c r r' ho hinner hc _ ihb ihr =>
    obtain ⟨⟨he, -⟩, hb, hr⟩ := hs
    obtain ⟨k', hk⟩ := viewed_own (k := k) (b := b' ++ c) (r := r') hv he
    rw [hk, viewed_append, ihb ht.2.1 hb hx.2.1, hc.viewed hw, ihr ht.2.2 hr hx.2.2, edits_opens ho]
    simp [filterMap_copy_endEdits, hinner.armed_eq hx.2.1]
  | @passes _ _ _ _ _ e b b' r r' hd ho hn hinner _ ihb ihr =>
    obtain ⟨⟨he, -⟩, hb, hr⟩ := hs
    obtain ⟨k', hk⟩ := viewed_own (k := k) (b := b') (r := r') hv he
    rw [hk, ihb ht.2.1 hb hx.2.1, ihr ht.2.2 hr hx.2.2, edits_passes hd ho, jumpEdits_of_left hn]
    simp [hinner.armed_eq hx.2.1]
  | @leaves _ scopes armed _ exit e b c r r' hexit hne hnone hc _ ih =>
    obtain ⟨⟨he, -⟩, hb, hr⟩ := hs
    obtain ⟨hd, ho⟩ := exit?_passes (t := t) (s := e.slot) (by rw [hexit]; rfl)
    rw [viewed_append, hc.viewed hw, viewed_jump hv he (hb.mono fun _ _ h => h.1), ih ht.2.2 hr hx.2.2,
      edits_passes hd ho, edits_operands (hx.1 (by simp [hexit])).1]
    simp [filterMap_copy_jumpEdits hexit hne, hnone]
  | @stores _ scopes armed _ type e v b g c r r' hc' hne hsome hg hc _ ih =>
    obtain ⟨⟨he, -⟩, ⟨-, hb, -⟩, hr⟩ := hs
    have hexit : exit? (t.construct e.slot) = some .returned := by rw [hc']; rfl
    obtain ⟨hd, ho⟩ := exit?_passes (t := t) (s := e.slot) (by rw [hexit]; rfl)
    have hspan : t.span v.slot = v.node.span := ht.span_eq (by simp)
    obtain ⟨k', hk⟩ := viewed_closed (k := k) (b := tree (v.mark (.replaced storedValue)) b) (r := r') hv he
    rw [viewed_append, viewed_append, hg.viewed, hc.viewed hw, hk, tree, viewed_replaced, ih ht.2.2 hr hx.2.2,
      edits_passes hd ho, edits_operands (hx.1 (by simp [hexit])).1]
    simp [filterMap_copy_jumpEdits hexit hne, hsome, hspan]

/-! ## Copies and firings -/

/-- The operation that an edit puts in place. -/
def Edit.operation? : Edit → Option Slot
  | .append _ op | .insertBefore _ op _ => some op
  | .remove _ | .bindValue _ _ _ | .closeBrace _ => none

/-- Each firing of a plan is of a deferred statement among some nodes, and goes with an edit that puts its operation in
place. -/
structure Plan.Paired (t : Tree) (nodes : List Slot) (p : Plan) : Prop where
  armed : ∀ a ∈ p.armed, Deferred t nodes a.slot
  firings : ∀ x ∈ p.firings.toList, Deferred t nodes x.deferred
  edits : p.edits.toList.filterMap Edit.operation? = p.firings.toList.map fun x => operation t x.deferred

namespace Plan.Paired

variable {p : Plan} {nodes : List Slot}

theorem after {es : List Edit} {fs : List Firing} (h : p.Paired t nodes)
    (hfs : ∀ x ∈ fs, Deferred t nodes x.deferred)
    (hes : es.filterMap Edit.operation? = fs.map fun x => operation t x.deferred) :
    (p.after t es fs).Paired t nodes where
  armed := h.armed
  firings := by
    rw [firings_after, List.forall_mem_append]
    exact ⟨h.firings, hfs⟩
  edits := by rw [edits_after, firings_after, List.filterMap_append, List.map_append, h.edits, hes]

theorem exitAtEnd (h : p.Paired t nodes) (scope : Placed) : (p.exitAtEnd t scope).Paired t nodes := by
  have hkept : Paired t nodes { p with armed := p.armed.filter (·.depth != scope.depth + 1) } :=
    ⟨fun a ha => h.armed a (List.mem_filter.1 ha).1, h.firings, h.edits⟩
  rw [exitAtEnd_eq]
  unfold endEdits endFirings
  split
  · refine hkept.after (fun x hx => ?_) (by simp [Edit.operation?, List.filterMap_map, Function.comp_def])
    obtain ⟨a, ha, rfl⟩ := List.mem_map.1 hx
    exact h.armed a (List.mem_filter.1 ha).1
  · exact hkept.after nofun rfl

theorem closeFrom (h : p.Paired t nodes) (d : Nat) : (p.closeFrom t d).Paired t nodes := by
  have hleft (l : List Placed) : (l.foldl (Plan.exitAtEnd t) p).Paired t nodes := by
    induction l generalizing p with
    | nil => exact h
    | cons x l ih => exact ih (h.exitAtEnd x)
  rw [closeFrom_eq]
  exact ⟨(hleft _).armed, (hleft _).firings, (hleft _).edits⟩

theorem operations_insertions (jump : Slot) (brace : Bool) (owed : List (Placed × Slot)) :
    (insertions t jump brace owed).filterMap Edit.operation? = owed.map fun y => operation t y.1.slot := by
  induction owed generalizing brace with
  | nil => rfl
  | cons y owed ih => simp [insertions, Edit.operation?, ih]

theorem exitEarly (h : p.Paired t nodes) (jump : Slot) (exit : Exit) : (p.exitEarly t jump exit).Paired t nodes := by
  rw [exitEarly_eq]
  refine h.after (fun x hx => ?_) ?_
  · obtain ⟨y, hy, rfl⟩ := List.mem_map.1 hx
    obtain ⟨scope, -, hy⟩ := List.mem_flatMap.1 hy
    obtain ⟨a, ha, rfl⟩ := List.mem_map.1 hy
    exact h.armed a (List.mem_filter.1 ha).1
  · unfold exitEdits
    split
    next hnil => simp [List.isEmpty_iff.1 hnil]
    next =>
      cases p.boundBy? t jump exit <;> cases p.bracesAt t jump exit <;>
        simp [operations_insertions, List.filterMap_cons, Edit.operation?]

theorem enter {s : Slot} (h : p.Paired t nodes) (hs : s ∈ nodes) (d : Nat) : (p.enter t s d).Paired t nodes := by
  by_cases hd : t.tag s = .deferred
  · rw [enter_deferred hd]
    refine ⟨List.forall_mem_cons.2 ⟨⟨hs, hd⟩, h.armed⟩, h.firings, ?_⟩
    simpa [arm, edit, List.filterMap_cons, Edit.operation?] using h.edits
  · by_cases ho : opens (t.tag s) = true
    · rw [enter_opens ho]
      exact ⟨h.armed, h.firings, h.edits⟩
    · cases hx : exit? (t.construct s) with
      | some exit => exact enter_exit hx ▸ h.exitEarly s exit
      | none => exact (enter_passes hd (by simpa using ho) hx).symm ▸ h

theorem fire {f : Forest Entry} (h : p.Paired t nodes) (hf : ∀ s ∈ outer t f, s ∈ nodes) (d : Nat) :
    (fire t d f p).Paired t nodes := by
  induction f generalizing d p with
  | nil => exact h
  | node e b r ihb ihr =>
    have hin := h.enter (hf e.slot (by simp [outer])) d
    rw [Firing.fire]
    refine ihr ?_ (fun s hs => hf s (by simp [outer, hs])) d
    split
    next => exact hin
    next hd => exact (ihb hin (fun s hs => hf s (by simp [outer, hd, hs])) (d + 1)).closeFrom d

end Plan.Paired

end Firing

/-- All that resolving brings in, in the order of the text it is brought in to. -/
def Tree.copies (t : Tree) : List Copy := (plan t).edits.toList.filterMap (Edit.copy? t)

namespace Tree.Built

variable {t : Tree} {source : List UInt8} {path : Path} {tokens : List Token} {f f' : Forest Entry}
  {armed : List Placed}

section

variable (h : t.Built source path tokens f)
include h

theorem copies_eq :
    t.copies = (edits t 1 [] [] f).1.filterMap (Edit.copy? t) := by
  rw [Tree.copies, h.edits_functions]

theorem copies_cuts
    (hr : Resolves t (whole source path f) 1 [] [] f armed f')
    (hs : (resolve t).tree.Stands none 0 (whole source path f')) :
    (resolve t).tree.cuts.cuts.flatMap (broughtIn source) = t.copies.map (Copy.view source) := by
  have hseen : (resolve t).tree.cuts.cuts.flatMap (broughtIn source) =
      viewed (broughtIn source) 0 (whole source path f') := by
    rw [Presentable.cuts_eq hs rfl]
    exact viewed_cutAll (view_broughtIn source) (h.settled_resolved hr)
  obtain ⟨k, hk⟩ := viewed_own (k := 0) (e := .fresh .root (.unit path) ⟨0, source.length⟩) (b := f') (r := .nil)
    (view_broughtIn source) rfl
  rw [hseen, whole, tree, hk, viewed_nil, List.append_nil, h.copies_eq]
  exact hr.copies h.stands.holds h.stands.holds.2.1 h.shaped.2.1 h.plainExits.2.1 k

theorem firings_paired :
    (∀ x ∈ (resolve t).firings, Deferred t (outer t (whole source path f)) x.deferred) ∧
      (plan t).edits.toList.filterMap Edit.operation? =
        (resolve t).firings.map fun x => operation t x.deferred := by
  have hstart : ({} : Plan).Paired t (outer t (whole source path f)) := ⟨by simp, by simp, rfl⟩
  have hfire := hstart.fire (fun _ hs => hs) 0
  obtain ⟨hedits, hfirings⟩ := plan_fire h.stands rfl
  change (∀ x ∈ (plan t).firings.toList, _) ∧ _ = (plan t).firings.toList.map _
  rw [hedits, hfirings]
  exact ⟨hfire.firings, hfire.edits⟩

theorem fired_copies : (t.copies.filter (·.lead?.isNone)).map Copy.span =
    (resolve t).firings.map fun x => t.span (operation t x.deferred) := by
  have hops (es : List Edit) : ((es.filterMap (Edit.copy? t)).filter (·.lead?.isNone)).map Copy.span =
      (es.filterMap Edit.operation?).map t.span := by
    induction es with
    | nil => rfl
    | cons e es ih => cases e <;> simpa [List.filterMap_cons, Edit.copy?, Edit.operation?] using ih
  rw [Tree.copies, hops, h.firings_paired.2, List.map_map]
  rfl

end

theorem declared_copies (t : Tree) : t.copies.filter (·.lead?.isSome) =
    t.boundValues.map fun v => ⟨t.span v.1, true, some (declares v.2)⟩ := by
  rw [Tree.copies, Tree.boundValues]
  induction (plan t).edits.toList with
  | nil => rfl
  | cons e es ih => cases e <;> simpa [List.filterMap_cons, Edit.copy?, Edit.bound?] using ih

end Tree.Built

end Deferral
