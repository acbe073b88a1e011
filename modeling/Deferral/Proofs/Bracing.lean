import Deferral.Proofs.BroughtIn

/-!
# Braces around jumps

A jump before which something fires becomes several statements. Where it stands alone as a body, or where its value has
to be stored first, braces are asked for around them: the opening one by the first text that is brought in, the closing
one by the jump. In the cuts of a resolved tree these requests come in pairs, each around just one jump and what is
brought in before it, and just the jumps that need braces have a pair (`braced_of_build`).
-/

namespace Deferral

open Forest Range Firing
open List hiding append_assoc append_nil map_map map_nil nil_append

variable {ss : List Slot} {cursor : Nat} {brace : Bool} {x : Range}

/-! ## Requests for braces -/

inductive Brace where
  | opening
  | closing
  deriving DecidableEq, Repr

/-- The braces that are asked for around a text, in the order in which they are written. -/
def Actions.braces (a : Actions) : List Brace :=
  (if a.braceBefore then [.opening] else []) ++ if a.braceAfter then [.closing] else []

def Range.braces (r : Range) : List Brace := r.actions.braces

theorem Actions.braces_eq_nil {a : Actions} : a.braces = [] ↔ a.braceBefore = false ∧ a.braceAfter = false := by
  unfold braces
  cases a.braceBefore <;> cases a.braceAfter <;> simp

theorem requests_unbraced : Requests (·.braces = []) where
  none := rfl
  leading h := by simp_all [Actions.braces_eq_nil, Actions.leading]
  trailing h := by simp_all [Actions.braces_eq_nil, Actions.trailing]
  union h h' := by simp_all [Actions.braces_eq_nil, Actions.union]

theorem Range.view_braces : Range.View (·.braces = []) braces where
  bare _ hr := hr.requests
  depth _ _ := rfl

/-! ## Arrangements of cuts -/

/-- `Arranged P jumps cuts`: for each jump there is a run of cuts that `P` has of it, in this order, and no brace is
asked for between the runs. -/
inductive Arranged (P : Slot → List Range → Prop) : List Slot → List Range → Prop
  | nil : Arranged P [] []
  | text {jumps : List Slot} {quiet cuts : List Range} (hq : quiet.flatMap braces = []) (h : Arranged P jumps cuts) :
    Arranged P jumps (quiet ++ cuts)
  | jump {s : Slot} {jumps : List Slot} {own cuts : List Range} (hs : P s own) (h : Arranged P jumps cuts) :
    Arranged P (s :: jumps) (own ++ cuts)

namespace Arranged

variable {P : Slot → List Range → Prop} {jumps jumps' : List Slot} {cuts cuts' : List Range}

theorem of_unbraced (h : cuts.flatMap braces = []) : Arranged P [] cuts := by
  have := text (P := P) h .nil
  rwa [List.append_nil] at this

theorem append (h : Arranged P jumps cuts) (h' : Arranged P jumps' cuts') :
    Arranged P (jumps ++ jumps') (cuts ++ cuts') := by
  induction h with
  | nil => exact h'
  | text hq _ ih =>
    rw [List.append_assoc]
    exact .text hq ih
  | jump hs _ ih =>
    rw [List.append_assoc]
    exact .jump hs ih

theorem braces_eq (hP : ∀ s own, P s own → own.flatMap braces = [.opening, .closing]) (h : Arranged P jumps cuts) :
    cuts.flatMap braces = jumps.flatMap fun _ => [.opening, .closing] := by
  induction h with
  | nil => rfl
  | text hq _ ih => rw [flatMap_append, hq, ih, List.nil_append]
  | jump hs _ ih => rw [flatMap_append, hP _ _ hs, ih, flatMap_cons]

end Arranged

/-! ## Arrangements around ranges -/

namespace Forest

variable {P : Slot → List Range → Prop} {c r : Range} {b f y : Forest Range} {jumps jumps' : List Slot}

/-- However far the text of `c` is, the cuts around the trees below it are arranged. -/
def Arranges (P : Slot → List Range → Prop) (c : Range) (jumps : List Slot) (f : Forest Range) : Prop :=
  ∀ cursor head, head.braces = [] → Arranged P jumps (cutAround c cursor head f).cuts

theorem arranges_nil (hc : c.braces = []) : Arranges P c [] nil := by
  intro cursor head hh
  apply Arranged.of_unbraced
  exact flatMap_gap view_braces _ _ _ (requests_unbraced.union hh (requests_unbraced.trailing hc))

theorem Arranges.node (hr : Arranged P jumps (cutTree r b).cuts) (h : Arranges P c jumps' y) :
    Arranges P c (jumps ++ jumps') (.node r b y) := by
  intro cursor head hh
  obtain ⟨hbefore, hhead⟩ := flatMap_approach requests_unbraced view_braces c r cursor hh
    (if r.spliced then y.nextInPlace? else some r.start)
  rw [cutAround_node]
  simp only [Cuts.cuts_append, List.append_assoc]
  exact .text hbefore (hr.append (h _ _ hhead))

theorem Arranges.leaf (hr : r.braces = []) (h : Arranges P c jumps y) : Arranges P c jumps (.node r nil y) := by
  have hcuts : (cutTree r nil).cuts.flatMap braces = [] := (List.append_nil _).trans hr
  exact Arranges.node (.of_unbraced hcuts) h

theorem Arranges.cutTree (hP : ∀ s own, P s own → own.flatMap braces = [.opening, .closing]) (hr : r.braces = [])
    (h : Arranges P r jumps b) : Arranged P jumps (cutTree r b).cuts := by
  have hlead := requests_unbraced.leading hr
  have hcuts := h r.start r.actions.leading hlead
  cases b with
  | node => exact hcuts
  | nil =>
    -- There are no jumps in an empty forest, since no brace is asked for.
    have hnone : (cutAround r r.start r.actions.leading nil).cuts.flatMap braces = [] :=
      flatMap_gap view_braces _ _ _ (requests_unbraced.union hlead (requests_unbraced.trailing hr))
    rw [hcuts.braces_eq hP] at hnone
    cases jumps with
    | nil => exact .of_unbraced ((List.append_nil _).trans hr)
    | cons => simp at hnone

/-! ## A jump and what is brought in before it -/

/-- Ranges side by side, with nothing below them. -/
def leaves : List Range → Forest Range
  | [] => nil
  | r :: rs => .node r nil (leaves rs)

theorem leaves_append (rs qs : List Range) : leaves (rs ++ qs) = leaves rs ++ leaves qs := by
  induction rs with
  | nil => rfl
  | cons r rs ih => simp [leaves, ih]

theorem Arranges.leaves {rs : List Range} (hrs : rs.flatMap braces = []) (h : Arranges P c jumps y) :
    Arranges P c jumps (Forest.leaves rs ++ y) := by
  induction rs with
  | nil => exact h
  | cons r rs ih =>
    rw [flatMap_cons, append_eq_nil_iff] at hrs
    exact .leaf hrs.1 (ih hrs.2)

theorem nextInPlace?_leaves {rs : List Range} (hrs : ∀ x ∈ rs, x.spliced = true) (hr : r.spliced = false) :
    (leaves rs ++ .node r b y).nextInPlace? = some r.start := by
  induction rs with
  | nil => simp [leaves, nextInPlace?, hr]
  | cons x rs ih =>
    obtain ⟨hx, hrs⟩ := forall_mem_cons.1 hrs
    have := ih hrs
    simpa [leaves, nextInPlace?, hx] using this

theorem cuts_gap_self (c : Range) (cursor : Nat) : (gap c cursor cursor {}).cuts = [] := by
  simp [gap, Actions.isEmpty]

/-- Up to a place that the text has passed nothing is left to be written. -/
theorem cuts_approach_passed {upto : Nat} (h : upto ≤ cursor) (child : Range) :
    (approach c cursor {} child (some upto)).before.cuts = [] ∧ (approach c cursor {} child (some upto)).head = {} ∧
      (approach c cursor {} child (some upto)).reached = cursor := by
  have hmax : max upto cursor = cursor := Nat.max_eq_right h
  refine ⟨?_, rfl, Nat.max_eq_left h⟩
  simp only [approach, hmax, Cuts.cuts_append, cuts_gap_self, List.append_nil]
  split <;> rfl

/-- The text has gone up to a range in place: what is brought in before it and its own cuts follow at once. -/
theorem cuts_leaves_passed {rs : List Range} (hrs : ∀ x ∈ rs, x.spliced = true) (hr : r.spliced = false)
    (hcursor : r.start ≤ cursor) : (cutAround c cursor {} (leaves rs ++ .node r b y)).cuts =
      rs.map ({ · with depth := 0 }) ++ (Forest.cutTree r b).cuts ++ (cutAround c (max cursor r.stop) {} y).cuts := by
  obtain ⟨hbefore, hhead, hreached⟩ := cuts_approach_passed (c := c) hcursor r
  induction rs with
  | nil =>
    rw [leaves, nil_append, cutAround_node]
    simp only [hr, Bool.false_eq_true, if_false, Cuts.cuts_append, hbefore, hhead, Approach.pass, hreached]
    rfl
  | cons x rs ih =>
    obtain ⟨hx, hrs⟩ := forall_mem_cons.1 hrs
    obtain ⟨hbefore', hhead', hreached'⟩ := cuts_approach_passed (c := c) hcursor x
    rw [leaves, node_append, cutAround_node]
    simp only [hx, if_true, nextInPlace?_leaves hrs hr, Cuts.cuts_append, hbefore', hhead', Approach.pass, hreached',
      ih hrs]
    rfl

theorem Arranges.jump {s : Slot} {rs : List Range} (hne : rs ≠ []) (hrs : ∀ x ∈ rs, x.spliced = true)
    (hr : r.spliced = false) (hs : P s (rs.map ({ · with depth := 0 }) ++ (Forest.cutTree r b).cuts))
    (h : Arranges P c jumps y) : Arranges P c (s :: jumps) (Forest.leaves rs ++ .node r b y) := by
  intro cursor head hh
  obtain ⟨x, xs, rfl⟩ := exists_cons_of_ne_nil hne
  obtain ⟨hx, hxs⟩ := forall_mem_cons.1 hrs
  obtain ⟨hbefore, -⟩ := flatMap_approach requests_unbraced view_braces c x cursor hh (some r.start)
  have hpassed := cuts_leaves_passed (c := c) (b := b) (y := y) hxs hr (Nat.le_max_right cursor r.start)
  have hcuts : (cutAround c cursor head (Forest.leaves (x :: xs) ++ .node r b y)).cuts =
      (approach c cursor head x (some r.start)).before.cuts ++
        ((x :: xs).map ({ · with depth := 0 }) ++ (Forest.cutTree r b).cuts ++
          (cutAround c (max (max cursor r.start) r.stop) {} y).cuts) := by
    rw [Forest.leaves, node_append, cutAround_node]
    simp only [hx, if_true, nextInPlace?_leaves hxs hr, Cuts.cuts_append, Approach.pass]
    rw [show (approach c cursor head x (some r.start)).head = {} from rfl,
      show (approach c cursor head x (some r.start)).reached = max cursor r.start from rfl, hpassed]
    simp [Forest.cutTree]
  rw [hcuts]
  exact .text hbefore (.jump hs (h _ _ rfl))

/-! ## The text of a jump -/

theorem BareAround.mono {A B : Actions → Prop} (hAB : ∀ a, A a → B a) (h : f.BareAround A) : f.BareAround B :=
  Every.mono (fun _ _ hbare hne => ⟨(hbare hne).inPlace, hAB _ (hbare hne).requests, (hbare hne).lead, (hbare hne).own⟩)
    h

/-- Ranges that ask for no brace and stand at their own place. -/
structure Unbraced (f : Forest Range) : Prop where
  bare : f.BareAround (·.braces = [])
  inPlace : ∀ r ∈ f.members, r.spliced = false
  braces : ∀ r ∈ f.members, r.braces = []

theorem Unbraced.flatMap_eq (h : f.Unbraced) : f.members.flatMap Range.braces = [] := flatMap_eq_nil_iff.2 h.braces

theorem Unbraced.cutTree (h : f.Unbraced) (hr : r.braces = []) (hbare : f ≠ nil → r.Bare (·.braces = [])) :
    (cutTree r f).cuts.flatMap Range.braces = [] := by
  rw [flatMap_cutTree view_braces hbare fun hr => flatMap_cutAround requests_unbraced view_braces h.bare hr.requests
    (requests_unbraced.leading hr.requests), hr, h.flatMap_eq]
  rfl

/-- The brace after a text is asked for by its last cut, whatever lies inside it. -/
theorem Unbraced.exists_last {head : Actions} {cursor : Nat} (h : f.Unbraced) (hc : c.actions = { braceAfter := true })
    (hh : head.braces = []) : ∃ init last, (cutAround c cursor head f).cuts = init ++ [last] ∧
      init.flatMap Range.braces = [] ∧ last.braces = [.closing] := by
  induction f generalizing cursor head with
  | nil =>
    obtain ⟨hbefore, hafter⟩ := Actions.braces_eq_nil.1 hh
    have hne : (head.union c.actions.trailing).isEmpty = false := by
      simp [Actions.isEmpty, Actions.union, Actions.trailing, hc]
    rw [cutAround, gap, hne, Bool.not_false, Bool.or_true, if_pos rfl]
    refine ⟨[], _, rfl, rfl, ?_⟩
    simp [Range.braces, Actions.braces, Actions.union, Actions.trailing, hc, hbefore]
  | node r b s ihb ihs =>
    obtain ⟨⟨hbare, hb, hs⟩, hplace, hbraces⟩ := h
    simp only [members_node, forall_mem_cons, forall_mem_append] at hplace hbraces
    obtain ⟨hbefore, hhead⟩ := flatMap_approach requests_unbraced view_braces c r cursor hh
      (if r.spliced then s.nextInPlace? else some r.start)
    rw [cutAround_node]
    generalize approach c cursor head r (if r.spliced then s.nextInPlace? else some r.start) = a at hbefore hhead
    have htree := Unbraced.cutTree ⟨hb, hplace.2.1, hbraces.2.1⟩ hbraces.1 hbare
    obtain ⟨init, last, hcuts, hinit, hlast⟩ := @ihs a.head (a.pass r) ⟨hs, hplace.2.2, hbraces.2.2⟩ hhead
    refine ⟨a.before.cuts ++ (Forest.cutTree r b).cuts ++ init, last, ?_, ?_, hlast⟩
    · simp only [Cuts.cuts_append, hcuts, List.append_assoc]
    · rw [flatMap_append, flatMap_append, hbefore, htree, hinit]
      rfl

/-- The cuts of a text with a brace after it. -/
structure Closed (lo hi : Nat) (cuts : List Range) : Prop where
  last : ∃ init last, cuts = init ++ [last] ∧ init.flatMap Range.braces = [] ∧ last.braces = [.closing]
  inPlace : ∀ c ∈ cuts, c.spliced = false
  contiguous : Contiguous lo hi cuts

theorem Unbraced.closed (h : f.Unbraced) (hr : r.Bare (· = { braceAfter := true })) (hn : f.Nests r.start r.stop) :
    Closed r.start r.stop (Forest.cutTree r f).cuts where
  last := by
    have hlead : r.actions.leading.braces = [] := by rw [hr.requests]; rfl
    have hclosing : r.braces = [.closing] := by rw [Range.braces, hr.requests]; rfl
    cases f with
    | nil => exact ⟨[], _, rfl, rfl, hclosing⟩
    | node => exact h.exists_last hr.requests hlead
  inPlace := by
    have hany : Requests fun _ => True := ⟨trivial, fun _ => trivial, fun _ => trivial, fun _ _ => trivial⟩
    have hbare : (tree r f).BareAround fun _ => True :=
      every_tree.2 ⟨fun _ => ⟨hr.inPlace, trivial, hr.lead, hr.own⟩, h.bare.mono fun _ _ => trivial⟩
    have hcuts := forall_cutAll (P := (·.spliced = false)) hany (fun _ hr => hr.inPlace) (fun _ _ hr => hr) hbare
      (by simpa using ⟨hr.inPlace, h.inPlace⟩)
    rwa [tree, cutAll, cutAll, Cuts.append_empty] at hcuts
  contiguous := (covers_cutTree hr.inPlace hn.le hn.covers).contiguous

end Forest

/-! ## What is planned for a jump -/

namespace Firing

/-- The jump that an edit is for. -/
def Edit.jump? : Edit → Option Slot
  | .insertBefore jump _ _ | .bindValue jump _ _ | .closeBrace jump => some jump
  | .remove _ | .append _ _ => none

/-- The edits for one jump. -/
def editsFor (es : List Edit) (jump : Slot) : List Edit := es.filter (·.jump? = some jump)

variable {t : Tree} {p : Plan} {f b r : Forest Entry} {e : Entry} {s jump : Slot} {d : Nat} {scopes armed : List Placed}

@[simp] theorem editsFor_append (es fs : List Edit) : editsFor (es ++ fs) jump = editsFor es jump ++ editsFor fs jump :=
  filter_append ..

theorem jump?_of_mem_jumpEdits {edit : Edit} (h : edit ∈ p.jumpEdits t s) : edit.jump? = some s := by
  unfold Plan.jumpEdits at h
  split at h
  next exit _ =>
    unfold Plan.exitEdits at h
    split at h
    · cases h
    · simp only [mem_append] at h
      rcases h with (h | h) | h
      · split at h
        · rw [mem_singleton.1 h]
          rfl
        · cases h
      · obtain ⟨_, -, _, rfl⟩ := mem_insertions h
        rfl
      · split at h
        · rw [mem_singleton.1 h]
          rfl
        · cases h
  next => cases h

theorem editsFor_jumpEdits : editsFor (p.jumpEdits t s) s = p.jumpEdits t s :=
  filter_eq_self.2 fun _ h => decide_eq_true (jump?_of_mem_jumpEdits h)

theorem editsFor_jumpEdits_ne (h : s ≠ jump) : editsFor (p.jumpEdits t s) jump = [] := by
  refine filter_eq_nil_iff.2 fun edit hmem => ?_
  rw [jump?_of_mem_jumpEdits hmem]
  simpa using h

theorem editsFor_endEdits (x : Placed) : editsFor (p.endEdits t x) jump = [] := by
  refine filter_eq_nil_iff.2 fun edit hmem => ?_
  unfold Plan.endEdits at hmem
  split at hmem
  · obtain ⟨_, -, rfl⟩ := mem_map.1 hmem
    simp [Edit.jump?]
  · cases hmem

theorem editsFor_remove (es : List Edit) : editsFor (.remove s :: es) jump = editsFor es jump := by
  simp [editsFor, Edit.jump?]

theorem editsFor_edits (h : jump ∉ f.slots) : editsFor (edits t d scopes armed f).1 jump = [] := by
  induction f generalizing d scopes armed with
  | nil => rfl
  | node e b r ihb ihr =>
    simp only [slots_node, mem_cons, mem_append, not_or] at h
    obtain ⟨he, hb, hr⟩ := h
    by_cases hd : t.tag e.slot = .deferred
    · rw [edits_deferred hd, editsFor_remove, ihr hr]
    · by_cases ho : opens (t.tag e.slot) = true
      · simp [edits_opens ho, ihb hb, ihr hr, editsFor_endEdits]
      · simp [edits_passes hd (by simpa using ho), ihb hb, ihr hr, editsFor_jumpEdits_ne (Ne.symm he)]

/-- For the jumps of a forest, the plan of the tree has just the edits of the forest. -/
def Planned (t : Tree) (d : Nat) (scopes armed : List Placed) (f : Forest Entry) : Prop :=
  f.slots.Nodup ∧ ∀ s ∈ f.slots, editsFor (plan t).edits.toList s = editsFor (edits t d scopes armed f).1 s

namespace Planned

variable (h : Planned t d scopes armed (.node e b r))

include h

theorem apart : (e.slot ∉ b.slots ∧ e.slot ∉ r.slots) ∧ b.slots.Nodup ∧ r.slots.Nodup ∧
    (∀ s ∈ b.slots, e.slot ≠ s ∧ s ∉ r.slots) ∧ ∀ s ∈ r.slots, e.slot ≠ s ∧ s ∉ b.slots := by
  have hn := h.1
  rw [slots_node, nodup_cons, nodup_append, mem_append, not_or] at hn
  obtain ⟨⟨hb, hr⟩, hbn, hrn, hbr⟩ := hn
  refine ⟨⟨hb, hr⟩, hbn, hrn, fun s hs => ⟨?_, fun hm => hbr s hs s hm rfl⟩,
    fun s hs => ⟨?_, fun hm => hbr s hm s hs rfl⟩⟩
  · rintro rfl
    exact hb hs
  · rintro rfl
    exact hr hs

theorem deferred (hd : t.tag e.slot = .deferred) :
    (∀ s ∈ (tree e b).slots, editsFor (plan t).edits.toList s = []) ∧
      Planned t d scopes (⟨e.slot, d⟩ :: armed) r := by
  obtain ⟨⟨-, her⟩, -, hrn, hb, hr⟩ := h.apart
  refine ⟨fun s hs => ?_, hrn, fun s hs => ?_⟩
  · have hout : s ∉ r.slots := by
      rw [slots_tree, mem_cons] at hs
      rcases hs with rfl | hs
      · exact her
      · exact (hb s hs).2
    rw [h.2 s (by simp_all), edits_deferred hd, editsFor_remove, editsFor_edits hout]
  · rw [h.2 s (by simp [hs]), edits_deferred hd, editsFor_remove]

theorem opens (ho : opens (t.tag e.slot) = true) : editsFor (plan t).edits.toList e.slot = [] ∧
    Planned t (d + 1) (⟨e.slot, d⟩ :: scopes) armed b ∧
      Planned t d scopes ((edits t (d + 1) (⟨e.slot, d⟩ :: scopes) armed b).2.filter (·.depth != d + 1)) r := by
  obtain ⟨⟨heb, her⟩, hbn, hrn, hb, hr⟩ := h.apart
  refine ⟨?_, ⟨hbn, fun s hs => ?_⟩, hrn, fun s hs => ?_⟩
  · rw [h.2 e.slot (by simp), edits_opens ho]
    simp [editsFor_edits heb, editsFor_edits her, editsFor_endEdits]
  · rw [h.2 s (by simp [hs]), edits_opens ho]
    simp [editsFor_edits (hb s hs).2, editsFor_endEdits]
  · rw [h.2 s (by simp [hs]), edits_opens ho]
    simp [editsFor_edits (hr s hs).2, editsFor_endEdits]

theorem passes (hd : t.tag e.slot ≠ .deferred) (ho : Firing.opens (t.tag e.slot) = false) :
    editsFor (plan t).edits.toList e.slot = Plan.jumpEdits t { scopes, armed } e.slot ∧
    Planned t (d + 1) scopes armed b ∧ Planned t d scopes (edits t (d + 1) scopes armed b).2 r := by
  obtain ⟨⟨heb, her⟩, hbn, hrn, hb, hr⟩ := h.apart
  refine ⟨?_, ⟨hbn, fun s hs => ?_⟩, hrn, fun s hs => ?_⟩
  · rw [h.2 e.slot (by simp), edits_passes hd ho]
    simp [editsFor_edits heb, editsFor_edits her, editsFor_jumpEdits]
  · rw [h.2 s (by simp [hs]), edits_passes hd ho]
    simp [editsFor_edits (hb s hs).2, editsFor_jumpEdits_ne (hb s hs).1]
  · rw [h.2 s (by simp [hs]), edits_passes hd ho]
    simp [editsFor_edits (hr s hs).2, editsFor_jumpEdits_ne (hr s hs).1]

end Planned

end Firing

/-! ## Jumps in braces -/

/-- What is brought in before a jump. -/
def Tree.copiesBefore (t : Tree) (jump : Slot) : List Copy :=
  (editsFor (plan t).edits.toList jump).filterMap (Edit.copy? t)

/-- Whether a node has to be in braces: a jump before which something fires, whose value is stored, or which stands in a
body without braces. -/
def Tree.needsBraces (t : Tree) (s : Slot) : Bool :=
  (exit? (t.construct s)).isSome && (t.copiesBefore s).any (·.lead?.isNone) &&
    ((t.copiesBefore s).any (·.lead?.isSome) || (t.parent? s).any fun parent => !(t.construct parent).braced)

/-- The body that a jump stands in is without braces just where the text ends with the jump. Labels have no end of their
own, and no braces either; they stand in the braces of their `switch`. -/
def Tree.BareBodies (t : Tree) : Prop :=
  ∀ parent ∈ t.reachable, ∀ s ∈ t.children parent, (exit? (t.construct s)).isSome = true →
    t.parent? s = some parent ∧ ((t.construct parent).braced = false ↔
      t.tag parent ≠ .caseLabel ∧ (t.span s).stop = (t.span parent).stop)

/-- Cuts with braces around a jump and what is brought in before it. -/
structure Tree.Encloses (t : Tree) (jump : Slot) (cuts : List Range) : Prop where
  /-- First what is brought in, each as a cut of its own, and then the text of the jump, all of it and nothing else. -/
  parts : ∃ added own, cuts = added ++ own ∧ (∀ c ∈ added, c.spliced = true) ∧
    added.map (fun c => (c.span, c.lead?)) = (t.copiesBefore jump).map (fun c => (c.span, c.lead?)) ∧
      (∀ c ∈ own, c.spliced = false) ∧ Contiguous (t.span jump).start (t.span jump).stop own
  braces : ∃ first inside last, cuts = first :: (inside ++ [last]) ∧ first.braces = [.opening] ∧
    inside.flatMap Range.braces = [] ∧ last.braces = [.closing]

theorem Tree.Encloses.braces_eq {t : Tree} {jump : Slot} {cuts : List Range} (h : t.Encloses jump cuts) :
    cuts.flatMap Range.braces = [.opening, .closing] := by
  obtain ⟨first, inside, last, rfl, hfirst, hinside, hlast⟩ := h.braces
  simp [hfirst, hinside, hlast]

/-- A range for text that is brought in. -/
structure Copy.Shows (c : Copy) (r : Range) : Prop where
  spliced : r.spliced = true
  span : r.span = c.span
  lead : r.lead? = c.lead?
  braces : r.braces = if c.brace then [.opening] else []

namespace Copy

variable {t : Tree} {jump : Slot} {c : Copy} {cs : List Copy} {rs own : List Range}

theorem forall_spliced (h : List.Forall₂ Shows cs rs) : ∀ r ∈ rs, r.spliced = true := by
  induction h with
  | nil => simp
  | cons hr _ ih => exact forall_mem_cons.2 ⟨hr.spliced, ih⟩

theorem map_eq (h : List.Forall₂ Shows cs rs) :
    rs.map (fun r => (r.span, r.lead?)) = cs.map fun c => (c.span, c.lead?) := by
  induction h with
  | nil => rfl
  | cons hr _ ih => simp [hr.span, hr.lead, ih]

theorem braces_eq_nil (h : List.Forall₂ Shows cs rs) (hcs : ∀ c ∈ cs, c.brace = false) :
    rs.flatMap Range.braces = [] := by
  induction h with
  | nil => rfl
  | cons hr _ ih =>
    obtain ⟨hc, hcs⟩ := forall_mem_cons.1 hcs
    rw [flatMap_cons, hr.braces, hc, ih hcs]
    rfl

/-- What is brought in, the first after a brace, and then the text of the jump, with a brace after it. -/
theorem encloses (hcopies : t.copiesBefore jump = c :: cs) (h : List.Forall₂ Shows (c :: cs) rs) (hc : c.brace = true)
    (hcs : ∀ c ∈ cs, c.brace = false) (hown : Closed (t.span jump).start (t.span jump).stop own) :
    t.Encloses jump (rs.map ({ · with depth := 0 }) ++ own) where
  parts := by
    refine ⟨_, own, rfl, ?_, ?_, hown.inPlace, hown.contiguous⟩
    · simpa using forall_spliced h
    · rw [hcopies, ← map_eq h, List.map_map]
      rfl
  braces := by
    cases h with
    | @cons _ r _ rs hr h =>
      obtain ⟨init, last, rfl, hinit, hlast⟩ := hown.last
      have hrest : (rs.map ({ · with depth := 0 } : Range → Range)).flatMap Range.braces = rs.flatMap Range.braces := by
        rw [flatMap_map]
        rfl
      refine ⟨{ r with depth := 0 }, rs.map ({ · with depth := 0 }) ++ init, last, by simp, ?_, ?_, hlast⟩
      · exact hr.braces.trans (by rw [hc]; rfl)
      · rw [flatMap_append, hrest, braces_eq_nil h hcs, hinit]
        rfl

end Copy

/-! ## Jumps of a resolved forest -/

theorem Shape.lt_of_exit {tokens : List Token} {n : Node} {kids : List Entry} (h : Shape tokens n kids)
    (hx : (exit? n.construct).isSome = true) : n.span.start < n.span.stop := by
  unfold Shape at h
  cases hc : n.construct with
  | returned =>
    simp only [hc] at h
    exact h.1
  | jump =>
    simp only [hc] at h
    exact h.1
  | _ => simp [hc, exit?] at hx

/-- A body without braces that is a jump ends with it, and with braces it does not. -/
theorem Shape.braced_eq_false_iff {tokens : List Token} {n : Node} {kids : List Entry} (h : Shape tokens n kids)
    {k : Entry} (hk : k ∈ kids) (hx : (exit? k.node.construct).isSome = true) (hle : k.node.span.stop ≤ n.span.stop) :
    n.construct.braced = false ↔ n.tag ≠ .caseLabel ∧ k.node.span.stop = n.span.stop := by
  have hj : k.node.tag.isJump = true := by
    unfold Node.tag
    cases hc : k.node.construct <;> first | rfl | simp [hc, exit?] at hx
  by_cases hn : n.tag = .caseLabel
  · have hbraced : n.construct.braced = true := by
      unfold Node.tag at hn
      cases hc : n.construct <;> first | rfl | simp [hc, Construct.tag] at hn
    simp [hn, hbraced]
  · have hfills := h.fills hn k hk hj
    cases hb : n.construct.braced with
    | true =>
      have := hfills.2 hb
      simp only [hn, Bool.true_eq_false, ne_eq, not_false_eq_true, true_and, false_iff]
      omega
    | false =>
      have : ¬ k.node.span.stop < n.span.stop := fun hlt => by simp [hfills.1 hlt] at hb
      simp only [hn, ne_eq, not_false_eq_true, true_and, true_iff]
      omega

namespace Firing

variable {t : Tree} {whole f f' g c b r : Forest Entry} {e v : Entry} {d k : Nat} {scopes armed armed' : List Placed}
  {tokens : List Token}

theorem brace_of_mem_copiesOf : ∀ x ∈ copiesOf t false ss, x.brace = false := by
  induction ss with
  | nil => simp [copiesOf]
  | cons s ss ih => exact forall_mem_cons.2 ⟨rfl, ih⟩

theorem lead_of_mem_copiesOf : ∀ x ∈ copiesOf t brace ss, x.lead? = none := by
  induction ss generalizing brace with
  | nil => simp [copiesOf]
  | cons s ss ih => exact forall_mem_cons.2 ⟨rfl, ih⟩

theorem Splice.exists_leaf {lead? : Option String} (h : Splice e b { braceBefore := brace } lead? g)
    (k : Nat) : ∃ x, g.ranged k = leaves [x] ∧ Copy.Shows ⟨e.node.span, brace, lead?⟩ x := by
  cases h with
  | mk n =>
    refine ⟨_, by simp [tree, Forest.ranged, Node.showing, Entry.added, leaves]; rfl, rfl, rfl, rfl, ?_⟩
    cases brace <;> rfl

theorem Copies.exists_leaves {q? : Option Slot} (hw : t.Holds q? whole)
    (h : Copies t whole brace ss c) (k : Nat) :
    ∃ rs, c.ranged k = leaves rs ∧ List.Forall₂ Copy.Shows (copiesOf t brace ss) rs := by
  induction h with
  | nil => exact ⟨[], rfl, .nil⟩
  | @cons _ s _ op _ _ _ hmem hop hg _ ih =>
    have hspan : t.span (operation t s) = op.node.span := hop ▸ hw.span_eq ((members_sublist hmem).subset (by simp))
    obtain ⟨x, hx, hshows⟩ := hg.exists_leaf k
    obtain ⟨rs, hrs, hall⟩ := ih
    refine ⟨x :: rs, ?_, ?_⟩
    · rw [ranged_append, hx, hrs]
      rfl
    · rw [copiesOf, hspan]
      exact .cons hshows hall

theorem unbraced_plain (h : f.Every fun e _ => e.Plain) (k : Nat) : (f.ranged k).Unbraced := by
  have hshown : ∀ x ∈ (f.ranged k).members, x.spliced = false ∧ x.braces = [] := by
    intro x hx
    obtain ⟨e, he, k', hs⟩ := exists_shows hx
    obtain ⟨_, hplain⟩ := h.exists_below he
    have hbraces : e.node.actions.braces = [] := by rw [hplain.actions_eq]; rfl
    rcases hs with hs | hs
    · cases hs with
      | omitted hs | spliced hs | replaced hs => simp [hplain.status_eq] at hs
    · cases hs
      exact ⟨rfl, hbraces⟩
  exact ⟨(tame_of_plain (·.braces = []) rfl h).bareAround, fun x hx => (hshown x hx).1, fun x hx => (hshown x hx).2⟩

theorem unbraced_replaced (h : v.Plain) (text : String) (k : Nat) :
    ((tree (v.mark (.replaced text)) b).ranged k).Unbraced := by
  have hranged : (tree (v.mark (.replaced text)) b).ranged k =
      tree { Range.ofNode (v.mark (.replaced text)).node k with actions := v.node.actions } .nil := by
    simp [tree, Forest.ranged, Node.showing, Entry.mark, Mark.apply]
  have hbraces : v.node.actions.braces = [] := by rw [h.actions_eq]; rfl
  rw [hranged]
  exact ⟨every_tree.2 ⟨fun hne => absurd rfl hne, trivial⟩, forall_mem_singleton.2 rfl,
    forall_mem_singleton.2 hbraces⟩

theorem exists_leaves_removed (e : Entry) (b r : Forest Entry) (k : Nat) :
    ∃ rs, (Forest.node (e.mark .removed) b r).ranged k = leaves rs ++ r.ranged k ∧ rs.flatMap Range.braces = [] := by
  have hs := (e.mark .removed).node.shows k
  rw [Forest.ranged]
  generalize (e.mark .removed).node.showing k = w at hs
  cases hs with
  | gone => exact ⟨[], rfl, rfl⟩
  | omitted => exact ⟨[_], rfl, rfl⟩
  | spliced hs | replaced hs => cases hs
  | through hs | around hs => rcases hs with hs | ⟨hs, -⟩ <;> cases hs

theorem ranged_jump (he : e.Plain) (hlt : e.node.span.start < e.node.span.stop) :
    (Forest.node e b r).ranged k = .node (Range.ofNode e.node k) (b.ranged (k + 1)) (r.ranged k) := by
  have hempty : e.node.span.isEmpty = false := by simpa [Span.isEmpty] using hlt
  simp [Forest.ranged, Node.Stays.showing_eq (.inl he.status_eq), Node.kept, hempty, he.actions_eq, Range.ofNode]

theorem ranged_closed (he : e.Plain) (hlt : e.node.span.start < e.node.span.stop) :
    (Forest.node (e.mark .closed) b r).ranged k =
      .node { Range.ofNode e.node k with actions := { braceAfter := true } } (b.ranged (k + 1)) (r.ranged k) := by
  have hempty : e.node.span.isEmpty = false := by simpa [Span.isEmpty] using hlt
  have hstays : (e.mark .closed).node.Stays := .inr ⟨rfl, congrArg Option.isSome he.replacement?_eq⟩
  simp only [Forest.ranged, hstays.showing_eq, Node.kept]
  simp [Entry.mark, Mark.apply, hempty, he.actions_eq, Actions.union, Range.ofNode, Node.tag]

/-! ## What is planned is what is cut -/

theorem needsBraces_eq_false {s : Slot} (h : editsFor (plan t).edits.toList s = []) : t.needsBraces s = false := by
  simp [Tree.needsBraces, Tree.copiesBefore, h]

theorem filter_needsBraces (h : ∀ s ∈ ss, editsFor (plan t).edits.toList s = []) :
    ss.filter t.needsBraces = [] :=
  filter_eq_nil_iff.2 fun s hs => by simp [needsBraces_eq_false (h s hs)]

section Jump

variable {exit : Exit} {jump : Slot} (hx : exit? (t.construct jump) = some exit) (hne : left t scopes armed exit ≠ [])
  (hp : editsFor (plan t).edits.toList jump = Plan.jumpEdits t { scopes, armed } jump)

include hx hne hp

theorem copiesBefore_jump : t.copiesBefore jump =
    ((Plan.boundBy? t { scopes, armed } jump exit).toList.map fun v => ⟨t.span v.1, true, some (declares v.2)⟩) ++
      copiesOf t (Plan.bracesAt t { scopes, armed } jump exit && (Plan.boundBy? t { scopes, armed } jump exit).isNone)
        (left t scopes armed exit) := by
  rw [Tree.copiesBefore, hp, filterMap_copy_jumpEdits hx hne]

theorem needsBraces_jump : t.needsBraces jump = Plan.bracesAt t { scopes, armed } jump exit := by
  obtain ⟨s, ss, hleft⟩ := exists_cons_of_ne_nil hne
  have hlead : ∀ brace, (copiesOf t brace ss).any (·.lead?.isSome) = false := fun brace =>
    any_eq_false.2 fun x hmem => by simp [lead_of_mem_copiesOf x hmem]
  rw [Tree.needsBraces, copiesBefore_jump hx hne hp, hleft, hx, Plan.bracesAt]
  cases Plan.boundBy? t { scopes, armed } jump exit with
  | none => simp [copiesOf, hlead]
  | some v => simp [copiesOf]

end Jump

theorem arranges_own {js jumps : List Slot} {y : Forest Range} {b' r' : Forest Entry} (he : e.Plain)
    (hb : ∀ {x : Range} {jumps : List Slot} {y : Forest Range} (k : Nat), Arranges t.Encloses x jumps y →
      Arranges t.Encloses x (js ++ jumps) (b'.ranged k ++ y))
    (hr : Arranges t.Encloses x jumps (r'.ranged k ++ y)) :
    Arranges t.Encloses x (js ++ jumps) ((Forest.node e b' r').ranged k ++ y) := by
  have hown : ({ Range.ofNode e.node k with actions := e.node.actions } : Range).braces = [] := by
    rw [Range.braces, he.actions_eq]
    rfl
  rw [Forest.ranged, Node.Stays.showing_eq (.inl he.status_eq), Node.kept]
  cases e.node.span.isEmpty with
  | true =>
    rw [if_pos rfl, append_assoc]
    exact hb k hr
  | false =>
    have hbelow := hb (k + 1) (arranges_nil hown)
    rw [append_nil, List.append_nil] at hbelow
    exact .node (hbelow.cutTree (fun _ _ h => h.braces_eq) hown) hr

theorem arranges_closed {jumps : List Slot} {y : Forest Range} {b' r' : Forest Entry} (he : e.Plain)
    (hlt : e.node.span.start < e.node.span.stop) (hspan : t.span e.slot = e.node.span)
    (hb : (b'.ranged (k + 1)).Unbraced) (hin : b'.InOrder e.node.span.start e.node.span.stop) {copy : Copy}
    {copies : List Copy} {rs : List Range} (hcopies : t.copiesBefore e.slot = copy :: copies)
    (hshows : List.Forall₂ Copy.Shows (copy :: copies) rs) (hbrace : copy.brace = true)
    (hrest : ∀ c ∈ copies, c.brace = false) (hr : Arranges t.Encloses x jumps (r'.ranged k ++ y)) :
    Arranges t.Encloses x (e.slot :: jumps)
      (Forest.leaves rs ++ ((Forest.node (e.mark .closed) b' r').ranged k ++ y)) := by
  have hclosed := hb.closed (r := { Range.ofNode e.node k with actions := { braceAfter := true } })
    ⟨rfl, rfl, he.lead?_eq, he.replacement?_eq⟩ hin.nests
  have hne : rs ≠ [] := by
    rintro rfl
    cases hshows
  rw [ranged_closed he hlt, node_append]
  refine .jump hne (Copy.forall_spliced hshows) rfl (Copy.encloses hcopies hshows hbrace hrest ?_) hr
  rw [hspan]
  exact hclosed

/-- The cuts of a resolved forest have braces around the jumps that need them, and nowhere else. -/
theorem Resolves.arranges {p? q? : Option Slot} {lo hi : Nat} {jumps : List Slot} {y : Forest Range}
    (h : Resolves t whole d scopes armed f armed' f') (hw : t.Holds q? whole) (ht : t.Holds p? f)
    (hs : Shaped tokens f) (hx : PlainExits t f) (hin : f.Every fun e b => Spanned lo hi e.node.span b)
    (hp : Planned t d scopes armed f) (k : Nat) (hy : Arranges t.Encloses x jumps y) :
    Arranges t.Encloses x (f.slots.filter t.needsBraces ++ jumps) (f'.ranged k ++ y) := by
  induction h generalizing p? x jumps y k with
  | nil => exact hy
  | @deferred _ _ _ _ e b r r' hd _ ih =>
    obtain ⟨-, -, hs⟩ := hs
    obtain ⟨hnone, hp⟩ := hp.deferred hd
    have hr := ih ht.2.2 hs hx.2.2 hin.2.2 hp k hy
    obtain ⟨rs, hrs, hbraces⟩ := exists_leaves_removed e (b.map (.mark .removed)) r' k
    rw [← tree_append, slots_append, filter_append, filter_needsBraces hnone, List.nil_append, hrs, append_assoc]
    exact .leaves hbraces hr
  | @opens _ _ _ _ _ e b b' c r r' ho hinner hc _ ihb ihr =>
    obtain ⟨⟨he, -⟩, hsb, hsr⟩ := hs
    obtain ⟨hnone, hpb, hpr⟩ := hp.opens ho
    rw [← hinner.armed_eq hx.2.1] at hpr
    rw [slots_node, filter_cons_of_neg (by simp [needsBraces_eq_false hnone]), filter_append,
      List.append_assoc]
    refine arranges_own he (fun k hy => ?_) (ihr ht.2.2 hsr hx.2.2 hin.2.2 hpr k hy)
    obtain ⟨rs, hrs, hshows⟩ := hc.exists_leaves hw k
    rw [ranged_append, append_assoc, hrs]
    exact ihb ht.2.1 hsb hx.2.1 hin.2.1 hpb k (.leaves (Copy.braces_eq_nil hshows brace_of_mem_copiesOf) hy)
  | @passes _ _ _ _ _ e b b' r r' hd ho hn hinner _ ihb ihr =>
    obtain ⟨⟨he, -⟩, hsb, hsr⟩ := hs
    obtain ⟨hnone, hpb, hpr⟩ := hp.passes hd ho
    rw [jumpEdits_of_left hn] at hnone
    rw [← hinner.armed_eq hx.2.1] at hpr
    rw [slots_node, filter_cons_of_neg (by simp [needsBraces_eq_false hnone]), filter_append,
      List.append_assoc]
    exact arranges_own he (fun k hy => ihb ht.2.1 hsb hx.2.1 hin.2.1 hpb k hy) (ihr ht.2.2 hsr hx.2.2 hin.2.2 hpr k hy)
  | @leaves _ scopes armed _ exit e b c r r' hexit hne hnone hc _ ih =>
    obtain ⟨⟨he, hshape, -⟩, hsb, hsr⟩ := hs
    obtain ⟨hd, ho⟩ := exit?_passes (t := t) (s := e.slot) (by rw [hexit]; rfl)
    obtain ⟨hfor, hpb, hpr⟩ := hp.passes hd ho
    rw [edits_operands (hx.1 (by simp [hexit])).1] at hpr
    have hlt := Shape.lt_of_exit hshape (by rw [← ht.construct_eq (e := e) (by simp), hexit]; rfl)
    have hplain : b.Every fun e _ => e.Plain := hsb.mono fun _ _ h => h.1
    have hbelow : b.slots.filter t.needsBraces = [] := filter_needsBraces fun s hs => by
      rw [hpb.2 s hs, edits_operands (hx.1 (by simp [hexit])).1]
      rfl
    have hinb := hin.1.below (Span.ne_absent (Nat.zero_lt_of_lt hlt))
    have hr := ih ht.2.2 hsr hx.2.2 hin.2.2 hpr k hy
    have hneeds := needsBraces_jump hexit hne hfor
    have hcopies := copiesBefore_jump hexit hne hfor
    obtain ⟨rs, hrs, hshows⟩ := hc.exists_leaves hw k
    rw [hnone, Option.isNone_none, Bool.and_true, Option.toList_none, List.map_nil, List.nil_append] at hcopies
    rw [slots_node, ranged_append, append_assoc, hrs]
    cases hbraces : Plan.bracesAt t { scopes, armed } e.slot exit with
    | false =>
      rw [hbraces] at hneeds hshows
      rw [filter_cons_of_neg (by simp [hneeds]), filter_append, hbelow, List.nil_append,
        if_neg Bool.false_ne_true, ranged_jump he hlt, node_append]
      have htext : (cutTree (Range.ofNode e.node k) (b.ranged (k + 1))).cuts.flatMap Range.braces = [] :=
        (unbraced_plain hplain (k + 1)).cutTree rfl fun _ => ⟨rfl, rfl, he.lead?_eq, he.replacement?_eq⟩
      have hjump := Arranges.node (.of_unbraced htext) hr
      exact .leaves (Copy.braces_eq_nil hshows brace_of_mem_copiesOf) hjump
    | true =>
      rw [hbraces] at hneeds hshows hcopies
      obtain ⟨s, ss, hleft⟩ := exists_cons_of_ne_nil hne
      rw [hleft, copiesOf] at hcopies hshows
      rw [filter_cons_of_pos hneeds, filter_append, hbelow, List.nil_append, if_pos rfl]
      exact arranges_closed he hlt (ht.span_eq (by simp)) (unbraced_plain hplain (k + 1))
        (hinb.inOrder (hplain.mono fun _ _ h => h.inPlace)) hcopies hshows rfl brace_of_mem_copiesOf hr
  | @stores _ scopes armed _ type e v b g c r r' hc' hne hsome hg hc _ ih =>
    obtain ⟨⟨he, hshape, -⟩, ⟨⟨hv, -⟩, hsb, -⟩, hsr⟩ := hs
    have hexit : exit? (t.construct e.slot) = some .returned := by rw [hc']; rfl
    obtain ⟨hd, ho⟩ := exit?_passes (t := t) (s := e.slot) (by rw [hexit]; rfl)
    obtain ⟨hfor, hpb, hpr⟩ := hp.passes hd ho
    rw [edits_operands (hx.1 (by simp [hexit])).1] at hpr
    have hconstruct : e.node.construct = .returned (some v.slot) := ht.construct_eq (e := e) (by simp) ▸ hc'
    have hlt := Shape.lt_of_exit hshape (by rw [hconstruct]; rfl)
    have hbelow : (tree v b).slots.filter t.needsBraces = [] := filter_needsBraces fun s hs => by
      rw [hpb.2 s hs, edits_operands (hx.1 (by simp [hexit])).1]
      rfl
    have hinb := hin.1.below (Span.ne_absent (Nat.zero_lt_of_lt hlt))
    have hr := ih ht.2.2 hsr hx.2.2 hin.2.2 hpr k hy
    have hneeds := needsBraces_jump hexit hne hfor
    have hcopies := copiesBefore_jump hexit hne hfor
    obtain ⟨-, -, hbraces⟩ := boundBy?_eq_some hexit hsome
    obtain ⟨z, hz, hvalue⟩ := hg.exists_leaf k
    obtain ⟨rs, hrs, hshows⟩ := hc.exists_leaves hw k
    rw [hsome, Option.isNone_some, Bool.and_false, Option.toList_some, map_singleton, singleton_append,
      ht.span_eq (e := v) (by simp)] at hcopies
    rw [slots_node, filter_cons_of_pos (hneeds.trans hbraces), filter_append, hbelow, List.nil_append,
      ranged_append, ranged_append, hz, hrs, append_assoc, append_assoc, ← append_assoc, ← leaves_append]
    refine arranges_closed he hlt (ht.span_eq (by simp)) (unbraced_replaced hv storedValue (k + 1)) ?_ hcopies
      (.cons hvalue hshows) rfl brace_of_mem_copiesOf hr
    obtain ⟨hlo, hk, hhi⟩ := (within_tree (Shape.present_of_returned hshape hconstruct)).1 hinb
    refine (inOrder_inPlace (e := v.mark (.replaced storedValue)) (fun h => by cases h)).2 (.inr ⟨hlo, ?_, hhi⟩)
    exact hk.inOrder (hsb.mono fun _ _ h => h.1.inPlace)

end Firing

/-! ## Trees of sources -/

namespace Tree.Built

variable {t : Tree} {source : List UInt8} {path : Path} {tokens : List Token} {f f' : Forest Entry}
  {armed : List Placed}

theorem planned (h : t.Built source path tokens f) :
    editsFor (plan t).edits.toList .root = [] ∧ Planned t 1 [] [] f := by
  have hn := h.stands.nodup
  rw [slots_tree, nodup_cons] at hn
  rw [Planned, h.edits_functions]
  exact ⟨editsFor_edits hn.1, hn.2, fun _ _ => rfl⟩

theorem arranged_cuts (h : t.Built source path tokens f)
    (hr : Resolves t (whole source path f) 1 [] [] f armed f')
    (hs : (resolve t).tree.Stands none 0 (whole source path f')) :
    Arranged t.Encloses (t.reachable.filter t.needsBraces) (resolve t).tree.cuts.cuts := by
  obtain ⟨hroot, hp⟩ := h.planned
  have hin := h.within.spanned
  have hfunctions {x : Range} (hx : x.braces = []) (k : Nat) :
      Arranges t.Encloses x (f.slots.filter t.needsBraces) (f'.ranged k) := by
    have harranges := hr.arranges h.stands.holds h.stands.holds.2.1 h.shaped.2.1 h.plainExits.2.1 hin hp k
      (arranges_nil hx)
    rwa [List.append_nil, append_nil] at harranges
  rw [Presentable.cuts_eq hs rfl, h.reachable_eq, whole, slots_tree, filter_cons_of_neg
    (by simp [Entry.fresh, needsBraces_eq_false hroot]), tree, Forest.ranged,
      Node.Stays.showing_eq (.inl rfl), Node.kept]
  cases hempty : (Entry.fresh .root (.unit path) ⟨0, source.length⟩).node.span.isEmpty with
  | true =>
    -- An empty source has neither functions nor cuts.
    obtain rfl := h.eq_nil (by simpa [Span.isEmpty] using hempty)
    cases hr
    exact .nil
  | false =>
    have hcuts := (hfunctions (x := Presentable.whole (.fresh .root (.unit path) ⟨0, source.length⟩)) rfl 1).cutTree
      (fun _ _ h => h.braces_eq) rfl
    have := hcuts.append .nil
    rwa [List.append_nil] at this

theorem bareBodies (h : t.Built source path tokens f) : t.BareBodies := by
  intro parent hparent s hs hx
  obtain ⟨e, b, rfl, hm⟩ := h.exists_member hparent
  rw [hm.children_eq] at hs
  refine ⟨hm.holds.parent_root hs, ?_⟩
  obtain ⟨k, hk, rfl⟩ := mem_map.1 hs
  rw [hm.holds.construct_eq (mem_members_of_mem_roots hk)] at hx
  rw [hm.construct_eq, hm.tag_eq, hm.span_eq, hm.span_root hk]
  exact hm.shape.braced_eq_false_iff hk hx (hm.within.stop_le (mem_members_of_mem_roots hk))

end Tree.Built

open Assembly Tree.Built

/-- Braces that are added come in pairs, each around one jump and what is brought in before it, and around just the
jumps that need them. Where a body has no braces is read off the source. -/
theorem braced_of_build {source : List UInt8} {path : Path} {t : Tree} (h : ((start path).build source).1 = .ok t) :
    Arranged t.Encloses (t.reachable.filter t.needsBraces) (resolve t).tree.cuts.cuts ∧
      (resolve t).tree.cuts.cuts.flatMap Range.braces =
        ((t.reachable.filter t.needsBraces).flatMap fun _ => [.opening, .closing]) ∧
      t.BareBodies := by
  obtain ⟨tokens, f, hb⟩ := exists_built h
  obtain ⟨armed, f', hr, hs, -⟩ := exists_resolves hb
  have harranged := hb.arranged_cuts hr hs
  exact ⟨harranged, harranged.braces_eq fun _ _ h => h.braces_eq, hb.bareBodies⟩

/-- Jumps with and without braces, and with a value that is stored. -/
def jumpsOfAllSorts : List UInt8 :=
  Utf8.encode "int f(int x)\x7bdefer g();if(x)return 1;while(x)\x7bif(x)break;defer h(x);continue;\x7dreturn k(x);\x7d"

set_option maxRecDepth 100000 in
theorem braced_jumpsOfAllSorts : ∃ t, ((start []).build jumpsOfAllSorts).1 = .ok t ∧
    (t.reachable.filter fun s => (exit? (t.construct s)).isSome).length = 4 ∧
      (t.reachable.filter t.needsBraces).map t.span = [⟨28, 37⟩, ⟨78, 90⟩] ∧
        Arranged t.Encloses (t.reachable.filter t.needsBraces) (resolve t).tree.cuts.cuts ∧
          (resolve t).tree.cuts.cuts.flatMap Range.braces = [.opening, .closing, .opening, .closing] ∧
            t.BareBodies := by
  obtain ⟨t, ht, hcheck⟩ := exists_tree_of_check [] jumpsOfAllSorts
    (fun t => (t.reachable.filter fun s => (exit? (t.construct s)).isSome).length = 4 ∧
      (t.reachable.filter t.needsBraces).map t.span = [⟨28, 37⟩, ⟨78, 90⟩]) (by decide +kernel)
  obtain ⟨hjumps, hspans⟩ := of_decide_eq_true hcheck
  obtain ⟨harranged, hbraces, hbare⟩ := braced_of_build ht
  have hpairs : (t.reachable.filter t.needsBraces).flatMap (fun _ => [Brace.opening, .closing]) =
      ((t.reachable.filter t.needsBraces).map t.span).flatMap fun _ => [.opening, .closing] := by
    rw [flatMap_map]
  refine ⟨t, ht, hjumps, hspans, harranged, ?_, hbare⟩
  rw [hbraces, hpairs, hspans]
  rfl

end Deferral
