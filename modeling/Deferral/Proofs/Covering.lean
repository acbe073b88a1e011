import Deferral.Proofs.Marking
import Deferral.Proofs.SpanNesting

/-!
# Lowered text covers the source

Cuts at their own place in a resolved tree are the source, in order and without gap. Just the outermost deferred
statements are left out, and just the values that are stored are replaced by the variable that holds them; all else is
copied, at most with a brace after it (`covered_of_build`).
-/

namespace Deferral

open Forest Range Firing

/-! ## Sorts of cuts -/

/-- A cut of a resolved tree: text that is brought in, left out, replaced, or copied. -/
inductive Range.Regular (c : Range) : Prop
  | spliced (hs : c.spliced = true)
  | omitted (ho : c.actions.omitted = true) (hn : c.replacement? = none)
  | replaced (ha : c.actions = {}) (hl : c.lead? = none) (hr : c.replacement?.isSome = true)
  | copied (ha : Closing c.actions) (hl : c.lead? = none) (hn : c.replacement? = none)

theorem requests_closing : Requests Closing where
  none := .inl rfl
  leading := by rintro a (rfl | rfl) <;> exact .inl rfl
  trailing := by rintro a (rfl | rfl) <;> first | exact .inl rfl | exact .inr rfl
  union := by rintro a b (rfl | rfl) (rfl | rfl) <;> first | exact .inl rfl | exact .inr rfl

section Settled

variable {n k : Nat} {f : Forest Entry}

theorem Forest.tame_of_settled {A : Actions → Prop} (hA : ∀ a, Closing a → A a) (h : ∀ e ∈ f.members, Settled n e) :
    f.Tame A :=
  every_of_members fun e he hs =>
    have hstays := (h e he).stays hs
    ⟨hA _ hstays.1, hstays.2⟩

theorem Forest.regular_ranged (h : ∀ e ∈ f.members, Settled n e) : ∀ r ∈ (f.ranged k).members, r.Regular := by
  intro r hmem
  obtain ⟨e, he, k', hs⟩ := exists_shows hmem
  have he := h e he
  rcases hs with hs | hs
  · cases hs with
    | omitted hs => exact .omitted rfl (he.removed hs)
    | spliced => exact .spliced rfl
    | replaced _ hr => exact .replaced (he.replaced hr).1 (he.replaced hr).2 hr
  · cases hs with
    | around hs =>
      obtain ⟨ha, hl, hn⟩ := he.stays hs
      exact .copied ha hl hn

theorem Forest.regular_cutAll (h : ∀ e ∈ f.members, Settled n e) : ∀ c ∈ (f.ranged k).cutAll.cuts, c.Regular := by
  refine forall_cutAll requests_closing (fun r hr => .copied hr.requests hr.lead hr.own) (fun r d hr => ?_)
    (tame_of_settled (fun _ ha => ha) h).bareAround (regular_ranged h)
  cases hr with
  | spliced hs => exact .spliced hs
  | omitted ho hn => exact .omitted ho hn
  | replaced ha hl hr => exact .replaced ha hl hr
  | copied ha hl hn => exact .copied ha hl hn

theorem Forest.viewed_cutAll {β : Type} {v : Range → List β} (hv : Range.View Closing v)
    (h : ∀ e ∈ f.members, Settled n e) : (f.ranged k).cutAll.cuts.flatMap v = viewed v k f :=
  flatMap_cutAll requests_closing hv (tame_of_settled (fun _ ha => ha) h).bareAround

end Settled

/-! ## Marks of cuts -/

section Marks

variable {cuts : List Range} {source : List UInt8} {lo hi : Nat}

theorem deletions_marks (cuts : List Range) :
    deletions (cuts.flatMap mark) = (cuts.filter fun c => !c.spliced && c.actions.omitted).map span := by
  induction cuts with
  | nil => rfl
  | cons c cs ih =>
    rw [List.flatMap_cons, deletions_append, ih, List.filter_cons, mark]
    cases c.spliced <;> cases c.actions.omitted <;> cases c.replacement? <;> rfl

theorem replacements_marks (h : ∀ c ∈ cuts, c.Regular) :
    (replacements (cuts.flatMap mark)).map (fun m => (m.1, Utf8.encode m.2)) =
      (cuts.filter fun c => !c.spliced && c.replacement?.isSome).map fun c => (c.span, c.written source) := by
  induction cuts with
  | nil => rfl
  | cons c cs ih =>
    obtain ⟨hc, hcs⟩ := List.forall_mem_cons.1 h
    rw [List.flatMap_cons, replacements_append, List.map_append, ih hcs, List.filter_cons]
    cases hs : c.spliced with
    | true => simp [mark, hs]
    | false =>
      cases hc with
      | spliced h => simp [h] at hs
      | omitted ho hn => simp [mark, hs, ho, hn]
      | replaced ha hl hr =>
        obtain ⟨text, ht⟩ := Option.isSome_iff_exists.1 hr
        simp [mark, hs, ha, ht, written, pieces, opening, closing, hl, Range.text, Utf8.encode]
      | copied ha _ hn => simp [mark, hs, ha.shown, hn]

theorem Range.Regular.written_eq {c : Range} (h : c.Regular) (hs : c.spliced = false) (ho : c.actions.omitted = false)
    (hn : c.replacement? = none) : c.written source = sourceText source c.start c.stop ∨
      c.written source = sourceText source c.start c.stop ++ Utf8.encode "\n\x7d" := by
  cases h with
  | spliced h => simp [h] at hs
  | omitted h => simp [h] at ho
  | replaced _ _ hr => simp [hn] at hr
  | copied ha hl =>
    have hbrace : Utf8.encode "\n\x7d" = ['\n'.toUInt8, '\x7d'.toUInt8] := by decide +kernel
    rw [written_shown ho, hbrace]
    rcases ha with ha | ha <;> simp [opening, closing, ha, hl, Range.text, hn, Utf8.encode]

theorem mark_eq_or (c : Range) : c.mark = [] ∨ ∃ text?, c.mark = [(c.span, text?)] := by
  unfold mark
  split
  · exact .inl rfl
  · split
    · exact .inr ⟨_, rfl⟩
    · split
      · exact .inr ⟨_, rfl⟩
      · exact .inl rfl

theorem Contiguous.marks (h : Contiguous lo hi cuts) :
    (∀ m ∈ cuts.flatMap mark, lo ≤ m.1.start ∧ m.1.start ≤ m.1.stop ∧ m.1.stop ≤ hi) ∧
      (cuts.flatMap mark).Pairwise fun a b => a.1.stop ≤ b.1.start := by
  induction cuts generalizing lo with
  | nil => exact ⟨nofun, .nil⟩
  | cons c cs ih =>
    rw [List.flatMap_cons]
    cases hs : c.spliced with
    | true =>
      have hm : c.mark = [] := by simp [mark, hs]
      rw [hm]
      exact ih ((contiguous_spliced hs).1 h)
    | false =>
      obtain ⟨rfl, hle, hcs⟩ := (contiguous_inPlace hs).1 h
      obtain ⟨hin, hapart⟩ := ih hcs
      have hlater : ∀ m ∈ cs.flatMap mark, c.start ≤ m.1.start ∧ m.1.start ≤ m.1.stop ∧ m.1.stop ≤ hi := fun m hm =>
        ⟨hle.trans (hin m hm).1, (hin m hm).2⟩
      rcases mark_eq_or c with hm | ⟨text?, hm⟩
      · rw [hm]
        exact ⟨hlater, hapart⟩
      · rw [hm, List.singleton_append]
        exact ⟨List.forall_mem_cons.2 ⟨⟨le_rfl, hle, hcs.le⟩, hlater⟩,
          List.pairwise_cons.2 ⟨fun m hm => (hin m hm).1, hapart⟩⟩

theorem Contiguous.marks_within (h : Contiguous lo hi cuts) :
    ∀ m ∈ cuts.flatMap mark, lo ≤ m.1.start ∧ m.1.start ≤ m.1.stop ∧ m.1.stop ≤ hi := h.marks.1

theorem Contiguous.marks_apart (h : Contiguous lo hi cuts) :
    (cuts.flatMap mark).Pairwise fun a b => a.1.stop ≤ b.1.start := h.marks.2

end Marks

/-! ## Coverage -/

/-- The deferred statements that are below no other, in the order of the source. -/
def Tree.outerDefers (t : Tree) : List Slot :=
  t.walk .root (fun s _ found => if t.tag s = .deferred then (found ++ [s], false) else (found, true)) []

/-- The values that resolving stores, with their types, in the order of the source. -/
def Tree.boundValues (t : Tree) : List (Slot × String) := (plan t).edits.toList.filterMap Edit.bound?

/-- The source is all there in the text of `r`, the tree `t` resolved. -/
structure Tree.Covered (source : List UInt8) (t r : Tree) : Prop where
  /-- Cuts in place go from the start of the source to its end, each from where the last one ended. -/
  contiguous : Contiguous 0 source.length r.cuts.cuts
  empty : source = [] → r.cuts.cuts = []
  omitted : (r.cuts.cuts.filter fun c => !c.spliced && c.actions.omitted).map Range.span = t.outerDefers.map t.span
  replaced : ((r.cuts.cuts.filter fun c => !c.spliced && c.replacement?.isSome).map fun c =>
    (c.span, c.written source)) =
    t.boundValues.map fun v => (t.span v.1, Utf8.encode storedValue)
  /-- All other text is copied, at most with a brace after it. -/
  copied : ∀ c ∈ r.cuts.cuts, c.spliced = false → c.actions.omitted = false → c.replacement? = none →
    c.written source = sourceText source c.start c.stop ∨
      c.written source = sourceText source c.start c.stop ++ Utf8.encode "\n\x7d"
  /-- Writing does not fail, and writes all cuts. -/
  wrote : Wrote (r.emit (some (.file (.bytes source.toArray)))) (r.cuts.cuts.flatMap (written source))
  /-- Without what was made up, the output is the source, but for deferred statements and stored values. -/
  rewritten : ∃ marks, deletions marks = t.outerDefers.map t.span ∧
    replacements marks = (t.boundValues.map fun v => (t.span v.1, storedValue)) ∧
    (marks.Pairwise fun a b => a.1.stop ≤ b.1.start) ∧
    erased (r.cuts.cuts.flatMap (pieces source)) = rewrite source 0 source.length marks

section Outer

variable {t : Tree} {f : Forest Entry}

theorem visit_outerDefers (d : Nat) (found : List Slot) :
    Tree.visitForest (fun s _ found => if t.tag s = .deferred then (found ++ [s], false) else (found, true)) d f found =
      found ++ (outer t f).filter (t.tag · = .deferred) := by
  induction f generalizing d found with
  | nil => simp [Tree.visitForest, outer]
  | node e b r ihb ihr =>
    by_cases h : t.tag e.slot = .deferred
    · simp [Tree.visitForest, h, outer_deferred h, ihr]
    · simp [Tree.visitForest, h, outer_passes h, ihb, ihr]

end Outer

namespace Tree.Built

variable {t : Tree} {source : List UInt8} {path : Path} {tokens : List Token} {f f' : Forest Entry}
  {armed : List Placed}

section

variable (h : t.Built source path tokens f)
include h

theorem tag_root : t.tag .root = .unit := congrArg Construct.tag h.construct_root

theorem outerDefers_eq :
    t.outerDefers = (outer t f).filter (t.tag · = .deferred) := by
  have hwalk : t.outerDefers = (outer t (whole source path f)).filter (t.tag · = .deferred) :=
    (walk_eq_visit _ h.stands []).trans (visit_outerDefers 0 [])
  rw [hwalk, whole, tree, outer_passes (by simp [h.tag_root])]
  simp [h.tag_root, outer]

theorem edits_functions : (plan t).edits.toList = (edits t 1 [] [] f).1 := by
  have hjump : Plan.jumpEdits t { scopes := [], armed := [] } .root = [] := by
    rw [Plan.jumpEdits, h.construct_root]; rfl
  rw [edits_built h, whole, tree, edits_passes (by simp [h.tag_root]) (by simp [h.tag_root, opens])]
  simp [Entry.fresh, hjump, edits]

theorem boundValues_eq :
    t.boundValues = (edits t 1 [] [] f).1.filterMap Edit.bound? := by
  rw [Tree.boundValues, h.edits_functions]

end

section Resolved

variable {o : Tree} (h : t.Built source path tokens f) (hr : Resolves t (whole source path f) 1 [] [] f armed f')
  (hs : o.Stands none 0 (whole source path f'))

include h hr

theorem settled_resolved : ∀ e ∈ (whole source path f').members, Settled source.length e := by
  have hplain : ∀ e ∈ f.members, e.Plain ∧ e.node.span.stop ≤ source.length := by
    intro e he
    obtain ⟨_, hplain, -⟩ := h.shaped.2.1.exists_below he
    exact ⟨hplain, h.within.stop_le he⟩
  have hwhole : ∀ e ∈ (whole source path f).members, e.node.span.stop ≤ source.length := by
    simp only [whole, members_tree, List.forall_mem_cons]
    exact ⟨le_rfl, fun e he => (hplain e he).2⟩
  have hsub : f.subtrees ⊆ (whole source path f).subtrees := by simp [whole, tree, subtrees]
  simp only [whole, members_tree, List.forall_mem_cons]
  exact ⟨settled_plain rfl, hr.settled hsub hwhole fun e he => (hplain e he).1⟩

theorem presentable_resolved : Presentable source.length (.fresh .root (.unit path) ⟨0, source.length⟩) f' where
  stays := .inl rfl
  span := rfl
  empty hs := by
    obtain rfl := h.eq_nil hs
    cases hr
    rfl
  inOrder := hr.inOrder h.stands.holds.2.1 h.shaped.2.1 h.within
  tame := tame_of_settled (fun _ => Closing.shown) (h.settled_resolved hr)
  splices := fun e he => (h.settled_resolved hr e he).added

include hs

theorem regular_cuts : ∀ c ∈ o.cuts.cuts, c.Regular := by
  rw [Presentable.cuts_eq hs rfl]
  exact regular_cutAll (h.settled_resolved hr)

theorem marks_cuts : deletions (o.cuts.cuts.flatMap mark) = t.outerDefers.map t.span ∧
    replacements (o.cuts.cuts.flatMap mark) = t.boundValues.map fun v => (t.span v.1, storedValue) := by
  have hmarks : o.cuts.cuts.flatMap mark = marksOf 0 (whole source path f') := by
    rw [Presentable.cuts_eq hs rfl]
    exact viewed_cutAll view_mark (h.settled_resolved hr)
  obtain ⟨k, hk⟩ := marksOf_own (k := 0) (e := .fresh .root (.unit path) ⟨0, source.length⟩) (b := f') (r := .nil) rfl
  rw [hmarks, whole, tree, hk, marksOf_nil, List.append_nil, h.outerDefers_eq, h.boundValues_eq]
  exact hr.marks h.stands.holds.2.1 h.shaped.2.1 h.plainExits.2.1 k

/-- Without what was made up, the text is the source, rewritten at the marks. -/
theorem erased_cuts : erased (o.cuts.cuts.flatMap (pieces source)) =
    rewrite source 0 source.length (o.cuts.cuts.flatMap mark) := by
  have herased := erased_eq_rewrite source ((h.presentable_resolved hr).contiguous hs rfl) (Nat.le_refl 0)
  rwa [sourceText_empty (Nat.le_refl 0), List.nil_append] at herased

end Resolved

end Tree.Built

open Assembly Tree.Built

/-- Nothing is lost, doubled or moved by resolving the tree of a source and writing it. -/
theorem covered_of_build {source : List UInt8} {path : Path} {t : Tree} (h : ((start path).build source).1 = .ok t) :
    t.Covered source (resolve t).tree := by
  obtain ⟨tokens, f, hb⟩ := exists_built h
  obtain ⟨armed, f', hr, hs, -⟩ := exists_resolves hb
  have hp := hb.presentable_resolved hr
  have hregular := hb.regular_cuts hr hs
  have hcont := hp.contiguous hs rfl
  obtain ⟨hdel, hrep⟩ := hb.marks_cuts hr hs
  exact {
    contiguous := hcont
    empty := by
      rintro rfl
      rw [Presentable.cuts_eq hs rfl, hp.empty rfl]
      rfl
    omitted := by rw [← deletions_marks, hdel]
    replaced := by rw [← replacements_marks hregular, hrep, List.map_map]; rfl
    copied := fun c hc hin ho hn => (hregular c hc).written_eq hin ho hn
    wrote := hp.wrote hs rfl
    rewritten := ⟨_, hdel, hrep, hcont.marks_apart, hb.erased_cuts hr hs⟩ }

/-- A deferred statement, and a value to be stored before it fires. -/
def storedBeforeFiring : List UInt8 := Utf8.encode "int f(int x)\x7bdefer g();if(x)return h(x);\x7d"

set_option maxRecDepth 100000 in
theorem covered_storedBeforeFiring : ∃ t, ((start []).build storedBeforeFiring).1 = .ok t ∧
    t.outerDefers.map t.span = [⟨13, 23⟩] ∧ (t.boundValues.map fun v => (t.span v.1, v.2)) = [(⟨35, 39⟩, "int")] ∧
      t.Covered storedBeforeFiring (resolve t).tree := by
  have ht := build_get [] storedBeforeFiring (by decide +kernel)
  refine ⟨_, ht, ?_⟩
  rw [← and_assoc]
  exact ⟨by decide +kernel, covered_of_build ht⟩

end Deferral
