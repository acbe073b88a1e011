import Deferral.Proofs.Remainder

/-!
# Removing nodes

Removing nodes of a tree, one after the other, marks them and everything below them, and changes nothing else. The tree
is then written as the source without the text of the chosen nodes (`removal_of_build`). It does not matter how they
lie: a removed node inside another one adds no mark (`Firing.exists_marks_struck`), and cuts that are left out take
their place among the others, so that the text around them is neither lost nor brought back.
-/

namespace Deferral

open Forest Range Firing
open List hiding append_assoc append_nil map_append map_map nil_append

/-- Whether a place lies inside a span. -/
def Span.covers (s : Span) (i : Nat) : Bool := s.start ≤ i && i < s.stop

theorem Span.covers_iff {s : Span} {i : Nat} : s.covers i = true ↔ s.start ≤ i ∧ i < s.stop := by
  simp [covers]

theorem Forest.Spanned.covers {lo hi i : Nat} {span : Span} {b : Forest Entry} {x : Entry} (h : Spanned lo hi span b)
    (hx : x ∈ b.members) (hc : x.node.span.covers i = true) : span.covers i = true := by
  rcases h with ⟨-, rfl⟩ | ⟨-, -, hb⟩
  · cases hx
  · obtain ⟨_, hx⟩ := hb.spanned.exists_below hx
    rw [Span.covers_iff] at hc ⊢
    rcases hx with ⟨ha, -⟩ | ⟨hlo, hhi, -⟩
    · rw [ha] at hc
      exact absurd hc.2 (Nat.not_lt_zero i)
    · omega

theorem Tree.Stands.subtree_eq {t : Tree} {p? : Option Slot} {low : Nat} {f : Forest Entry} (h : t.Stands p? low f)
    {e : Entry} {b : Forest Entry} (hm : (e, b) ∈ f.subtrees) : t.subtree e.slot = (tree e b).slots := by
  obtain ⟨hnode, hbelow⟩ := h.holds.every.of_mem hm
  apply Tree.subtree_eq_slots (Tree.holds_tree.2 ⟨hnode, hbelow⟩)
  exact (members_sublist hm).length_le.trans h.length_le

/-! ## Deleting spans -/

section Deleting

variable {source : List UInt8} {dropped : Nat → Bool} {lo hi : Nat}

theorem keptText_kept (h : ∀ i, lo ≤ i → i < hi → dropped i = false) :
    keptText source dropped lo hi = sourceText source lo hi := by
  have hall : (List.range' lo (hi - lo)).filter (!dropped ·) = List.range' lo (hi - lo) := by
    apply filter_eq_self.2
    intro i hi
    obtain ⟨hle, hlt⟩ := mem_range'_1.1 hi
    simp [h i hle (by omega)]
  rw [keptText, hall, sourceText_eq_filterMap]

/-- A text with nothing in place of some spans, which are in order, is the text without them. -/
theorem rewrite_deleted {spans : List Span}
    (hd : ∀ i, lo ≤ i → i < hi → (dropped i = true ↔ ∃ s ∈ spans, s.covers i = true))
    (hin : ∀ s ∈ spans, lo ≤ s.start ∧ s.start ≤ s.stop ∧ s.stop ≤ hi)
    (hap : spans.Pairwise fun a b => a.stop ≤ b.start) :
    rewrite source lo hi (spans.map (·, none)) = keptText source dropped lo hi := by
  induction spans generalizing lo with
  | nil =>
    refine (keptText_kept fun i hlo hhi => ?_).symm
    have := (hd i hlo hhi).not
    simpa using this
  | cons s spans ih =>
    obtain ⟨⟨hlo, hle, hhi⟩, hin⟩ := forall_mem_cons.1 hin
    obtain ⟨hs, hap⟩ := pairwise_cons.1 hap
    have hbefore : keptText source dropped lo s.start = sourceText source lo s.start := by
      apply keptText_kept
      intro i hi₁ hi₂
      rw [Bool.eq_false_iff, ne_eq, hd i hi₁ (by omega)]
      -- All spans start after the place, the first one as well as those after it.
      rintro ⟨x, hx, hc⟩
      have hstart : s.start ≤ x.start := by
        rcases mem_cons.1 hx with rfl | hx
        · exact le_rfl
        · exact hle.trans (hs x hx)
      have := (Span.covers_iff.1 hc).1
      omega
    have hinside : keptText source dropped s.start s.stop = [] := by
      apply keptText_dropped
      intro i hi₁ hi₂
      exact (hd i (by omega) (by omega)).2 ⟨s, mem_cons_self, Span.covers_iff.2 ⟨hi₁, hi₂⟩⟩
    have hafter : rewrite source s.stop hi (spans.map (·, none)) = keptText source dropped s.stop hi := by
      refine ih (fun i hi₁ hi₂ => ?_) (fun x hx => ⟨hs x hx, (hin x hx).2⟩) hap
      rw [hd i (by omega) hi₂, exists_mem_cons_iff, Span.covers_iff]
      constructor
      · rintro (⟨-, hlt⟩ | hx)
        · omega
        · exact hx
      · exact .inr
    rw [map_cons, rewrite, hafter, ← keptText_append hlo (hle.trans hhi), ← keptText_append hle hhi, hbefore,
      hinside]
    simp [Utf8.encode]

end Deleting

/-! ## Removed nodes of a forest -/

/-- An entry, removed if its slot is gone. -/
def Entry.struck (gone : Slot → Bool) (e : Entry) : Entry := if gone e.slot then e.mark .removed else e

namespace Firing

section Struck

variable {gone : Slot → Bool} {e : Entry} {f b r : Forest Entry} {lo hi n k : Nat}

theorem slot_struck : (e.struck gone).slot = e.slot := by
  rw [Entry.struck]
  split <;> rfl

theorem span_struck (e : Entry) : (e.struck gone).node.span = e.node.span := by
  rw [Entry.struck]
  split <;> rfl

theorem slots_struck (f : Forest Entry) : (f.map (.struck gone)).slots = f.slots := by
  simp only [slots, members_map, List.map_map, Function.comp_def, slot_struck]

theorem status_struck (h : e.Plain) : (e.struck gone).node.status = .removed ↔ gone e.slot = true := by
  rw [Entry.struck]
  by_cases hg : gone e.slot = true
  · simp [hg, Entry.mark, Mark.apply]
  · simp [hg, h.status_eq]

theorem settled_struck (h : e.Plain) : Settled n (e.struck gone) := by
  rw [Entry.struck]
  split
  · exact settled_removed h
  · exact settled_plain h

theorem inPlace_struck (h : e.Plain) : (e.struck gone).InPlace := by
  rw [Entry.struck]
  split
  · exact inPlace_removed h
  · exact h.inPlace

theorem forall_struck {P : Entry → Prop} (hp : f.Every fun e _ => e.Plain)
    (h : ∀ {e : Entry}, e.Plain → P (e.struck gone)) :
    ∀ x ∈ (f.map (.struck gone)).members, P x := by
  intro x hx
  rw [members_map] at hx
  obtain ⟨e, he, rfl⟩ := mem_map.1 hx
  obtain ⟨_, hplain⟩ := hp.exists_below he
  exact h hplain

theorem inOrder_struck (hp : f.Every fun e _ => e.Plain) (hw : f.Within lo hi) :
    (f.map (.struck gone)).InOrder lo hi :=
  (within_map (.struck gone) span_struck hw).inOrder (every_of_members (forall_struck hp inPlace_struck))

theorem marksOf_gone (h : e.node.span.isEmpty = true) : marksOf k (.node (e.mark .removed) b r) = marksOf k r := by
  simp [marksOf, Forest.ranged, Node.showing, Entry.mark, Mark.apply, h]

/-- Just the text of what is gone is marked, and nothing stands in its place. -/
theorem exists_marks_struck (gone : Slot → Bool) (hp : f.Every fun e _ => e.Plain) (hw : f.Within lo hi) (k : Nat) :
    ∃ spans : List Span, marksOf k (f.map (.struck gone)) = spans.map (·, none) ∧
      ∀ i, (∃ s ∈ spans, s.covers i = true) ↔ ∃ e ∈ f.members, gone e.slot = true ∧ e.node.span.covers i = true := by
  induction f generalizing lo hi k with
  | nil => exact ⟨[], rfl, by simp⟩
  | node e b r ihb ihr =>
    obtain ⟨he, hb, hr⟩ := hp
    obtain ⟨lo', hi', hwb⟩ : ∃ lo hi, b.Within lo hi := by
      rcases hw with ⟨-, rfl, -⟩ | ⟨-, -, hwb, -⟩
      · exact ⟨0, 0, Nat.le_refl 0⟩
      · exact ⟨_, _, hwb⟩
    obtain ⟨lo'', hwr⟩ : ∃ lo, r.Within lo hi := by
      rcases hw with ⟨-, -, hwr⟩ | ⟨-, -, -, hwr⟩
      · exact ⟨_, hwr⟩
      · exact ⟨_, hwr⟩
    obtain ⟨after, hafter, hcovers⟩ := ihr hr hwr k
    have hmembers : ∀ P : Entry → Prop, (∃ x ∈ (node e b r).members, P x) ↔
        (P e ∨ ∃ x ∈ b.members, P x) ∨ ∃ x ∈ r.members, P x := by
      intro P
      simp only [members_node, mem_cons, mem_append, or_and_right, exists_or, exists_eq_left, or_assoc]
    by_cases hg : gone e.slot = true
    · -- What is below lies inside, so it adds nothing.
      have hown : ∀ i, (gone e.slot = true ∧ e.node.span.covers i = true ∨
          ∃ x ∈ b.members, gone x.slot = true ∧ x.node.span.covers i = true) ↔ e.node.span.covers i = true := by
        intro i
        refine ⟨?_, fun h => .inl ⟨hg, h⟩⟩
        rintro (⟨-, h⟩ | ⟨x, hx, -, h⟩)
        · exact h
        · exact hw.spanned.1.covers hx h
      have hstruck : e.struck gone = e.mark .removed := if_pos hg
      simp only [map_node, hstruck]
      by_cases hs : e.node.span.isEmpty = true
      · refine ⟨after, by rw [marksOf_gone hs, hafter], fun i => ?_⟩
        have hnone : ¬e.node.span.covers i = true := by
          simp only [Span.isEmpty, decide_eq_true_eq] at hs
          rw [Span.covers_iff]
          omega
        rw [hmembers, hown, hcovers]
        simp [hnone]
      · have hs' : e.node.span.start < e.node.span.stop := by simpa [Span.isEmpty] using hs
        refine ⟨e.node.span :: after, by rw [marksOf_removed hs', hafter, map_cons], fun i => ?_⟩
        rw [hmembers, hown, exists_mem_cons_iff, hcovers]
    · have hstruck : e.struck gone = e := if_neg hg
      obtain ⟨k', hk⟩ := marksOf_own (k := k) (b := b.map (.struck gone)) (r := r.map (.struck gone)) he
      obtain ⟨inner, hinner, hin⟩ := ihb hb hwb k'
      simp only [map_node, hstruck]
      refine ⟨inner ++ after, by rw [hk, hinner, hafter, List.map_append], fun i => ?_⟩
      simp only [hmembers, mem_append, or_and_right, exists_or, hin, hcovers]
      simp [hg]

/-- Cuts of a forest with removed nodes are left out, or text as it stands in the source. -/
theorem cuts_struck (hp : f.Every fun e _ => e.Plain) :
    ∀ c ∈ ((f.map (.struck gone)).ranged k).cutAll.cuts, c.Bare (· = {}) ∨ c.spliced = false ∧
    c.actions.omitted = true := by
  have htame : (f.map (.struck gone)).Tame (· = {}) := by
    refine every_of_members (forall_struck hp fun {e} he hs => ?_)
    have hkept : e.struck gone = e := by
      refine if_neg fun hg => ?_
      have := (status_struck he).2 hg
      rcases hs with hs | ⟨hs, -⟩
      · simp [hs] at this
      · simp [hs] at this
    rw [hkept]
    exact ⟨he.actions_eq, he.lead?_eq, he.replacement?_eq⟩
  refine forall_cutAll requests_none (fun _ hr => .inl hr) (fun r d hr => ?_) htame.bareAround fun r hr => ?_
  · exact hr.imp_left fun hr => ⟨hr.inPlace, hr.requests, hr.lead, hr.own⟩
  · obtain ⟨e, he, k, hs⟩ := exists_shows hr
    obtain ⟨_, hstays⟩ := htame.exists_below he
    have hplace := forall_struck hp inPlace_struck e he
    rcases hs with hs | hs
    · cases hs with
      | omitted => exact .inr ⟨rfl, rfl⟩
      | spliced hs => exact absurd hs hplace.status
      | replaced _ hsome => simp [hplace.own] at hsome
    · cases hs with
      | around hs =>
        obtain ⟨ha, hl, hn⟩ := hstays hs
        exact .inl ⟨rfl, ha, hl, hn⟩

end Struck

/-! ## Removing one after the other -/

section Removing

variable {o t : Tree} {f : Forest Entry} {site : Slot → Prop} {cs : List Change} {p? : Option Slot}

/-- The changes that removing nodes stands for. -/
def removals (o : Tree) (chosen : List Slot) : List Change := chosen.map fun s => .mark (o.subtree s) .removed

/-- Whether a node is chosen or below one that is. -/
def isGone (o : Tree) (chosen : List Slot) (s : Slot) : Bool := chosen.any fun c => (o.subtree c).contains s

theorem Stage.removeAll {low : Nat} (h : Stage o f site cs t) (ho : o.Stands p? low f) {chosen : List Slot}
    (hc : ∀ s ∈ chosen, ∃ e b, e.slot = s ∧ Quiet f site e b) :
    Stage o f site (cs ++ removals o chosen) (chosen.foldl (fun t s => t.setStatus s .removed) t) := by
  induction chosen generalizing cs t with
  | nil => simpa [removals] using h
  | cons s chosen ih =>
    obtain ⟨⟨e, b, rfl, hq⟩, hothers⟩ := forall_mem_cons.1 hc
    have hstep := h.remove hq
    rw [← ho.subtree_eq hq.mem] at hstep
    have hrest := ih hstep hothers
    rw [List.append_assoc] at hrest
    exact hrest

theorem marked_removals (o : Tree) (chosen : List Slot) (e : Entry) :
    e.marked (removals o chosen) = e.struck (isGone o chosen) := by
  have hmarked : ∀ n : Node, Change.marked e.slot (removals o chosen) n =
      if isGone o chosen e.slot then Mark.removed.apply n else n := by
    induction chosen with
    | nil => intro n; rfl
    | cons c chosen ih =>
      intro n
      change Change.marked e.slot (removals o chosen) _ = _
      rw [ih]
      have hgone : isGone o (c :: chosen) e.slot = ((o.subtree c).contains e.slot || isGone o chosen e.slot) := rfl
      by_cases hc : e.slot ∈ o.subtree c <;>
        by_cases hg : isGone o chosen e.slot = true <;> simp [hgone, hc, hg, Mark.apply]
  rw [Entry.marked, hmarked, Entry.struck]
  split <;> rfl

end Removing

end Firing

open Assembly

namespace Tree.Built

variable {t : Tree} {source : List UInt8} {path : Path} {tokens : List Token} {f : Forest Entry} {chosen : List Slot}

section

variable (h : t.Built source path tokens f)
include h

theorem within_whole : (whole source path f).Within 0 source.length := by
  by_cases hs : source.length = 0
  · refine .inl ⟨?_, h.eq_nil hs, Nat.zero_le _⟩
    simp [hs, Span.absent]
  · refine (within_tree ?_).2 ⟨Nat.le_refl 0, h.within, le_rfl⟩
    simpa [Span.absent] using hs

theorem stands_removed (hc : chosen ⊆ t.reachable) :
    (chosen.foldl (fun t s => t.setStatus s .removed) t).Stands none 0
      ((whole source path f).map (.struck (isGone t chosen))) := by
  have hstart : Stage t (whole source path f) (fun _ => False) [] t := stage_start h
  have hstage := hstart.removeAll h.stands fun s (hs : s ∈ chosen) => by
    obtain ⟨e, b, hm, he⟩ := exists_subtree_slot (h.reachable_eq ▸ hc hs)
    exact ⟨e, b, he, hm, fun _ _ => id⟩
  rw [List.nil_append] at hstage
  have hstands := hstage.stands
  rw [edited_of_quiet fun s _ => hstage.frame.quiet s id] at hstands
  have hmap : (whole source path f).map (Entry.marked (removals t chosen)) =
      (whole source path f).map (Entry.struck (isGone t chosen)) := map_congr fun e _ => marked_removals t chosen e
  rwa [hmap] at hstands

theorem covers_struck (gone : Slot → Bool) :
    Covers 0 source.length (((whole source path f).map (.struck gone)).ranged 0).cutAll := by
  change Covers 0 source.length ((Forest.tree (Entry.struck gone _) (f.map (.struck gone))).ranged 0).cutAll
  by_cases hg : gone .root = true
  · have hroot : (Entry.fresh .root (.unit path) ⟨0, source.length⟩).struck gone = .mark .removed _ := if_pos hg
    rw [hroot, Forest.tree, Forest.ranged]
    rcases Nat.eq_zero_or_pos source.length with hs | hs
    · simp [Node.showing, Entry.mark, Mark.apply, Entry.fresh, Span.isEmpty, hs, Forest.ranged, covers_nothing, cutAll]
    · have hempty : ¬source.length ≤ 0 := by omega
      simp only [Node.showing, Entry.mark, Mark.apply, Entry.fresh, Span.isEmpty, hempty, decide_false,
        Bool.false_eq_true, if_false, Forest.ranged, append_nil]
      exact ⟨(contiguous_inPlace rfl).2 ⟨rfl, Nat.zero_le _, rfl⟩, rfl⟩
  · have hroot : (Entry.fresh .root (.unit path) ⟨0, source.length⟩).struck gone =
        .fresh .root (.unit path) ⟨0, source.length⟩ :=
      if_neg hg
    have hsettled : ∀ x ∈ ((whole source path f).map (.struck gone)).members, Settled source.length x :=
      forall_struck h.plain settled_struck
    change ∀ x ∈ (Forest.tree (Entry.struck gone _) (f.map (.struck gone))).members, _ at hsettled
    rw [hroot] at hsettled ⊢
    have hp : Presentable source.length (.fresh .root (.unit path) ⟨0, source.length⟩) (f.map (.struck gone)) :=
      { stays := .inl rfl
        span := rfl
        empty := fun hs => by rw [h.eq_nil hs]; rfl
        inOrder := inOrder_struck (every_tree.1 h.plain).2 h.within
        tame := tame_of_settled (fun _ ha => ha.shown) hsettled
        splices := fun e he => (hsettled e he).added }
    exact hp.covers

theorem wrote_struck {t' : Tree} {gone : Slot → Bool} {dropped : Nat → Bool}
    (hs : t'.Stands none 0 ((whole source path f).map (.struck gone)))
    (hd : ∀ i, dropped i = true ↔
      ∃ e ∈ (whole source path f).members, gone e.slot = true ∧ e.node.span.covers i = true) :
    Wrote (t'.emit (some (.file (.bytes source.toArray)))) (keptText source dropped 0 source.length) := by
  have hcuts : t'.cuts = (((whole source path f).map (.struck gone)).ranged 0).cutAll :=
    Presentable.cuts_eq hs slot_struck
  have hcovers := hcuts ▸ h.covers_struck gone
  have hsorts : ∀ c ∈ t'.cuts.cuts, c.Bare (· = {}) ∨ c.spliced = false ∧ c.actions.omitted = true :=
    hcuts ▸ cuts_struck h.plain
  have hwritable : Writable source 0 source.length t'.cuts.cuts := by
    refine ⟨hcovers.contiguous, le_rfl, fun c hc hsp => ?_⟩
    rcases hsorts c hc with hb | ⟨hplace, -⟩
    · simp [hb.inPlace] at hsp
    · simp [hplace] at hsp
  have herased : ∀ c ∈ t'.cuts.cuts, c.written source = erased (c.pieces source) := by
    intro c hc
    rcases hsorts c hc with hb | ⟨-, ho⟩
    · exact hb.written_eq.1
    · rw [written_omitted ho, erased_omitted ho]
  obtain ⟨spans, hspans, hgone⟩ := exists_marks_struck gone h.plain h.within_whole 0
  have hmarks : t'.cuts.cuts.flatMap mark = spans.map (·, none) := by
    rw [hcuts, ← hspans]
    exact viewed_cutAll view_mark (forall_struck h.plain (settled_struck (n := source.length)))
  have hin := hcovers.contiguous.marks_within
  have hap := hcovers.contiguous.marks_apart
  rw [hmarks] at hin hap
  have htext : t'.cuts.cuts.flatMap (written source) = keptText source dropped 0 source.length := by
    have hrewrite := erased_eq_rewrite source hcovers.contiguous (Nat.le_refl 0)
    rw [sourceText_empty (Nat.le_refl 0), List.nil_append, hmarks, erased_flatMap] at hrewrite
    rw [flatMap_congr herased, hrewrite]
    refine rewrite_deleted (fun i _ _ => (hd i).trans (hgone i).symm) (fun s hs => ?_) ?_
    · exact hin (s, none) (mem_map_of_mem hs)
    · rwa [pairwise_map] at hap
  exact htext ▸ Tree.wrote_of_writable hwritable hcovers.overlaps

theorem covers_gone_iff (hc : chosen ⊆ t.reachable) (i : Nat) :
    (∃ e ∈ (whole source path f).members, isGone t chosen e.slot = true ∧ e.node.span.covers i = true) ↔
      ∃ s ∈ chosen, (t.span s).covers i = true := by
  have hspan : ∀ {e : Entry}, e ∈ (whole source path f).members → t.span e.slot = e.node.span := h.stands.holds.span_eq
  constructor
  · rintro ⟨e, he, hgone, hcovers⟩
    obtain ⟨s, hs, hmem⟩ := any_eq_true.1 hgone
    obtain ⟨x, b, hm, rfl⟩ := exists_subtree_slot (h.reachable_eq ▸ hc hs)
    have hx : x ∈ (whole source path f).members := (members_sublist hm).subset (by simp)
    rw [contains_iff_mem, h.stands.subtree_eq hm] at hmem
    obtain ⟨y, hy, hslot⟩ := mem_map.1 hmem
    have hyspan : y.node.span = e.node.span := by
      rw [← hspan ((members_sublist hm).subset hy), hslot, hspan he]
    refine ⟨x.slot, hs, ?_⟩
    rw [hspan hx]
    rw [← hyspan] at hcovers
    rw [members_tree, mem_cons] at hy
    rcases hy with rfl | hy
    · exact hcovers
    · exact (h.within_whole.spanned.of_mem hm).covers hy hcovers
  · rintro ⟨s, hs, hcovers⟩
    obtain ⟨x, b, hm, rfl⟩ := exists_subtree_slot (h.reachable_eq ▸ hc hs)
    have hx : x ∈ (whole source path f).members := (members_sublist hm).subset (by simp)
    refine ⟨x, hx, any_eq_true.2 ⟨x.slot, hs, ?_⟩, by rwa [hspan hx] at hcovers⟩
    rw [contains_iff_mem, h.stands.subtree_eq hm, slots_tree]
    exact mem_cons_self

end

end Tree.Built

/-- A call, a loop and a name. -/
def callLoopName : List UInt8 := Utf8.encode "int f()\x7ba(b);while(x)c();d;\x7d"

end Deferral
