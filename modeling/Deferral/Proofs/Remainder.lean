import Deferral.Proofs.Covering

/-!
# What remains of the source

Lowered text has all bytes of the source that lie outside deferred statements and stored values, in their order, and a
stored value stands in the declaration of the variable that holds it (`remains_of_build`). A deferred statement begins
where the statement before it ends, so a comment or a directive that stands between the two is left out with it; and a
stored value comes before what fires, out of the order of the source (`not_remains_extents`).
-/

namespace Deferral

open Forest Range Firing
open List hiding append_assoc nil_append

/-! ## Bytes at places that are kept -/

/-- The bytes from `lo` to `hi`, but for places that are dropped. -/
def keptText (source : List UInt8) (dropped : Nat → Bool) (lo hi : Nat) : List UInt8 :=
  ((List.range' lo (hi - lo)).filter (!dropped ·)).filterMap (source[·]?)

section Kept

variable {source : List UInt8} {dropped : Nat → Bool} {lo mid hi : Nat} {marks : List (Span × Option String)}

theorem filterMap_range' (source : List UInt8) (lo n : Nat) :
    (List.range' lo n).filterMap (source[·]?) = (source.drop lo).take n := by
  induction n generalizing lo with
  | zero => simp
  | succ n ih =>
    rw [List.range'_succ]
    by_cases h : lo < source.length
    · rw [filterMap_cons_some (getElem?_eq_getElem h), ih, ← getElem_cons_drop h, take_succ_cons]
    · have hlo : source.length ≤ lo := Nat.le_of_not_lt h
      rw [filterMap_cons_none (getElem?_eq_none hlo), ih, drop_eq_nil_of_le hlo,
        drop_eq_nil_of_le (Nat.le_succ_of_le hlo)]
      simp

theorem keptText_append (h : lo ≤ mid) (h' : mid ≤ hi) :
    keptText source dropped lo mid ++ keptText source dropped mid hi = keptText source dropped lo hi := by
  have hrange : List.range' lo (mid - lo) ++ List.range' mid (hi - mid) = List.range' lo (hi - lo) := by
    have := List.range'_append_1 (s := lo) (m := mid - lo) (n := hi - mid)
    rwa [Nat.add_sub_cancel' h, show mid - lo + (hi - mid) = hi - lo by omega] at this
  rw [keptText, keptText, keptText, ← hrange, filter_append, filterMap_append]

theorem sourceText_eq_filterMap (source : List UInt8) (lo hi : Nat) :
    sourceText source lo hi = (List.range' lo (hi - lo)).filterMap (source[·]?) := by
  rw [filterMap_range', sourceText]
  simp [take_drop]

theorem keptText_sublist : (keptText source dropped lo hi).Sublist (sourceText source lo hi) := by
  rw [sourceText_eq_filterMap]
  exact filter_sublist.filterMap _

theorem keptText_dropped (h : ∀ i, lo ≤ i → i < hi → dropped i = true) : keptText source dropped lo hi = [] := by
  have hnone : (List.range' lo (hi - lo)).filter (!dropped ·) = [] := by
    refine filter_eq_nil_iff.2 fun i hi => ?_
    obtain ⟨hle, hlt⟩ := mem_range'_1.1 hi
    simp [h i hle (by omega)]
  rw [keptText, hnone, filterMap_nil]

theorem keptText_sublist_rewrite (hd : ∀ m ∈ marks, ∀ i, m.1.start ≤ i → i < m.1.stop → dropped i = true)
    (hin : ∀ m ∈ marks, lo ≤ m.1.start ∧ m.1.start ≤ m.1.stop ∧ m.1.stop ≤ hi)
    (hap : marks.Pairwise fun a b => a.1.stop ≤ b.1.start) :
    (keptText source dropped lo hi).Sublist (rewrite source lo hi marks) := by
  induction marks generalizing lo with
  | nil => exact keptText_sublist
  | cons m ms ih =>
    obtain ⟨⟨hlo, hle, hhi⟩, hin⟩ := forall_mem_cons.1 hin
    obtain ⟨hdm, hd⟩ := forall_mem_cons.1 hd
    obtain ⟨hm, hap⟩ := pairwise_cons.1 hap
    have hrest := ih hd (fun x hx => ⟨hm x hx, (hin x hx).2⟩) hap
    rw [rewrite, ← keptText_append hlo (hle.trans hhi), ← keptText_append hle hhi, keptText_dropped hdm,
      List.nil_append, List.append_assoc]
    exact keptText_sublist.append (hrest.trans (sublist_append_right ..))

end Kept

theorem erased_sublist (ps : List Piece) : (erased ps).Sublist (ps.flatMap (·.bytes)) := by
  induction ps with
  | nil => exact .slnil
  | cons p ps ih =>
    rw [← singleton_append, erased_append, flatMap_append]
    refine List.Sublist.append ?_ ih
    cases hp : p.madeUp <;> simp [erased, hp]

/-! ## Declarations of stored values -/

/-- Text that declares a variable for the value at `span`. -/
structure Range.Declares (span : Span) (type : String) (r : Range) : Prop where
  spliced : r.spliced = true
  span : r.span = span
  actions : r.actions = { newlineBefore := true, semicolonAfter := true, braceBefore := true }
  lead : r.lead? = some (declares type)
  own : r.replacement? = none

theorem Range.Declares.written_eq {span : Span} {type : String} {r : Range} (h : r.Declares span type)
    (source : List UInt8) : r.written source = ['\x7b'.toUInt8, '\n'.toUInt8] ++
      (Utf8.encode (declares type) ++ sourceText source span.start span.stop ++ [';'.toUInt8]) := by
  have hstart : r.start = span.start := congrArg Span.start h.span
  have hstop : r.stop = span.stop := congrArg Span.stop h.span
  rw [written_shown (by rw [h.actions]), Range.text, h.own, hstart, hstop]
  simp [opening, closing, h.actions, h.lead]

theorem Forest.exists_cut {f : Forest Range} (hf : f.BareAround (·.omitted = false)) {r : Range} (hr : r ∈ f.members)
    (hs : r.spliced = true) : ∃ c ∈ f.cutAll.cuts, { c with depth := 0 } = { r with depth := 0 } := by
  have hv : Range.View (·.omitted = false) fun r : Range => if r.spliced then [{ r with depth := 0 }] else [] :=
    ⟨fun r hr => by simp [hr.inPlace], fun _ _ => rfl⟩
  have hm : { r with depth := 0 } ∈ f.members.flatMap fun r : Range =>
      if r.spliced then [{ r with depth := 0 }] else [] :=
    mem_flatMap.2 ⟨r, hr, by simp [hs]⟩
  rw [← flatMap_cutAll requests_shown hv hf] at hm
  obtain ⟨c, hc, hmem⟩ := mem_flatMap.1 hm
  split at hmem
  · exact ⟨c, hc, (mem_singleton.1 hmem).symm⟩
  · cases hmem

namespace Firing

variable {t : Tree} {whole f f' : Forest Entry} {d : Nat} {scopes armed armed' : List Placed} {tokens : List Token}

theorem mem_ranged_below {e : Entry} {b r : Forest Entry} {P : Range → Prop} (he : e.node.Stays)
    (h : ∀ k, ∃ x ∈ (b.ranged k).members, P x) (k : Nat) : ∃ x ∈ ((Forest.node e b r).ranged k).members, P x := by
  rw [Forest.ranged, he.showing_eq, Node.kept]
  cases e.node.span.isEmpty with
  | true =>
    obtain ⟨x, hx, hp⟩ := h k
    exact ⟨x, by simp [hx], hp⟩
  | false =>
    obtain ⟨x, hx, hp⟩ := h (k + 1)
    exact ⟨x, by simp [hx], hp⟩

theorem mem_ranged_rest {e : Entry} {b r : Forest Entry} {P : Range → Prop} {k : Nat}
    (h : ∃ x ∈ (r.ranged k).members, P x) : ∃ x ∈ ((Forest.node e b r).ranged k).members, P x := by
  obtain ⟨x, hx, hp⟩ := h
  exact ⟨x, by rw [Forest.ranged, members_append]; exact mem_append_right _ hx, hp⟩

theorem mem_ranged_append {g : Forest Entry} {P : Range → Prop} {k : Nat}
    (h : (∃ x ∈ (f.ranged k).members, P x) ∨ ∃ x ∈ (g.ranged k).members, P x) :
    ∃ x ∈ ((f ++ g).ranged k).members, P x := by
  rw [ranged_append, members_append]
  rcases h with ⟨x, hx, hp⟩ | ⟨x, hx, hp⟩
  · exact ⟨x, mem_append_left _ hx, hp⟩
  · exact ⟨x, mem_append_right _ hx, hp⟩

theorem Splice.declares {v : Entry} {b g : Forest Entry} {type : String} (k : Nat)
    (h : Splice v b { braceBefore := true } (some (Firing.declares type)) g) :
    ∃ x ∈ (g.ranged k).members, x.Declares v.node.span type := by
  cases h with
  | mk n =>
    refine ⟨_, by simp [Forest.ranged, Node.showing, Entry.added, tree]; rfl, ?_⟩
    constructor <;> rfl

theorem Resolves.declares {p? : Option Slot} (h : Resolves t whole d scopes armed f armed' f') (ht : t.Holds p? f)
    (hs : Shaped tokens f) (hx : PlainExits t f) {v : Slot × String}
    (hv : v ∈ (edits t d scopes armed f).1.filterMap Edit.bound?) (k : Nat) :
    ∃ x ∈ (f'.ranged k).members, x.Declares (t.span v.1) v.2 := by
  induction h generalizing p? k with
  | nil => simp [edits] at hv
  | deferred hd _ ih =>
    rw [bound_deferred hd] at hv
    exact mem_ranged_rest (ih ht.2.2 hs.2.2 hx.2.2 hv k)
  | opens ho hinner _ _ ihb ihr =>
    obtain ⟨⟨he, -⟩, hb, hr⟩ := hs
    rw [bound_opens ho, mem_append, ← hinner.armed_eq hx.2.1] at hv
    rcases hv with hv | hv
    · exact mem_ranged_below (.inl he.status_eq) (fun k => mem_ranged_append (.inl (ihb ht.2.1 hb hx.2.1 hv k))) k
    · exact mem_ranged_rest (ihr ht.2.2 hr hx.2.2 hv k)
  | passes hd ho hn hinner _ ihb ihr =>
    obtain ⟨⟨he, -⟩, hb, hr⟩ := hs
    rw [bound_passes hd ho, jumpEdits_of_left hn, filterMap_nil, List.nil_append, mem_append,
      ← hinner.armed_eq hx.2.1] at hv
    rcases hv with hv | hv
    · exact mem_ranged_below (.inl he.status_eq) (ihb ht.2.1 hb hx.2.1 hv) k
    · exact mem_ranged_rest (ihr ht.2.2 hr hx.2.2 hv k)
  | leaves hexit hne hnone _ _ ih =>
    rw [bound_of_left hexit hne (hx.1 (by simp [hexit])).1, hnone] at hv
    exact mem_ranged_append (.inr (mem_ranged_rest (ih ht.2.2 hs.2.2 hx.2.2 hv k)))
  | @stores _ scopes armed _ type e value _ _ _ _ _ hc hne hsome hg _ _ ih =>
    have hexit : exit? (t.construct e.slot) = some .returned := by rw [hc]; rfl
    rw [bound_of_left hexit hne (hx.1 (by simp [hexit])).1, hsome, Option.toList_some, singleton_append,
      mem_cons] at hv
    refine mem_ranged_append ?_
    rcases hv with rfl | hv
    · have hspan : t.span value.slot = value.node.span := ht.span_eq (by simp)
      rw [hspan]
      exact .inl (hg.declares k)
    · exact .inr (mem_ranged_append (.inr (mem_ranged_rest (ih ht.2.2 hs.2.2 hx.2.2 hv k))))

end Firing

/-! ## The remainder -/

/-- Whether a place is in a deferred statement that is below no other, or in a value that is stored. -/
def Tree.dropped (t : Tree) (i : Nat) : Bool :=
  (t.outerDefers ++ t.boundValues.map (·.1)).any fun s => (t.span s).start ≤ i && i < (t.span s).stop

/-- Text that has all of the source, but for deferred statements, and has stored values where they are declared. -/
structure Tree.Remains (source : List UInt8) (t : Tree) (out : List UInt8) : Prop where
  kept : (keptText source t.dropped 0 source.length).Sublist out
  declared : ∀ v ∈ t.boundValues, (Utf8.encode (declares v.2) ++
    sourceText source (t.span v.1).start (t.span v.1).stop ++ [';'.toUInt8]) <:+: out

/-- The spans of marks are those of what is left out and what is replaced. -/
theorem mem_spans {marks : List (Span × Option String)} {m : Span × Option String} (h : m ∈ marks) :
    m.1 ∈ deletions marks ∨ ∃ text, (m.1, text) ∈ replacements marks := by
  obtain ⟨span, text?⟩ := m
  cases text? with
  | none => exact .inl (mem_filterMap.2 ⟨_, h, rfl⟩)
  | some text => exact .inr ⟨text, mem_filterMap.2 ⟨_, h, rfl⟩⟩

theorem Tree.dropped_of_marks {t : Tree} {marks : List (Span × Option String)}
    (hdel : deletions marks = t.outerDefers.map t.span)
    (hrep : replacements marks = t.boundValues.map fun v => (t.span v.1, storedValue)) :
    ∀ m ∈ marks, ∀ i, m.1.start ≤ i → i < m.1.stop → t.dropped i = true := by
  intro m hm i hle hlt
  obtain ⟨s, hs, hspan⟩ : ∃ s ∈ t.outerDefers ++ t.boundValues.map (·.1), t.span s = m.1 := by
    rcases mem_spans hm with h | ⟨text, h⟩
    · rw [hdel] at h
      obtain ⟨s, hs, hspan⟩ := mem_map.1 h
      exact ⟨s, mem_append_left _ hs, hspan⟩
    · rw [hrep] at h
      obtain ⟨v, hv, heq⟩ := mem_map.1 h
      exact ⟨v.1, mem_append_right _ (mem_map_of_mem hv), (Prod.mk.inj heq).1⟩
  refine any_eq_true.2 ⟨s, hs, ?_⟩
  simp [hspan, hle, hlt]

open Assembly Tree.Built

/-- Lowering leaves out deferred statements and moves values that are stored; all else remains, in order. -/
theorem remains_of_build {source : List UInt8} {t : Tree} (h : ((start []).build source).1 = .ok t) :
    ∃ l, (lower source).1 = .ok l ∧ t.Remains source l.emission.output := by
  obtain ⟨tokens, f, hb⟩ := exists_built h
  obtain ⟨armed, f', hr, hs, -⟩ := exists_resolves hb
  obtain ⟨l, hl, -, -, hemission⟩ := exists_lowered h
  have hp := hb.presentable_resolved hr
  have hcont := hp.contiguous hs rfl
  obtain ⟨hdel, hrep⟩ := hb.marks_cuts hr hs
  refine ⟨l, hl, ?_, fun v hv => ?_⟩
  · rw [hemission, (hp.wrote hs rfl).output]
    have hkept := @keptText_sublist_rewrite source _ _ _ _ (Tree.dropped_of_marks hdel hrep) hcont.marks_within
      hcont.marks_apart
    rw [← hb.erased_cuts hr hs] at hkept
    have hwritten := hkept.trans (erased_sublist _)
    rwa [flatMap_assoc] at hwritten
  · rw [hemission, (hp.wrote hs rfl).output]
    rw [hb.boundValues_eq] at hv
    obtain ⟨r, hmem, hdecl⟩ := mem_ranged_below (e := .fresh .root (.unit []) ⟨0, source.length⟩) (r := .nil)
      (.inl rfl)
      (hr.declares hb.stands.holds.2.1 hb.shaped.2.1 hb.plainExits.2.1 hv) 0
    obtain ⟨c, hc, heq⟩ := exists_cut hp.tame.bareAround hmem hdecl.spliced
    have hinfix : c.written source <:+: (resolve t).tree.cuts.cuts.flatMap (written source) := by
      rw [Presentable.cuts_eq hs rfl]
      exact infix_of_mem_flatten (mem_map_of_mem hc)
    have hwritten : written source { c with depth := 0 } = written source { r with depth := 0 } := by rw [heq]
    change c.written source = r.written source at hwritten
    rw [hwritten, hdecl.written_eq] at hinfix
    exact (suffix_append ..).isInfix.trans hinfix

/-- A value that is stored, after a deferred statement. -/
def storedLast : List UInt8 := Utf8.encode "int f()\x7b defer g(); return x; \x7d"

set_option maxRecDepth 100000 in
theorem remains_storedLast : ∃ t, ((start []).build storedLast).1 = .ok t ∧ t.boundValues.length = 1 ∧
    ∃ l, (lower storedLast).1 = .ok l ∧ t.Remains storedLast l.emission.output := by
  obtain ⟨t, ht, hcheck⟩ := exists_tree_of_check [] storedLast (fun t => t.boundValues.length = 1) (by decide +kernel)
  exact ⟨t, ht, of_decide_eq_true hcheck, remains_of_build ht⟩

/-- Where a deferred statement is written: from its keyword to its end. -/
def deferExtent (tokens : List Token) (span : Span) : Span :=
  match tokens.find? fun k => k.isWord "defer" && span.start ≤ k.start && k.stop ≤ span.stop with
  | some k => ⟨k.start, span.stop⟩
  | none => span

/-- Bytes other than blanks that are written in no deferred statement. -/
def Tree.undeferred (source : List UInt8) (tokens : List Token) (t : Tree) : List UInt8 :=
  let extents := t.outerDefers.map fun s => deferExtent tokens (t.span s)
  (keptText source (fun i => extents.any fun x => x.start ≤ i && i < x.stop) 0 source.length).filter
    fun b => !(Token.isBlankByte b || b == Token.newline)

/-- Some byte that is written in no deferred statement is not in the lowered text, or not in the order of the source. -/
def LosesText (source : List UInt8) : Prop :=
  ∃ tokens t l, Token.scan source = .ok tokens ∧ ((start []).build source).1 = .ok t ∧ (lower source).1 = .ok l ∧
    ¬(t.undeferred source tokens).Sublist l.emission.output

theorem losesText_of_check {source : List UInt8}
    (h : ((start []).build source).1.toOption.any (fun t => (Token.scan source).toOption.any fun tokens =>
      ¬(t.undeferred source tokens).Sublist
        ((resolve t).tree.emit (some (.file (.bytes source.toArray)))).output) = true) : LosesText source := by
  obtain ⟨t, ht, hcheck⟩ := exists_tree_of_check [] source _ h
  obtain ⟨l, hl, -, -, hemission⟩ := exists_lowered ht
  cases hscan : Token.scan source with
  | error e => simp [hscan, Except.toOption] at hcheck
  | ok tokens =>
    refine ⟨tokens, t, l, hscan, ht, hl, ?_⟩
    simpa [hscan, Except.toOption, hemission] using hcheck

/-- A comment before a deferred statement. -/
def commented : List UInt8 := Utf8.encode "void f()\x7b /* c */ defer g(); h(); \x7d"

/-- A directive before a deferred statement. -/
def directed : List UInt8 := Utf8.encode "void f()\x7b\n#define G 1\ndefer g(); h(); \x7d"

set_option maxRecDepth 100000 in
/-- The comment and the directive are gone, and the `x` does not come after `return` any more. -/
theorem not_remains_extents : LosesText commented ∧ LosesText directed ∧ LosesText storedLast :=
  ⟨losesText_of_check (by decide +kernel), losesText_of_check (by decide +kernel),
    losesText_of_check (by decide +kernel)⟩

end Deferral
