import Deferral.Proofs.BroughtIn

/-!
# Expressions that are moved

A deferred expression has no parenthesis around an operand at its ends, so its node has all text between the keyword and
the semicolon, and that is what each firing writes (`firesWhole_of_build`). A value that is stored may have such
parentheses. Its node goes without them, and they stay where they are while the rest is moved (`storesCores_of_build`,
`splits_groupedFirst`).
-/

namespace Deferral

open Grammar Forest Range Firing

/-- A node has all text of an expression, unless there is a parenthesis around an operand at one of its ends. -/
theorem Quotes.wraps {tokens : List Token} {word : String} {y : Expr} {outer inner : Span}
    (h : Quotes tokens word y outer inner) (ho : Ordered 0 tokens) : Wraps tokens word outer y.tokens ∧
      inner = y.core ∧ (inner = extent y.tokens ↔ y.startsGrouped = false ∧ y.endsGrouped = false) := by
  obtain ⟨⟨k, s, hocc, hstop⟩, rfl⟩ := h
  obtain ⟨-, -, hrest⟩ := hocc.ordered ho
  exact ⟨⟨k, s, hocc, hstop⟩, rfl, Expr.core_eq_extent (ordered_append.1 hrest).1⟩

namespace Tree.Built

variable {t : Tree} {source : List UInt8} {path : Path} {tokens : List Token} {f f' : Forest Entry}
  {armed : List Placed}

/-! ## Nodes of expressions -/

/-- The operation of a deferred expression has all text between the keyword and the semicolon. -/
theorem deferred_whole (h : t.Built source path tokens f) {d : Slot} (hmem : d ∈ t.reachable)
    (hd : t.tag d = .deferred) (hs : t.tag (operation t d) ≠ .scope) :
    ∃ ts ≠ [], Wraps tokens "defer" (t.span d) ts ∧ t.span (operation t d) = extent ts := by
  rw [h.reachable_eq] at hmem
  obtain ⟨e, b, hm, rfl⟩ := exists_subtree_slot hmem
  have hshape := h.shape hm
  have hc : e.node.construct = .deferred := h.construct_eq hm ▸ Construct.eq_deferred hd
  obtain ⟨op, k, rfl, hop⟩ := h.exists_operation hm hd
  have hin : op ∈ (whole source path f).members := (members_sublist hm).subset (by simp)
  have he : e ∈ (whole source path f).members := (members_sublist hm).subset (by simp)
  simp only [Shape, hc, roots_tree] at hshape
  obtain ⟨-, -, op', hroots, hsort⟩ := hshape
  obtain rfl : op = op' := (List.cons.inj hroots).1
  rw [hop, h.stands.holds.tag_eq hin] at hs
  obtain ⟨-, y, hq⟩ := hsort.resolve_right hs
  obtain ⟨hwraps, -, hall⟩ := hq.wraps (Token.scan_ordered h.scanned).1
  rw [hop, h.stands.holds.span_eq hin, h.stands.holds.span_eq he]
  exact ⟨y.1.tokens, y.1.tokens_ne_nil, hwraps, hall.2 y.2⟩

/-- A value that is stored is that of a `return`, and has the core of the expression in it. -/
theorem stored_core (h : t.Built source path tokens f) {v : Slot × String} (hv : v ∈ t.boundValues) :
    ∃ r ∈ t.reachable, t.construct r = .returned (some v.1) ∧ ∃ y : Expr, Wraps tokens "return" (t.span r) y.tokens ∧
      t.span v.1 = y.core ∧ (t.span v.1 = extent y.tokens ↔ y.startsGrouped = false ∧ y.endsGrouped = false) := by
  obtain ⟨edit, hedit, hbound⟩ := List.mem_filterMap.1 hv
  rw [edits_built h] at hedit
  have hsound := (sound_edits (fun _ hs => hs) (fun _ hs => hs) (by simp)).1 edit hedit
  cases hsound with
  | @bindValue ret value hr hret type =>
    obtain rfl : (value, type) = v := Option.some.inj hbound
    obtain ⟨e, b, hm, rfl⟩ := exists_subtree_slot ((outer_sublist _).subset hr.mem)
    have he : e ∈ (whole source path f).members := (members_sublist hm).subset (by simp)
    have hc : e.node.construct = .returned (some value) := h.construct_eq hm ▸ hret
    have hshape := h.shape hm
    simp only [Shape, hc] at hshape
    obtain ⟨-, hslots, hkids⟩ := hshape
    obtain ⟨x, hx, rfl⟩ : ∃ x ∈ b.roots, x.slot = value := List.mem_map.1 (by simp [hslots])
    obtain ⟨-, y, hq⟩ := hkids x hx
    have hxm : x ∈ (whole source path f).members :=
      (members_sublist hm).subset (by simp [mem_members_of_mem_roots hx])
    refine ⟨e.slot, h.reachable_eq ▸ mem_slots he, hret, y, ?_⟩
    rw [h.stands.holds.span_eq he, h.stands.holds.span_eq hxm]
    exact hq.wraps (Token.scan_ordered h.scanned).1
  | _ => cases hbound

/-! ## Cuts that are brought in -/

variable (h : t.Built source path tokens f) (hr : Resolves t (whole source path f) 1 [] [] f armed f')
  (hs : (resolve t).tree.Stands none 0 (whole source path f'))

include h hr hs

/-- The cuts that are brought in with a lead of some sort are the copies with such a lead. -/
theorem filter_cuts (q : Option String → Bool) :
    (((resolve t).tree.cuts.cuts.filter fun c => c.spliced && q c.lead?).map fun c => (c.span, c.written source)) =
      (t.copies.filter fun c => q c.lead?).map fun c => (c.span, c.written source) := by
  have hcuts := h.copies_cuts hr hs
  rw [flatMap_broughtIn] at hcuts
  have hsome := congrArg (fun l => (l.filter fun x => q x.2.1).map fun x => (x.1, x.2.2)) hcuts
  simp only [List.filter_map, List.map_map, List.filter_filter, Function.comp_def, Copy.view] at hsome
  simpa only [Bool.and_comm] using hsome

/-- What fires is brought in as often as it fires, in the order of firing. -/
theorem fired_cuts : ((resolve t).tree.cuts.cuts.filter fun c => c.spliced && c.lead?.isNone).map Range.span =
    (resolve t).firings.map fun x => t.span (operation t x.deferred) := by
  have hcuts := congrArg (List.map Prod.fst) (h.filter_cuts hr hs Option.isNone)
  simp only [List.map_map, Function.comp_def] at hcuts
  exact hcuts.trans h.fired_copies

theorem written_fired {c : Range} (hc : c ∈ (resolve t).tree.cuts.cuts) (hsp : c.spliced = true)
    (hl : c.lead? = none) : ∃ brace : Bool, c.written source = (if brace then ['\x7b'.toUInt8] else []) ++
      '\n'.toUInt8 :: (sourceText source c.start c.stop ++ [';'.toUInt8]) := by
  have hmem : (c.span, c.written source) ∈ ((resolve t).tree.cuts.cuts.filter fun c =>
      c.spliced && c.lead?.isNone).map fun c => (c.span, c.written source) :=
    List.mem_map_of_mem (List.mem_filter.2 ⟨hc, by simp [hsp, hl]⟩)
  rw [h.filter_cuts hr hs Option.isNone] at hmem
  obtain ⟨x, hx, heq⟩ := List.mem_map.1 hmem
  obtain ⟨hspan, hwritten⟩ := Prod.mk.inj heq
  have hlead : x.lead? = none := by simpa using (List.mem_filter.1 hx).2
  refine ⟨x.brace, ?_⟩
  rw [← hwritten, Copy.written, hlead, hspan]
  simp [Utf8.encode, Range.span]

theorem declared_cuts :
    (((resolve t).tree.cuts.cuts.filter fun c => c.spliced && c.lead?.isSome).map fun c => (c.span, c.written source)) =
      t.boundValues.map fun v => (t.span v.1, ['\x7b'.toUInt8, '\n'.toUInt8] ++ (Utf8.encode (declares v.2) ++
        sourceText source (t.span v.1).start (t.span v.1).stop ++ [';'.toUInt8])) := by
  rw [h.filter_cuts hr hs Option.isSome, declared_copies, List.map_map]
  rfl

end Tree.Built

/-! ## Deferred expressions -/

/-- Deferred expressions fire as they are written. -/
structure Tree.FiresWhole (source : List UInt8) (tokens : List Token) (t : Tree) : Prop where
  /-- A node has all text between the keyword and the semicolon. -/
  whole : ∀ d ∈ t.reachable, t.tag d = .deferred → t.tag (operation t d) ≠ .scope →
    ∃ ts ≠ [], Wraps tokens "defer" (t.span d) ts ∧ t.span (operation t d) = extent ts
  deferred : ∀ x ∈ (resolve t).firings, x.deferred ∈ t.reachable ∧ t.tag x.deferred = .deferred
  /-- Each firing has a cut of its own, with all text of the operation. -/
  fired : ((resolve t).tree.cuts.cuts.filter fun c => c.spliced && c.lead?.isNone).map Range.span =
    (resolve t).firings.map fun x => t.span (operation t x.deferred)
  /-- The cut is written as a statement on its own line. -/
  written : ∀ c ∈ (resolve t).tree.cuts.cuts, c.spliced = true → c.lead? = none →
    ∃ brace : Bool, c.written source = (if brace then ['\x7b'.toUInt8] else []) ++
      '\n'.toUInt8 :: (sourceText source c.start c.stop ++ [';'.toUInt8])
  wrote : Wrote ((resolve t).tree.emit (some (.file (.bytes source.toArray))))
    ((resolve t).tree.cuts.cuts.flatMap (Range.written source))

open Assembly Tree.Built

/-- All text of a deferred expression is its operation, and is written wherever it fires. -/
theorem firesWhole_of_build {source : List UInt8} {path : Path} {t : Tree}
    (h : ((start path).build source).1 = .ok t) :
    ∃ tokens, Token.scan source = .ok tokens ∧ t.FiresWhole source tokens := by
  obtain ⟨tokens, f, hb⟩ := exists_built h
  obtain ⟨armed, f', hr, hs, -⟩ := exists_resolves hb
  refine ⟨tokens, hb.scanned, {
    whole := fun d hm hd hop => hb.deferred_whole hm hd hop
    deferred := fun x hx => ?_
    fired := hb.fired_cuts hr hs
    written := fun c hc hsp hl => hb.written_fired hr hs hc hsp hl
    wrote := (hb.presentable_resolved hr).wrote hs rfl }⟩
  have hd := hb.firings_paired.1 x hx
  exact ⟨hb.reachable_eq ▸ (outer_sublist _).subset hd.mem, hd.tag⟩

/-- A deferred expression with casts and operators before and after its operands, which fires at two places. -/
def deferredOperators : List UInt8 :=
  Utf8.encode "void f()\x7b defer *g((char *)-p, (q)->r[0]++)++; if (x) return; \x7d"

set_option maxRecDepth 100000 in
theorem firesWhole_deferredOperators : ∃ t, ((start []).build deferredOperators).1 = .ok t ∧
    (t.reachable.any fun d => t.tag d = .deferred ∧ t.tag (operation t d) ≠ .scope) = true ∧
      (resolve t).firings.length = 2 ∧
        ∃ tokens, Token.scan deferredOperators = .ok tokens ∧ t.FiresWhole deferredOperators tokens := by
  have ht := build_get [] deferredOperators (by decide +kernel)
  refine ⟨_, ht, ?_⟩
  rw [← and_assoc]
  exact ⟨by decide +kernel, firesWhole_of_build ht⟩

/-! ## Stored values -/

/-- Values are stored without parentheses around their first and their last operand. -/
structure Tree.StoresCores (source : List UInt8) (tokens : List Token) (t : Tree) : Prop where
  /-- What is stored is the core of what stands between `return` and the semicolon. That is all of it just if there is
  no parenthesis around an operand at its ends. -/
  core : ∀ v ∈ t.boundValues, ∃ r ∈ t.reachable, t.construct r = .returned (some v.1) ∧
    ∃ y : Expr, Wraps tokens "return" (t.span r) y.tokens ∧ t.span v.1 = y.core ∧
      (t.span v.1 = extent y.tokens ↔ y.startsGrouped = false ∧ y.endsGrouped = false)
  /-- It is brought in with its declaration. -/
  declared : (((resolve t).tree.cuts.cuts.filter fun c => c.spliced && c.lead?.isSome).map
    fun c => (c.span, c.written source)) = t.boundValues.map fun v => (t.span v.1, ['\x7b'.toUInt8, '\n'.toUInt8] ++
      (Utf8.encode (declares v.2) ++ sourceText source (t.span v.1).start (t.span v.1).stop ++ [';'.toUInt8]))
  /-- The variable stands where it was. -/
  replaced : (((resolve t).tree.cuts.cuts.filter fun c => !c.spliced && c.replacement?.isSome).map
    fun c => (c.span, c.written source)) = t.boundValues.map fun v => (t.span v.1, Utf8.encode storedValue)

/-- The same text of a value is copied to a declaration and replaced in the `return`: the value, without parentheses
around its first and its last operand. -/
theorem storesCores_of_build {source : List UInt8} {path : Path} {t : Tree}
    (h : ((start path).build source).1 = .ok t) :
    ∃ tokens, Token.scan source = .ok tokens ∧ t.StoresCores source tokens := by
  obtain ⟨tokens, f, hb⟩ := exists_built h
  obtain ⟨armed, f', hr, hs, -⟩ := exists_resolves hb
  refine ⟨tokens, hb.scanned, fun v hv => hb.stored_core hv, hb.declared_cuts hr hs, ?_⟩
  rw [← replacements_marks (hb.regular_cuts hr hs), (hb.marks_cuts hr hs).2, List.map_map]
  rfl

/-- Two values that are stored, one of which starts with a parenthesis. -/
def storedTwice : List UInt8 :=
  Utf8.encode "int f(int x)\x7b defer g(); if (x) return (x) * h(x); return -x + 1; \x7d"

set_option maxRecDepth 100000 in
theorem storesCores_storedTwice : ∃ t, ((start []).build storedTwice).1 = .ok t ∧ t.boundValues.length = 2 ∧
    ∃ tokens, Token.scan storedTwice = .ok tokens ∧ t.StoresCores storedTwice tokens := by
  obtain ⟨t, ht, hcheck⟩ := exists_tree_of_check [] storedTwice (fun t => t.boundValues.length = 2) (by decide +kernel)
  exact ⟨t, ht, of_decide_eq_true hcheck, storesCores_of_build ht⟩

/-- A value whose first operand stands in parentheses. -/
def groupedFirst : List UInt8 := Utf8.encode "int f()\x7b defer g(); return (a) + b; \x7d"

set_option maxRecDepth 100000 in
/-- One parenthesis of `(a)` is copied, and the other one is left behind. -/
theorem splits_groupedFirst : ∃ t l, ((start []).build groupedFirst).1 = .ok t ∧ (lower groupedFirst).1 = .ok l ∧
    (∃ v ∈ t.boundValues, ∃ r ∈ t.reachable, t.construct r = .returned (some v.1) ∧
      sourceText groupedFirst (t.span r).start (t.span r).stop = Utf8.encode " return (a) + b;" ∧
        sourceText groupedFirst (t.span v.1).start (t.span v.1).stop = Utf8.encode "a) + b") ∧
      l.emission.output =
        Utf8.encode "int f()\x7b\x7b\nint __defer_ret = a) + b;\ng(); return (__defer_ret;\n\x7d \x7d" := by
  obtain ⟨t, ht, hcheck⟩ := exists_tree_of_check [] groupedFirst (fun t =>
    (t.boundValues.any fun v => t.reachable.any fun r => t.construct r = .returned (some v.1) ∧
      sourceText groupedFirst (t.span r).start (t.span r).stop = Utf8.encode " return (a) + b;" ∧
        sourceText groupedFirst (t.span v.1).start (t.span v.1).stop = Utf8.encode "a) + b") = true ∧
      ((resolve t).tree.emit (some (.file (.bytes groupedFirst.toArray)))).output =
        Utf8.encode "int f()\x7b\x7b\nint __defer_ret = a) + b;\ng(); return (__defer_ret;\n\x7d \x7d")
    (by decide +kernel)
  obtain ⟨hv, hout⟩ := of_decide_eq_true hcheck
  obtain ⟨v, hv, hr⟩ := List.any_eq_true.1 hv
  obtain ⟨r, hr, htext⟩ := List.any_eq_true.1 hr
  obtain ⟨l, hl, -, -, hemission⟩ := exists_lowered ht
  exact ⟨t, l, ht, hl, ⟨v, hv, r, hr, of_decide_eq_true htext⟩, hemission ▸ hout⟩

end Deferral
