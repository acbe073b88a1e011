import Deferral.Proofs.Accounting
import Deferral.Proofs.Squashing

/-!
# What a range with others below it asks for

A range with others below it is cut into text around them. What it asks for behind its text goes to the last of these
cuts, so it is written once and at the end. What it asks for before its text goes to the first of them. That is the
first thing that is written, unless ranges from elsewhere come before all its text. The text that should lead it is not
written at all (`Range.requests_of_container`).
-/

namespace Deferral.Range

open List

/-! ## Cuts around what is below a range -/

/-- Text of a range, and perhaps cuts and more of its text after them. -/
structure Wrapping where
  first : Span
  more? : Option (List Range × Span)

/-- The cuts of `c`, with `head` before its text and `tail` behind it. -/
def Wrapping.cuts (w : Wrapping) (c : Range) (head tail : Actions) : List Range :=
  match w.more? with
  | none => (gap c w.first.start w.first.stop (head.union tail)).cuts
  | some (between, last) =>
    (gap c w.first.start w.first.stop head).cuts ++ between ++ (gap c last.start last.stop tail).cuts

/-- The range with other requests and another text to lead it. -/
def asking (c : Range) (a : Actions) (lead? : Option String) : Range := { c with actions := a, lead? }

variable {c child : Range} {rest before after : List Range} {a : Actions}

theorem squash_below_append (h : child.beyond rest = before ++ after) :
    squash (child :: (child.below rest ++ before)) = cutOne child (child.below rest) ++ squash before := by
  have hends : ∀ x ∈ before.head?, x.depth ≤ child.depth := fun x hx => by
    have hx : x ∈ (child.beyond rest).head? := by rw [h, head?_append, hx]; rfl
    exact depth_le_of_head_beyond hx
  obtain ⟨hbelow, hbeyond⟩ := below_append (fun _ => depth_lt_of_mem_below) hends
  rw [squash_cons, hbelow, hbeyond]

/-- Around what is below a range, its requests are where they belong, and all else does not depend on them. -/
theorem exists_wrapping (c : Range) (run : List Range) (cursor : Nat) : ∃ before after, run = before ++ after ∧
    (before = [] ↔ ∀ child ∈ run.head?, (textEnd? c child (child.beyond run.tail)).isSome = true) ∧
    ∃ w : Wrapping, ∀ a lead? head, (cutRun (c.asking a lead?) cursor head run).cuts =
      (squash before).cuts ++ w.cuts c head a.trailing := by
  induction run using depthInduction generalizing cursor with
  | nil => exact ⟨[], [], rfl, by simp, ⟨⟨cursor, max c.stop cursor⟩, none⟩, fun _ _ _ => rfl⟩
  | cons child rest _ ih =>
    obtain ⟨before, after, hsplit, -, w, hw⟩ :=
      ih ((approach c cursor {} child (textEnd? c child (child.beyond rest))).pass child)
    cases hu : textEnd? c child (child.beyond rest) with
    | none =>
      -- No text goes before the child, and what is asked for is still to be written.
      refine ⟨child :: (child.below rest ++ before), after, ?_, by simp [hu], w, fun a lead? head => ?_⟩
      · rw [cons_append, append_assoc, ← hsplit, below_append_beyond]
      · rw [squash_below_append hsplit, Cuts.cuts_append, append_assoc, ← hw a lead? head, hu, cutRun_cons,
          show textEnd? (c.asking a lead?) child _ = none from hu]
        rfl
    | some upto =>
      -- The text before the child takes what is asked for.
      obtain ⟨between, last, hlast⟩ : ∃ (between : List Range) (last : Span), ∀ tail, w.cuts c {} tail =
          between ++ (gap c last.start last.stop tail).cuts := by
        obtain ⟨first, _ | ⟨between, last⟩⟩ := w
        · exact ⟨[], first, fun tail => by simp [Wrapping.cuts, Actions.union]⟩
        · exact ⟨_, last, fun _ => rfl⟩
      refine ⟨[], child :: rest, rfl, by simp [hu], ⟨⟨cursor, max upto cursor⟩,
        some ((cutOne child (child.below rest)).cuts ++ ((squash before).cuts ++ between), last)⟩,
          fun a lead? head => ?_⟩
      have hbefore : (approach (c.asking a lead?) cursor head child (some upto)).before.cuts =
          (gap c cursor (max upto cursor) head).cuts := by
        simp only [approach, Cuts.cuts_append]
        split <;> rfl
      have hafter := hw a lead? {}
      rw [hlast, hu] at hafter
      simp only [Wrapping.cuts, squash_nil, nil_append, append_assoc, ← hafter, ← hbefore]
      rw [cutRun_cons, show textEnd? (c.asking a lead?) child _ = some upto from hu]
      simp only [Cuts.cuts_append, append_assoc]
      rfl

/-! ## Writing these cuts -/

/-- What was taken for some cuts. -/
def taken (ds : List Deed) : List UInt8 := (ds.flatMap (·.fate.accepted)).flatten

@[simp] theorem taken_append (ds es : List Deed) : taken (ds ++ es) = taken ds ++ taken es := by simp [taken]

/-- The cut was not lost: if it is not left out on request, its text is taken with the requests around it. -/
def Kept (d : Deed) : Prop := d.cut.actions.omitted = false →
  ∃ text, d.fate.accepted.flatten = d.cut.opening ++ (text ++ d.cut.closing)

theorem kept_of_mem {source? : Option CopySource} {refuse? : Writer} {covered? : Option Nat} {writes : Nat}
    {buffer : Buffer} {cuts : List Range} {d : Deed} (h : d ∈ deeds source? refuse? covered? writes buffer cuts)
    (hd : ¬d.fate.failed = true) : Kept d := by
  intro ho
  obtain ⟨writes, buffer, hfate⟩ := exists_fate h
  rw [congrArg Deed.fate hfate] at hd ⊢
  cases hc : d.cut.content source? buffer d.covered? with
  | error entry => simp [fate, ho, hc] at hd
  | ok bytes =>
    obtain ⟨text, htext, -⟩ := exists_text_of_content .blank hc
    refine ⟨text, htext ▸ ?_⟩
    simp only [fate, ho, hc] at hd ⊢
    grind [Fate.accepted, Fate.failed]

theorem deeds_prefix {source? : Option CopySource} {refuse? : Writer} {covered? : Option Nat} {writes : Nat}
    {buffer : Buffer} (xs ys : List Range) :
    deeds source? refuse? covered? writes buffer xs <+: deeds source? refuse? covered? writes buffer (xs ++ ys) := by
  induction xs generalizing covered? writes buffer with
  | nil => exact nil_prefix
  | cons cut xs ih => exact cons_prefix_cons.2 ⟨rfl, ih⟩

theorem opening_trailing : (c.asking a.trailing none).opening = [] := by
  have : Utf8.encode "" = [] := by decide +kernel
  simp [opening, asking, Actions.trailing, this]

variable {ds : List Deed}

theorem exists_taken_gap {lo hi : Nat} (hcuts : ds.map (·.cut) = (gap c lo hi a).cuts) (ha : a.omitted = false)
    (h : ∀ d ∈ ds, Kept d) : ∃ text, taken ds = (c.asking a none).opening ++ (text ++ (c.asking a none).closing) := by
  unfold gap at hcuts
  split at hcuts
  · obtain ⟨d, ds, rfl, hd, hnil⟩ := map_eq_cons_iff.1 hcuts
    obtain rfl := map_eq_nil_iff.1 hnil
    obtain ⟨text, htext⟩ := h d mem_cons_self (hd ▸ ha)
    rw [hd] at htext
    exact ⟨text, (congrArg List.flatten (flatMap_singleton ..)).trans htext⟩
  · next hgap =>
    simp only [Bool.or_eq_true, Bool.not_eq_true', not_or, Bool.not_eq_false] at hgap
    obtain rfl : a = {} := beq_iff_eq.1 hgap.2
    obtain rfl := map_eq_nil_iff.1 hcuts
    exact ⟨[], (congrArg (· ++ []) (opening_trailing (a := {}))).symm⟩

theorem exists_taken_wrapping {w : Wrapping} (hcuts : ds.map (·.cut) = w.cuts c a.leading a.trailing)
    (h : ∀ d ∈ ds, Kept d) : ∃ text, taken ds = (c.asking a none).opening ++ (text ++ (c.asking a none).closing) := by
  obtain ⟨first, _ | ⟨between, last⟩⟩ := w
  · rw [Wrapping.cuts, show a.leading.union a.trailing = { a with omitted := false } by
      simp [Actions.union, Actions.leading, Actions.trailing]] at hcuts
    exact exists_taken_gap (a := { a with omitted := false }) hcuts rfl h
  · obtain ⟨_, ds₃, rfl, hrest, hlast⟩ := map_eq_append_iff.1 hcuts
    obtain ⟨ds₁, ds₂, rfl, hfirst, -⟩ := map_eq_append_iff.1 hrest
    simp only [forall_mem_append] at h
    obtain ⟨t, ht⟩ := exists_taken_gap hfirst rfl h.1.1
    obtain ⟨t', ht'⟩ := exists_taken_gap hlast rfl h.2
    refine ⟨t ++ taken ds₂ ++ t', ?_⟩
    rw [taken_append, taken_append, ht, ht', show (c.asking a.leading none).closing = [] from rfl,
      opening_trailing]
    simp only [append_assoc, append_nil, nil_append]
    rfl

/-- **What a range asks for is written once, around its text.** What it asks for after its text comes last. What it asks
for before its text comes first, or, if the first range below it is from elsewhere and text goes only after it, behind
what precedes all its text. The text that should lead it is not written, so it might as well be another one. -/
theorem requests_of_container (c child : Range) (rest : List Range) (hdeep : ∀ r ∈ child :: rest, c.depth < r.depth) :
    ∃ before after, child :: rest = before ++ after ∧
      (before = [] ↔ child.spliced = false ∨ ∃ r ∈ child.beyond rest, r.depth = c.depth + 1 ∧ r.spliced = false) ∧
      ∃ w : Wrapping, ∀ a lead?,
        let cuts := (squash (c.asking a lead? :: child :: rest)).cuts
        cuts = (squash before).cuts ++ w.cuts c a.leading a.trailing ∧
        ∀ source? refuse?, (emit source? refuse? cuts).failedChunks = 0 → ∃ text,
          (emit source? refuse? cuts).output = (emit source? refuse? (squash before).cuts).output ++
            ((c.asking a none).opening ++ (text ++ (c.asking a none).closing)) := by
  obtain ⟨before, after, hsplit, hnil, w, hw⟩ := exists_wrapping c (child :: rest) c.start
  refine ⟨before, after, hsplit, ?_, w, fun a lead? => ?_⟩
  · cases hs : child.spliced <;> simp [hnil, textEnd?, hs, find?_isSome]
  · have hcuts : (cutOne (c.asking a lead?) (child :: rest)).cuts = _ := hw a lead? a.leading
    rw [squash_deeper (r := c.asking a lead?) hdeep, hcuts]
    refine ⟨rfl, fun source? refuse? hfailed => ?_⟩
    obtain ⟨ds, hds⟩ : deeds source? refuse? none 0 {} (squash before).cuts <+: _ :=
      deeds_prefix _ (w.cuts c a.leading a.trailing)
    have hall : Deed.Totals (emit source? refuse? ((squash before).cuts ++ w.cuts c a.leading a.trailing)) _ :=
      hds ▸ totals_emitFrom
    have hbefore : Deed.Totals (emit source? refuse? (squash before).cuts) _ := totals_emitFrom
    have hcuts := congrArg (List.map (·.cut)) hds
    rw [map_append, cuts_deeds, cuts_deeds, append_cancel_left_eq] at hcuts
    have hfine := countP_eq_zero.1 (hall.failedChunks.symm.trans hfailed)
    obtain ⟨text, htext⟩ := exists_taken_wrapping hcuts fun d hd =>
      kept_of_mem (hds ▸ mem_append_right _ hd) (hfine d (mem_append_right _ hd))
    exact ⟨text, by rw [hall.output, hbefore.output, ← htext]; exact taken_append ..⟩

/-- A range with a text to lead it, and another range in it. -/
def led : List Range := [⟨0, 2, .scope, 0, { braceBefore := true }, false, some "P", none⟩,
  ⟨1, 2, .identifier, 1, {}, false, none, none⟩]

/-- A range in braces. -/
def block : Range := ⟨0, 2, .scope, 0, { braceBefore := true, braceAfter := true }, false, none, none⟩

/-- The same with another one from elsewhere in it. -/
def braced : List Range := [block, ⟨0, 1, .identifier, 1, {}, true, none, none⟩]

/-- What is written for ranges of a source of two bytes. -/
def writing (rs : List Range) : Emission := emit (some (.file (.bytes #[97, 98]))) .acceptAll (squash rs).cuts

/-- The text that leads a range is lost, and its brace comes after text from elsewhere. -/
theorem not_wraps_led_braced : ¬∃ rs ∈ [led, braced], ∃ c ∈ rs.head?, ∃ text,
    (writing rs).output = c.opening ++ (text ++ c.closing) := by
  have hled : (writing led).output = [123, 97, 98] := by decide +kernel
  have hbraced : (writing braced).output = [97, 123, 97, 98, 10, 125] := by decide +kernel
  rintro ⟨rs, hrs, c, hc, text, h⟩
  rcases mem_pair.1 hrs with rfl | rfl
  · cases hc
    rw [hled, show opening _ = [123, 80] by decide +kernel] at h
    cases h
  · cases hc
    rw [hbraced, show opening _ = [123] by decide +kernel] at h
    cases h

theorem requests_of_braced : ∃ before, before ≠ [] ∧ ∃ text,
    (writing braced).output = (writing before).output ++ (block.opening ++ (text ++ block.closing)) := by
  obtain ⟨before, _, -, hnil, _, hall⟩ :=
    requests_of_container block ⟨0, 1, .identifier, 1, {}, true, none, none⟩ [] (by decide)
  exact ⟨before, fun h => absurd (hnil.1 h) (by decide), (hall block.actions none).2 _ _ (by decide +kernel)⟩

end Deferral.Range
