import Deferral.Proofs.Emitting
import Deferral.Proofs.Squashing

/-!
# Overlapping ranges

Ranges may overlap, come out of order or stick out of the range they are below. Each cut then still starts in text that
is written already, or right after it, so that writing goes on to the right and nothing is skipped or written twice
(`Range.Advances`). What cutting a range keeps as its cursor is never ahead of what is written
(`Range.advances_cutRun`).
-/

namespace Deferral.Range

open List

/-! ## The greatest end -/

/-- The greatest of `p` and the ends of the ranges. -/
def reach (p : Nat) (rs : List Range) : Nat := (rs.map (·.stop)).foldl max p

section Reach

variable {p q : Nat} {rs : List Range}

theorem reach_cons (r : Range) : reach p (r :: rs) = reach (max p r.stop) rs := rfl

theorem reach_append (rs rs' : List Range) : reach p (rs ++ rs') = reach (reach p rs) rs' := by
  simp [reach, foldl_append]

theorem max_reach : max (reach p rs) q = reach (max p q) rs := by
  induction rs generalizing p with
  | nil => rfl
  | cons r rs ih => rw [reach_cons, reach_cons, ih, Nat.max_right_comm]

theorem le_reach : p ≤ reach p rs := by
  have h : max (reach p rs) p = reach p rs := by rw [max_reach, Nat.max_self]
  omega

end Reach

/-! ## Writing to the right -/

/-- With the text from `lo` to `p` written, the cuts go on to `q`: each starts where text is written already, or where
it ends. -/
inductive Advances (lo : Nat) : Nat → List Range → Nat → Prop
  | nil (p : Nat) : Advances lo p [] p
  | cons {p q : Nat} {c : Range} {cs : List Range} (plain : c.IsPlain) (first : lo ≤ c.start) (reached : c.start ≤ p)
    (rest : Advances lo (max p c.stop) cs q) : Advances lo p (c :: cs) q

namespace Advances

variable {lo p q r : Nat} {cs ds : List Range}

theorem trans (h : Advances lo p cs q) (h' : Advances lo q ds r) : Advances lo p (cs ++ ds) r := by
  induction h with
  | nil => exact h'
  | cons plain first reached _ ih => exact .cons plain first reached (ih h')

theorem le (h : Advances lo p cs q) : p ≤ q := by
  induction h with
  | nil => exact le_rfl
  | cons _ _ _ _ ih => omega

theorem single {c : Range} (plain : c.IsPlain) (first : lo ≤ c.start) (reached : c.start ≤ p) :
    Advances lo p [c] (max p c.stop) := .cons plain first reached (.nil _)

end Advances

theorem advances_gap (c : Range) (hi : Nat) {lo cursor p : Nat} (hlo : lo ≤ cursor) (hp : cursor ≤ p) :
    Advances lo p (gap c cursor (max hi cursor) {}).cuts (max p hi) := by
  by_cases h : cursor < hi
  · have hmax : max hi cursor = hi := Nat.max_eq_left h.le
    have hcuts : (gap c cursor hi {}).cuts =
        [{ start := cursor, stop := max hi cursor, tag := c.tag, depth := 0 }] := by
      rw [gap, if_pos (by simp [h])]
    rw [hmax, hcuts, hmax]
    exact .single ⟨⟨rfl, rfl, rfl, rfl⟩, h⟩ hlo hp
  · have hmax : max hi cursor = cursor := Nat.max_eq_right (Nat.le_of_not_lt h)
    have hcuts : (gap c cursor cursor {}).cuts = [] := by
      rw [gap, if_neg (by simp; rfl)]
    rw [hmax, hcuts, Nat.max_eq_left (by omega)]
    exact .nil p

section Cutting

variable {lo p : Nat}

theorem advances_cutOne {r : Range} {below : List Range} (hr : r.IsPlain) (hlo : lo ≤ r.start) (hp : r.start ≤ p)
    (h : Advances lo p (cutRun r r.start {} below).cuts (max (reach p below) r.stop)) :
    Advances lo p (cutOne r below).cuts (max (reach p below) r.stop) := by
  by_cases hb : below.isEmpty
  · obtain rfl : below = [] := isEmpty_iff.1 hb
    exact .single ⟨⟨hr.inPlace, hr.requests, hr.lead, hr.own⟩, hr.filled⟩ hlo hp
  · rw [cutOne, if_neg hb, hr.requests]
    exact h

/-- Cutting a range around others, with its cursor in written text, writes up to the greatest end of all. -/
theorem advances_cutRun {run : List Range} {c : Range} {cursor : Nat} (hc : c.actions = {})
    (hrun : ∀ x ∈ run, x.IsPlain ∧ lo ≤ x.start) (hlo : lo ≤ cursor) (hp : cursor ≤ p) :
    Advances lo p (cutRun c cursor {} run).cuts (max (reach p run) c.stop) := by
  induction run using depthInduction generalizing c cursor p with
  | nil =>
    rw [cutRun_nil, hc]
    exact advances_gap c _ hlo hp
  | cons child rest ihb iha =>
    obtain ⟨⟨hchild, hfirst⟩, hrest⟩ := forall_mem_cons.1 hrun
    rw [← below_append_beyond child rest] at hrest
    obtain ⟨hbelow, hbeyond⟩ := forall_mem_append.1 hrest
    have hfilled := hchild.filled
    have hcuts : cutRun c cursor {} (child :: rest) =
        (approach c cursor {} child (some child.start)).before ++ cutOne child (child.below rest) ++
          cutRun c (max (max cursor child.start) child.stop) {} (child.beyond rest) := by
      rw [cutRun_cons, textEnd?, hchild.inPlace, if_neg Bool.false_ne_true]
      simp only [approach, Approach.pass, hchild.inPlace, Bool.false_eq_true, if_false]
    have hbefore : Advances lo p (approach c cursor {} child (some child.start)).before.cuts (max p child.start) := by
      have hgap := advances_gap c child.start hlo hp
      simp only [approach, Cuts.cuts_append]
      split
      · exact hgap
      · exact hgap
    have hone := advances_cutOne hchild hfirst (Nat.le_max_right p child.start)
      (ihb hchild.requests hbelow hfirst (Nat.le_max_right p child.start))
    -- What is written so far is at least up to the cursor that cutting goes on with.
    have hreach : max (reach (max p child.start) (child.below rest)) child.stop =
        reach (max p child.stop) (child.below rest) := by
      rw [max_reach, Nat.max_assoc, Nat.max_eq_right hfilled.le]
    have hle : max p child.stop ≤ reach (max p child.stop) (child.below rest) := le_reach
    rw [hreach] at hone
    have hafter := iha (p := reach (max p child.stop) (child.below rest)) hc hbeyond
      (show lo ≤ max (max cursor child.start) child.stop by omega) (by omega)
    rw [← reach_append, below_append_beyond] at hafter
    rw [hcuts, Cuts.cuts_append, Cuts.cuts_append]
    exact (hbefore.trans hone).trans hafter

end Cutting

/-! ## What is written -/

theorem content_of_covered {source : List UInt8} {c : Range} {p : Nat} {buffer : Buffer} {covered? : Option Nat}
    (hc : c.IsPlain) (hstop : c.stop ≤ source.length)
    (hcopy : c.copyStart covered? = min p c.stop) :
    c.content (some (.file (.bytes source.toArray))) buffer covered? = .ok (sourceText source p (max p c.stop)) := by
  have htext : sourceText source (min p c.stop) c.stop = sourceText source p (max p c.stop) := by
    rcases Nat.le_total p c.stop with h | h
    · rw [Nat.min_eq_left h, Nat.max_eq_right h]
    · rw [sourceText_empty (by omega), sourceText_empty (by omega)]
  unfold content
  simp only [hcopy, read_eq _ hstop, htext, hc.own, hc.requests, hc.lead]
  simp [Except.map, Utf8.encode]

/-- Cuts that advance write the text they advance over. Before the first cut nothing is covered, and it starts where the
text does. -/
theorem Advances.wrote {source : List UInt8} {lo p q writes : Nat} {cuts : List Range} {covered? : Option Nat}
    {buffer : Buffer} (h : Advances lo p cuts q) (hq : q ≤ source.length)
    (hc : covered? = some p ∨ covered? = none ∧ p = lo) :
    Wrote (emitFrom (some (.file (.bytes source.toArray))) .acceptAll covered? writes buffer cuts)
      (sourceText source p q) := by
  induction h generalizing covered? writes buffer with
  | nil p =>
    rw [sourceText_empty le_rfl]
    exact ⟨rfl, rfl, rfl, rfl⟩
  | @cons p q c cs plain first reached rest ih =>
    have hfilled := plain.filled
    have hle := rest.le
    have hcopy : c.copyStart covered? = min p c.stop := by
      rcases hc with rfl | ⟨rfl, rfl⟩
      · rw [copyStart]
        simp only [plain.inPlace, Bool.not_false, Bool.true_and, decide_eq_true_eq]
        split
        · rfl
        · omega
      · rw [copyStart]
        omega
    have hcover : c.cover covered? = some (max p c.stop) := by
      rcases hc with rfl | ⟨rfl, rfl⟩
      · rfl
      · rw [cover, Option.getD_none, Nat.zero_max, Nat.max_eq_right (by omega)]
    have hshown : c.actions.omitted = false := by rw [plain.requests]
    rw [← sourceText_append (Nat.le_max_left p c.stop) hle]
    refine emitFrom_shown hshown (content_of_covered plain (by omega) hcopy) fun writes buffer => ?_
    rw [if_neg (by simp [plain.inPlace])]
    exact ih hq (.inl hcover)

/-- **Overlapping ranges neither lose nor repeat text.** If all ranges after the first are deeper and start no earlier,
and all are plain text of the source, then writing their cuts writes the source once from the start of the first range
to the greatest end, however the ranges overlap, whatever their order and their depths. -/
theorem wrote_overlapping {source : List UInt8} {r : Range} {rest : List Range} {m : Nat}
    (deeper : ∀ x ∈ rest, r.depth < x.depth) (plain : ∀ x ∈ r :: rest, x.IsPlain)
    (first : ∀ x ∈ rest, r.start ≤ x.start) (bound : ∀ x ∈ r :: rest, x.stop ≤ source.length)
    (hm : ((r :: rest).map (·.stop)).max? = some m) :
    Wrote (emit (some (.file (.bytes source.toArray))) .acceptAll (squash (r :: rest)).cuts)
      (sourceText source r.start m) := by
  obtain ⟨hr, hrest⟩ := forall_mem_cons.1 plain
  have hfilled := hr.filled
  have hmem : m ∈ (r :: rest).map (·.stop) := max?_mem hm
  have hbound : m ≤ source.length := by
    obtain ⟨x, hx, rfl⟩ := mem_map.1 hmem
    exact bound x hx
  have hreach : max (reach r.start rest) r.stop = m := by
    rw [map_cons, max?_cons', Option.some.injEq] at hm
    rw [max_reach, Nat.max_eq_right hfilled.le, ← hm]
    rfl
  have hrun := advances_cutRun hr.requests (fun x hx => ⟨hrest x hx, first x hx⟩) le_rfl
    le_rfl
  have hone := advances_cutOne hr le_rfl le_rfl hrun
  rw [hreach] at hone
  rw [squash_deeper deeper]
  exact hone.wrote hbound (.inr ⟨rfl, rfl⟩)

/-- Ranges that overlap, come out of order, stick out and skip depths. -/
def tangled : List Range := [⟨6, 9, .suffixed, 3, {}, false, none, none⟩, ⟨3, 5, .identifier, 1, {}, false, none, none⟩,
  ⟨4, 8, .identifier, 4, {}, false, none, none⟩, ⟨2, 4, .constant, 2, {}, false, none, none⟩]

theorem wrote_tangled : Wrote (emit (some (.file (.bytes [0, 1, 2, 3, 4, 5, 6, 7, 8, 9].toArray))) .acceptAll
    (squash (⟨2, 7, .group, 0, {}, false, none, none⟩ :: tangled)).cuts) [2, 3, 4, 5, 6, 7, 8] := by
  have hplain : ∀ x ∈ (⟨2, 7, .group, 0, {}, false, none, none⟩ :: tangled : List Range), x.spliced = false ∧
      x.actions = {} ∧ x.lead? = none ∧ x.replacement? = none ∧ x.start < x.stop := by decide
  refine wrote_overlapping (m := 9) (by decide) (fun x hx => ?_) (by decide) (by decide) (by decide)
  obtain ⟨hplace, hactions, hlead, hown, hfilled⟩ := hplain x hx
  exact ⟨⟨hplace, hactions, hlead, hown⟩, hfilled⟩

end Deferral.Range
