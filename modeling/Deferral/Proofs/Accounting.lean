import Deferral.Proofs.Emitting

/-!
# What becomes of each cut

Writing gives every cut its fate: it is left out on request, it cannot be read, there is nothing to write, or it is
offered to the writer in one piece, which takes it or not (`Range.deeds`). What is written is what the writer took, and
the cuts add up (`Deed.Totals`). Text in place is copied from left to right and never twice, and a cut that cannot be
read might as well not be there (`Range.accounts_of_emit`).
-/

namespace Deferral

open List

/-- What becomes of a cut. -/
inductive Fate where
  | omitted
  | unread
  /-- There is nothing to write. -/
  | blank
  | refused (bytes : List UInt8)
  | taken (bytes : List UInt8)
  deriving DecidableEq, Repr

namespace Fate

/-- What the writer was offered. -/
@[simp] def offered : Fate → List (List UInt8)
  | refused bytes | taken bytes => [bytes]
  | _ => []

/-- What the writer took. -/
@[simp] def accepted : Fate → List (List UInt8)
  | taken bytes => [bytes]
  | _ => []

/-- Whether the cut is left out because of an error. -/
@[simp] def failed : Fate → Bool
  | unread | refused _ => true
  | _ => false

end Fate

/-- A cut, up to where text in place was done before it, and what becomes of it. -/
structure Deed where
  cut : Range
  covered? : Option Nat
  fate : Fate
  deriving DecidableEq, Repr

namespace Deed

/-- The interval of the source that the text of the cut comes from. -/
def origin (d : Deed) : List Span :=
  let start := d.cut.copyStart d.covered?
  if d.cut.replacement?.isNone && start < d.cut.stop then [⟨start, d.cut.stop⟩] else []

/-- The interval that is copied for a cut in place. -/
def copied (d : Deed) : List Span := if d.cut.spliced || d.fate.offered.isEmpty then [] else d.origin

/-- What is offered for a cut is its text with the requests around it, and the text is that of its interval. -/
def Faithful (source? : Option CopySource) (d : Deed) : Prop :=
  ∀ bytes ∈ d.fate.offered, ∃ text, bytes = d.cut.opening ++ (text ++ d.cut.closing) ∧
    ∀ i ∈ d.origin, ∃ buffer, readSource source? buffer i.start i.stop = .ok text

/-- Whether text in place is done up to the end of the cut: it is left out, or it stands in place and could be read. -/
def settles (d : Deed) : Bool :=
  match d.fate with
  | .omitted => true
  | .unread => false
  | _ => !d.cut.spliced

/-- Up to where text in place is done after the cut. -/
def passed (d : Deed) : Option Nat := if d.settles then d.cut.cover d.covered? else d.covered?

/-- An emission is what the writer took, and every cut has its place in the counts. -/
structure Totals (e : Emission) (ds : List Deed) : Prop where
  output : e.output = (ds.flatMap (·.fate.accepted)).flatten
  bytesWritten : e.bytesWritten = e.output.length
  chunks : e.chunks = (ds.flatMap (·.fate.accepted)).length
  failedChunks : e.failedChunks = ds.countP (·.fate.failed)
  all : e.chunks + e.failedChunks + ds.countP (·.cut.actions.omitted) + ds.countP (·.fate == .blank) = ds.length

variable {e e' : Emission} {d : Deed} {ds : List Deed} {i : Span}

theorem countP_cons_toNat (p : Deed → Bool) : (d :: ds).countP p = (p d).toNat + ds.countP p := by
  cases h : p d <;> simp [h, Nat.add_comm]

theorem Totals.cons (h : Totals e ds) (houtput : e'.output = d.fate.accepted.flatten ++ e.output)
    (hbytes : e'.bytesWritten = d.fate.accepted.flatten.length + e.bytesWritten)
    (hchunks : e'.chunks = d.fate.accepted.length + e.chunks)
    (hfailed : e'.failedChunks = d.fate.failed.toNat + e.failedChunks)
    (hone : d.fate.accepted.length + d.fate.failed.toNat + d.cut.actions.omitted.toNat + (d.fate == .blank).toNat = 1) :
    Totals e' (d :: ds) := by
  obtain ⟨ho, hb, hc, hf, hall⟩ := h
  refine ⟨by simp [houtput, ho], by simp [hbytes, hb, houtput], by simp [hchunks, hc], ?_, ?_⟩
  · rw [hfailed, hf, countP_cons_toNat]
  · simp only [countP_cons_toNat, length_cons]
    omega

theorem le_passed (d : Deed) : d.covered?.getD 0 ≤ d.passed.getD 0 := by
  unfold passed
  split
  · exact Nat.le_max_left ..
  · exact le_rfl

theorem pairwise_copied (d : Deed) : d.copied.Pairwise (fun i j => i.stop ≤ j.start) := by
  unfold copied origin
  grind

theorem of_mem_copied (h : i ∈ d.copied) : d.settles = true ∧ d.cut.spliced = false ∧
    i = ⟨d.cut.copyStart d.covered?, d.cut.stop⟩ ∧ i.start < i.stop := by
  simp only [copied, origin] at h
  split at h
  · simp at h
  · rename_i hoffered
    split at h
    · rename_i hlt
      obtain rfl := mem_singleton.1 h
      cases hf : d.fate <;> simp_all [settles]
    · simp at h

end Deed

namespace Range

variable (source? : Option CopySource) (refuse? : Writer)

/-- What becomes of the cut that comes next. -/
def fate (covered? : Option Nat) (writes : Nat) (buffer : Buffer) (cut : Range) : Fate :=
  if cut.actions.omitted then .omitted
  else
    match cut.content source? buffer covered? with
    | .error _ => .unread
    | .ok bytes =>
      if bytes.isEmpty then .blank else if (refuse? writes bytes).isNone then .taken bytes else .refused bytes

/-- What becomes of each cut. -/
def deeds : (covered? : Option Nat) → (writes : Nat) → (buffer : Buffer) → List Range → List Deed
  | _, _, _, [] => []
  | covered?, writes, buffer, cut :: rest =>
    let d : Deed := ⟨cut, covered?, cut.fate source? refuse? covered? writes buffer⟩
    d :: deeds d.passed (writes + d.fate.offered.length) (d.fate.accepted.foldl .write buffer) rest

variable {source? refuse?} {covered? : Option Nat} {writes : Nat} {buffer : Buffer} {cut : Range} {cuts : List Range}
  {d : Deed}

theorem cuts_deeds : (deeds source? refuse? covered? writes buffer cuts).map (·.cut) = cuts := by
  induction cuts generalizing covered? writes buffer with
  | nil => rfl
  | cons cut rest ih => simp [deeds, ih]

theorem totals_emitFrom : Deed.Totals (emitFrom source? refuse? covered? writes buffer cuts)
    (deeds source? refuse? covered? writes buffer cuts) := by
  induction cuts generalizing covered? writes buffer with
  | nil => exact ⟨rfl, rfl, rfl, rfl, rfl⟩
  | cons cut rest ih =>
    rw [emitFrom, deeds, fate]
    cases ho : cut.actions.omitted with
    | true => apply ih.cons <;> simp [Deed.passed, Deed.settles, ho]
    | false =>
      cases hc : cut.content source? buffer covered? with
      | error entry =>
        apply ih.cons <;> simp [Deed.passed, Deed.settles, Emission.failed, ho, Nat.add_comm]
      | ok bytes =>
        have hpassed : (if cut.spliced = true then covered? else cut.cover covered?) =
            if cut.spliced = false then cut.cover covered? else covered? := by cases cut.spliced <;> rfl
        simp only [Bool.false_eq_true, if_false, hpassed]
        cases hb : bytes.isEmpty with
        | true =>
          apply ih.cons <;> simp [Deed.passed, Deed.settles, ho]
        | false =>
          cases hw : refuse? writes bytes <;> apply ih.cons <;>
            simp [Deed.passed, Deed.settles, Emission.wrote, Emission.failed, ho, Nat.add_comm]

theorem exists_text_of_content {bytes : List UInt8} (outcome : Fate)
    (hc : cut.content source? buffer covered? = .ok bytes) :
    ∃ text, bytes = cut.opening ++ (text ++ cut.closing) ∧ ∀ i ∈ Deed.origin ⟨cut, covered?, outcome⟩,
      ∃ buffer, readSource source? buffer i.start i.stop = .ok text := by
  unfold content at hc
  cases hr : cut.replacement? with
  | some text =>
    refine ⟨Utf8.encode text, ?_, by simp [Deed.origin, hr]⟩
    simpa [hr, Except.map, opening, closing] using hc.symm
  | none =>
    by_cases hlt : cut.copyStart covered? < cut.stop
    · cases hread : readSource source? buffer (cut.copyStart covered?) cut.stop with
      | error cause => simp [hr, hlt, hread, Except.map, Except.mapError] at hc
      | ok text =>
        refine ⟨text, ?_, by simpa [Deed.origin, hr, hlt] using ⟨buffer, hread⟩⟩
        simpa [hr, hlt, hread, Except.map, Except.mapError, opening, closing] using hc.symm
    · refine ⟨[], ?_, by simp [Deed.origin, hlt]⟩
      simpa [hr, hlt, Except.map, opening, closing] using hc.symm

theorem faithful_fate : Deed.Faithful source? ⟨cut, covered?, cut.fate source? refuse? covered? writes buffer⟩ := by
  intro bytes hbytes
  apply exists_text_of_content (cut.fate source? refuse? covered? writes buffer)
  simp only [fate] at hbytes
  cases hc : cut.content source? buffer covered? <;> simp only [hc] at hbytes <;> grind [Fate.offered]

theorem exists_fate (h : d ∈ deeds source? refuse? covered? writes buffer cuts) :
    ∃ writes buffer, d = ⟨d.cut, d.covered?, d.cut.fate source? refuse? d.covered? writes buffer⟩ := by
  induction cuts generalizing covered? writes buffer with
  | nil => simp [deeds] at h
  | cons cut rest ih =>
    rw [deeds] at h
    rcases mem_cons.1 h with rfl | h
    · exact ⟨writes, buffer, rfl⟩
    · exact ih h

theorem faithful_deeds (h : d ∈ deeds source? refuse? covered? writes buffer cuts) : d.Faithful source? := by
  obtain ⟨writes, buffer, hd⟩ := exists_fate h
  exact hd ▸ faithful_fate

theorem le_copyStart (hs : cut.spliced = false) (h : cut.copyStart covered? < cut.stop) :
    covered?.getD 0 ≤ cut.copyStart covered? := by
  cases covered? with
  | none => exact Nat.zero_le _
  | some covered =>
    simp only [copyStart, hs, Option.getD_some] at h ⊢
    grind

theorem covered_le {i : Span} (h : d ∈ deeds source? refuse? covered? writes buffer cuts) (hi : i ∈ d.copied) :
    covered?.getD 0 ≤ i.start := by
  induction cuts generalizing covered? writes buffer with
  | nil => simp [deeds] at h
  | cons cut rest ih =>
    rw [deeds] at h
    rcases mem_cons.1 h with rfl | h
    · obtain ⟨-, hs, rfl, hlt⟩ := Deed.of_mem_copied hi
      exact le_copyStart hs hlt
    · exact (Deed.le_passed ⟨cut, covered?, _⟩).trans (ih h)

theorem pairwise_deeds : (deeds source? refuse? covered? writes buffer cuts).Pairwise
    (fun d d' => d.settles = true → ∀ i ∈ d'.copied, d.cut.stop ≤ i.start) := by
  induction cuts generalizing covered? writes buffer with
  | nil => exact .nil
  | cons cut rest ih => exact .cons (fun d hd hs i hi => by
    have hle := covered_le hd hi
    rw [Deed.passed, if_pos hs] at hle
    exact (Nat.le_max_right ..).trans hle) ih

theorem deeds_without {before after : List Deed}
    (h : deeds source? refuse? covered? writes buffer cuts = before ++ d :: after) (hd : d.fate = .unread) :
    deeds source? refuse? covered? writes buffer (cuts.eraseIdx before.length) = before ++ after := by
  induction cuts generalizing covered? writes buffer before with
  | nil => simp [deeds] at h
  | cons cut rest ih =>
    rw [deeds] at h
    cases before with
    | nil =>
      obtain ⟨rfl, rfl⟩ := List.cons.inj h
      simp only at hd
      simp [hd, Deed.passed, Deed.settles]
    | cons first before =>
      obtain ⟨rfl, hrest⟩ := List.cons.inj h
      rw [length_cons, eraseIdx_cons_succ, deeds, ih hrest]
      rfl

/-- Every cut is accounted for. What the writer takes is the output, text in place is copied once and in order, and a
cut that cannot be read makes no difference to the others. -/
theorem accounts_of_emit (source? : Option CopySource) (refuse? : Writer) (cuts : List Range) :
    let ds := deeds source? refuse? none 0 {} cuts
    let e := emit source? refuse? cuts
    ds.map (·.cut) = cuts ∧ (∀ d ∈ ds, d.Faithful source?) ∧ Deed.Totals e ds ∧
      (∀ i ∈ ds.flatMap Deed.copied, i.start < i.stop) ∧
      (ds.flatMap Deed.copied).Pairwise (fun i j => i.stop ≤ j.start) ∧
      ds.Pairwise (fun d d' => d.settles = true → ∀ i ∈ d'.copied, d.cut.stop ≤ i.start) ∧
      ∀ before d after, ds = before ++ d :: after → d.fate = .unread →
        deeds source? refuse? none 0 {} (cuts.eraseIdx before.length) = before ++ after ∧
          (emit source? refuse? (cuts.eraseIdx before.length)).output = e.output := by
  intro ds e
  have htotals : Deed.Totals e ds := totals_emitFrom
  refine ⟨cuts_deeds, fun d hd => faithful_deeds hd, htotals, fun i hi => ?_, ?_, pairwise_deeds,
    fun before d after hds hd => ?_⟩
  · obtain ⟨d, -, hi⟩ := mem_flatMap.1 hi
    exact (Deed.of_mem_copied hi).2.2.2
  · refine pairwise_flatMap.2 ⟨fun d _ => d.pairwise_copied,
      pairwise_deeds.imp fun h i hi j hj => ?_⟩
    obtain ⟨hs, -, rfl, -⟩ := Deed.of_mem_copied hi
    exact h hs j hj
  · have hrest := deeds_without hds hd
    have hwithout : Deed.Totals (emit source? refuse? (cuts.eraseIdx before.length)) _ := totals_emitFrom
    refine ⟨hrest, ?_⟩
    rw [hwithout.output, htotals.output, hrest, hds]
    simp [hd]

/-- Cuts that overlap, one that is left out, one from elsewhere, one past the end, one that is too long, and one of
which nothing is left. -/
def uneven : List Range :=
  [⟨0, 3, .group, 0, { braceBefore := true }, false, none, none⟩,
    ⟨2, 5, .deferred, 0, { omitted := true }, false, none, none⟩,
    ⟨0, 2, .suffixed, 0, { semicolonAfter := true }, true, none, none⟩, ⟨8, 12, .constant, 0, {}, false, none, none⟩,
    ⟨4, 7, .identifier, 0, {}, false, none, none⟩, ⟨6, 8, .returned, 0, {}, false, none, some "stored"⟩,
    ⟨1, 8, .scope, 0, {}, false, none, none⟩]

def tenBytes : CopySource := .file (.bytes #[0, 1, 2, 3, 4, 5, 6, 7, 8, 9])

theorem accounts_uneven :
    (deeds tenBytes (.limited 4) none 0 {} uneven).map (·.fate) = [.taken [123, 0, 1, 2], .omitted, .taken [0, 1, 59],
      .unread, .taken [5, 6], .refused [115, 116, 111, 114, 101, 100], .blank] ∧
    (deeds tenBytes (.limited 4) none 0 {} uneven).flatMap Deed.copied = [⟨0, 3⟩, ⟨5, 7⟩] ∧
    (emit tenBytes (.limited 4) (uneven.eraseIdx 3)).output = (emit tenBytes (.limited 4) uneven).output := by
  obtain ⟨-, -, -, -, -, -, hwithout⟩ := accounts_of_emit tenBytes (.limited 4) uneven
  refine ⟨by decide +kernel, by decide +kernel, ?_⟩
  have hsplit : deeds tenBytes (.limited 4) none 0 {} uneven = (deeds tenBytes (.limited 4) none 0 {} uneven).take 3 ++
      ⟨⟨8, 12, .constant, 0, {}, false, none, none⟩, some 5, .unread⟩ ::
        (deeds tenBytes (.limited 4) none 0 {} uneven).drop 4 := by decide +kernel
  exact (hwithout _ _ _ hsplit rfl).2

end Range

end Deferral
