import Deferral.Output.Emission
import Deferral.Proofs.Cutting

/-!
# Writing contiguous cuts

What is written for cuts is made of pieces: text that stands for the source, and text that was made up around it. If the
cuts at their own place are contiguous, writing them succeeds and gives all pieces in order (`Range.emit_eq`). With
the made-up pieces erased, the output is the source rewritten at the places that the cuts mark
(`Range.erased_eq_rewrite`).
-/

namespace Deferral

open List

/-- The text of a source from `start` to `stop`. -/
def sourceText (source : List UInt8) (start stop : Nat) : List UInt8 := (source.toArray.extract start stop).toList

section SourceText

variable {source : List UInt8} {p q r : Nat}

theorem sourceText_append (hp : p ≤ q) (hq : q ≤ r) :
    sourceText source p q ++ sourceText source q r = sourceText source p r := by
  simp only [sourceText]
  rw [← Array.toList_append, Array.extract_append_extract, Nat.min_eq_left hp, Nat.max_eq_right hq]

theorem sourceText_empty (h : q ≤ p) : sourceText source p q = [] := by
  simp [sourceText, h]

theorem sourceText_all : sourceText source 0 source.length = source := by simp [sourceText]

end SourceText

/-! ## Pieces of the output -/

/-- A piece of the output. -/
structure Piece where
  /-- Whether it was made up, as opposed to standing for text of the source. -/
  madeUp : Bool
  bytes : List UInt8

namespace Range

/-- What is written before the text of a cut. -/
def opening (cut : Range) : List UInt8 :=
  (if cut.actions.braceBefore then ['\x7b'.toUInt8] else []) ++
    (if cut.actions.newlineBefore then ['\n'.toUInt8] else []) ++ Utf8.encode (cut.lead?.getD "")

/-- What is written after the text of a cut. -/
def closing (cut : Range) : List UInt8 :=
  (if cut.actions.semicolonAfter then [';'.toUInt8] else []) ++
    (if cut.actions.braceAfter then ['\n'.toUInt8, '\x7d'.toUInt8] else [])

/-- The text of a cut. -/
def text (source : List UInt8) (cut : Range) : List UInt8 :=
  match cut.replacement? with
  | some text => Utf8.encode text
  | none => sourceText source cut.start cut.stop

/-- The pieces of a cut. All of a spliced cut is made up. -/
def pieces (source : List UInt8) (cut : Range) : List Piece :=
  if cut.actions.omitted then []
  else [⟨true, cut.opening⟩, ⟨cut.spliced, cut.text source⟩, ⟨true, cut.closing⟩]

/-- What is written for a cut. -/
def written (source : List UInt8) (cut : Range) : List UInt8 := (cut.pieces source).flatMap (·.bytes)

theorem written_omitted {source : List UInt8} {cut : Range} (h : cut.actions.omitted = true) :
    cut.written source = [] := by simp [written, pieces, h]

theorem written_shown {source : List UInt8} {cut : Range} (h : cut.actions.omitted = false) :
    cut.written source = cut.opening ++ (cut.text source ++ cut.closing) := by simp [written, pieces, h]

/-! ## Writing -/

section Writing

variable {source : List UInt8} {cut : Range} {lo hi : Nat} {covered? : Option Nat} {buffer : Buffer}

theorem copyStart_eq (h : cut.spliced = true ∨ covered?.getD 0 ≤ cut.start) : cut.copyStart covered? = cut.start := by
  cases covered? with
  | none => rfl
  | some covered =>
    rcases h with h | h
    · simp [copyStart, h]
    · have hn : ¬cut.start < covered := by simpa using h
      simp [copyStart, hn]

theorem getD_cover (h : covered?.getD 0 ≤ cut.stop) : (cut.cover covered?).getD 0 = cut.stop := by
  simp [cover, Nat.max_eq_right h]

theorem read_eq (start : Nat) (hs : cut.stop ≤ source.length) :
    (if start < cut.stop then
      (readSource (some (.file (.bytes source.toArray))) buffer start cut.stop).mapError (·.entry ⟨start, cut.stop⟩)
      else .ok []) = (.ok (sourceText source start cut.stop) : Except Log.Entry (List UInt8)) := by
  split
  · rw [readSource, slice, if_pos (by simpa using hs)]; rfl
  · rw [sourceText_empty (by omega)]

theorem content_eq (h : cut.spliced = true ∨ covered?.getD 0 ≤ cut.start) (hs : cut.stop ≤ source.length) :
    cut.content (some (.file (.bytes source.toArray))) buffer covered? =
      .ok (cut.opening ++ (cut.text source ++ cut.closing)) := by
  unfold content
  simp only [copyStart_eq h, read_eq _ hs]
  cases hr : cut.replacement? <;> simp [hr, text, opening, closing, Except.map, append_assoc]

/-- Cuts that can be written in full: those in place are contiguous from `lo` to `hi`, and the spliced ones take their
text from the source. -/
structure Writable (source : List UInt8) (lo hi : Nat) (cuts : List Range) : Prop where
  contiguous : Contiguous lo hi cuts
  bound : hi ≤ source.length
  spliced : ∀ c ∈ cuts, c.spliced = true → c.actions.omitted = false ∧ c.stop ≤ source.length

/-- An emission without failure that has written the given bytes. -/
structure Wrote (e : Emission) (bytes : List UInt8) : Prop where
  output : e.output = bytes
  bytesWritten : e.bytesWritten = bytes.length
  failedChunks : e.failedChunks = 0
  log : e.log = []

theorem Wrote.wrote {e : Emission} {bytes rest : List UInt8} (h : Wrote e rest) :
    Wrote (.wrote bytes e) (bytes ++ rest) :=
  ⟨by simp [Emission.wrote, h.output], by simp [Emission.wrote, h.bytesWritten], h.failedChunks, h.log⟩

theorem emitFrom_shown {rest : List Range} {writes : Nat} {bytes more : List UInt8}
    (hshown : cut.actions.omitted = false)
    (hread : cut.content (some (.file (.bytes source.toArray))) buffer covered? = .ok bytes)
    (h : ∀ writes buffer, Wrote (emitFrom (some (.file (.bytes source.toArray))) .acceptAll
      (if cut.spliced then covered? else cut.cover covered?) writes buffer rest) more) :
    Wrote (emitFrom (some (.file (.bytes source.toArray))) .acceptAll covered? writes buffer (cut :: rest))
      (bytes ++ more) := by
  rw [emitFrom, if_neg (by simp [hshown]), hread]
  simp only [Writer.acceptAll]
  split
  · next he =>
    rw [isEmpty_iff.1 he]
    exact h _ _
  · exact (h _ _).wrote

theorem Writable.wrote {cuts : List Range} {writes : Nat} (h : Writable source lo hi cuts)
    (hc : covered?.getD 0 ≤ lo) :
    Wrote (emitFrom (some (.file (.bytes source.toArray))) .acceptAll covered? writes buffer cuts)
      (cuts.flatMap (written source)) := by
  induction cuts generalizing lo covered? writes buffer with
  | nil => exact ⟨rfl, rfl, rfl, rfl⟩
  | cons c cs ih =>
    obtain ⟨hcont, hbound, hsp⟩ := h
    have hrest := fun d hd => hsp d (mem_cons_of_mem c hd)
    cases hs : c.spliced with
    | true =>
      obtain ⟨hshown, hstop⟩ := hsp c mem_cons_self hs
      rw [flatMap_cons, written_shown hshown]
      refine emitFrom_shown hshown (content_eq (.inl hs) hstop) fun writes buffer => ?_
      rw [if_pos hs]
      exact ih ⟨(contiguous_spliced hs).1 hcont, hbound, hrest⟩ hc
    | false =>
      obtain ⟨hstart, hle, hcont⟩ := (contiguous_inPlace hs).1 hcont
      have hcover : (c.cover covered?).getD 0 = c.stop := getD_cover (by omega)
      have hrest : Writable source c.stop hi cs := ⟨hcont, hbound, hrest⟩
      cases ho : c.actions.omitted with
      | true =>
        rw [emitFrom, if_pos ho, flatMap_cons, written_omitted ho]
        exact ih hrest hcover.le
      | false =>
        have hstop := hcont.le.trans hbound
        rw [flatMap_cons, written_shown ho]
        refine emitFrom_shown ho (content_eq (.inr (by omega)) hstop) fun writes buffer => ?_
        rw [if_neg (by simp [hs])]
        exact ih hrest hcover.le

end Writing

/-! ## Erasing what was made up -/

/-- The place a cut marks in the source, with the text that stands there instead: none where text is left out. -/
def mark (cut : Range) : List (Span × Option String) :=
  if cut.spliced then []
  else if cut.actions.omitted then [(cut.span, none)]
  else
    match cut.replacement? with
    | some text => [(cut.span, some text)]
    | none => []

end Range

/-- The text from `lo` to `hi` with other text, or none, at the marked places. -/
def rewrite (source : List UInt8) (lo hi : Nat) : List (Span × Option String) → List UInt8
  | [] => sourceText source lo hi
  | (span, text?) :: marks =>
    sourceText source lo span.start ++ Utf8.encode (text?.getD "") ++ rewrite source span.stop hi marks

/-- The bytes of the pieces that stand for source text. -/
def erased (pieces : List Piece) : List UInt8 := (pieces.filter (!·.madeUp)).flatMap (·.bytes)

theorem erased_append (ps qs : List Piece) : erased (ps ++ qs) = erased ps ++ erased qs := by
  simp [erased]

theorem erased_flatMap (source : List UInt8) (cuts : List Range) :
    erased (cuts.flatMap (Range.pieces source)) = cuts.flatMap fun c => erased (c.pieces source) := by
  induction cuts with
  | nil => rfl
  | cons c cs ih => rw [flatMap_cons, flatMap_cons, erased_append, ih]

namespace Range

section Erasing

variable {source : List UInt8} {c : Range}

theorem erased_spliced (h : c.spliced = true) : erased (c.pieces source) = [] := by
  unfold pieces
  split <;> simp [erased, h]

theorem erased_omitted (h : c.actions.omitted = true) : erased (c.pieces source) = [] := by
  simp [pieces, h, erased]

theorem erased_inPlace (h : c.spliced = false) (ho : c.actions.omitted = false) :
    erased (c.pieces source) = c.text source := by
  simp [pieces, ho, erased, h]

/-- Contiguous cuts, with what was made up erased, are the source rewritten at the marked places. Text from `p` on that
was passed without a mark is still to be written in the rewritten source. -/
theorem erased_eq_rewrite (source : List UInt8) {cuts : List Range} {p lo hi : Nat}
    (h : Contiguous lo hi cuts) (hp : p ≤ lo) :
    sourceText source p lo ++ erased (cuts.flatMap (pieces source)) = rewrite source p hi (cuts.flatMap mark) := by
  induction cuts generalizing p lo with
  | nil =>
    obtain rfl : lo = hi := h
    simp [erased, rewrite]
  | cons c cs ih =>
    rw [flatMap_cons, flatMap_cons, erased_append]
    cases hs : c.spliced with
    | true =>
      rw [erased_spliced hs, show c.mark = [] by simp [mark, hs]]
      exact ih ((contiguous_spliced hs).1 h) hp
    | false =>
      obtain ⟨rfl, hle, hrest⟩ := (contiguous_inPlace hs).1 h
      have hnext := ih hrest le_rfl
      rw [sourceText_empty le_rfl, nil_append] at hnext
      cases ho : c.actions.omitted with
      | true =>
        rw [erased_omitted ho, hnext, show c.mark = [(c.span, none)] by simp [mark, hs, ho]]
        simp [rewrite, span, Utf8.encode]
      | false =>
        rw [erased_inPlace hs ho]
        cases hr : c.replacement? with
        | some text =>
          rw [hnext, show c.mark = [(c.span, some text)] by simp [mark, hs, ho, hr]]
          simp [rewrite, span, Range.text, hr]
        | none =>
          have htext : c.text source = sourceText source c.start c.stop := by simp [Range.text, hr]
          rw [show c.mark = [] by simp [mark, hs, ho, hr], nil_append, ← ih hrest (hp.trans hle), htext,
            ← sourceText_append hp hle, append_assoc]

end Erasing

end Range

end Deferral
