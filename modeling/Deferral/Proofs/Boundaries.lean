import Deferral.Proofs.Recognition

/-!
# Tokens do not split characters

The bytes on both sides of a token show that no character goes on there (`Token.Sharp`). So in a source that is UTF-8
the text of a leaf is its bytes, and an assembly that is told only where the leaf ends finds out where it starts
(`feedUnplaced_eq_feed`).
-/

namespace Deferral

open List

namespace Utf8

/-- A text splits into two that can be read by themselves before a byte that is a character of its own, or at the end.
-/
theorem gapless_append {ys : List UInt8} (hys : ∀ b ∈ ys.head?, b < 0x80) :
    ∀ (xs : List UInt8) (pending : Option Partial),
    (∀ p ∈ pending, 0x80 ≤ p.least) → (none ∉ decodeFrom pending (xs ++ ys) ↔
      none ∉ decodeFrom pending xs ∧ none ∉ decodeFrom none ys)
  | [], none, _ => by simp [decodeFrom]
  | [], some p, hp => by
    cases ys with
    | nil => simp [decodeFrom]
    | cons b ys =>
      have hb : ¬(p.least ≤ b ∧ b ≤ p.greatest) := fun h =>
        UInt8.not_le.2 (UInt8.lt_of_lt_of_le (hys b rfl) (hp p rfl)) h.1
      simp only [nil_append, decodeFrom, if_neg hb]
      cases lead b <;> simp
  | x :: xs, none, _ => by
    rw [cons_append, decodeFrom, decodeFrom]
    cases hx : lead x with
    | char c => simpa using gapless_append hys xs none (by simp)
    | more p => exact gapless_append hys xs _ fun q hq => Option.some.inj hq ▸ (fits_lead hx).least
    | gap => simp
  | x :: xs, some p, hp => by
    rw [cons_append, decodeFrom, decodeFrom]
    split
    · split
      · simpa using gapless_append hys xs none (by simp)
      · exact gapless_append hys xs _ fun q hq => Option.some.inj hq ▸ UInt8.le_refl _
    · cases lead x <;> simp

theorem gapless_ascii {b : UInt8} (hb : b < 0x80) (ys : List UInt8) : none ∉ decode (b :: ys) ↔ none ∉ decode ys := by
  have hlead : lead b = .char (Char.ofNat b.toNat) := if_pos hb
  simp [decode, decodeFrom, hlead]

theorem gapless_of_sharp {xs ys : List UInt8} (h : none ∉ decode (xs ++ ys)) (hs : Token.Sharp xs ys) :
    none ∉ decode xs ∧ none ∉ decode ys := by
  rcases hs with hxs | hys
  · rcases eq_nil_or_concat xs with rfl | ⟨zs, b, rfl⟩
    · exact ⟨by simp [decode, decodeFrom], h⟩
    · have hb : b < 0x80 := hxs b (by simp)
      have hhead (ws : List UInt8) : ∀ c ∈ (b :: ws).head?, c < 0x80 := fun c hc => Option.some.inj hc ▸ hb
      rw [concat_eq_append] at h ⊢
      rw [append_assoc, singleton_append] at h
      obtain ⟨hzs, hrest⟩ := (gapless_append (hhead ys) zs none (by simp)).1 h
      exact ⟨(gapless_append (hhead []) zs none (by simp)).2
        ⟨hzs, (gapless_ascii hb []).2 (by simp [decode, decodeFrom])⟩,
        (gapless_ascii hb ys).1 hrest⟩
  · exact (gapless_append hys xs none (by simp)).1 h

theorem mapM_id_eq_some : ∀ {xs : List (Option Char)} {cs : List Char}, xs.mapM id = some cs ↔ xs = cs.map some
  | [], cs => by cases cs <;> simp
  | none :: xs, cs => by cases cs <;> simp [mapM_cons]
  | some c :: xs, cs => by
    simp only [mapM_cons, id, bind, Option.bind_some, Option.bind_eq_some_iff, pure, Option.some.injEq, mapM_id_eq_some]
    constructor
    · rintro ⟨ds, rfl, rfl⟩
      rfl
    · cases cs with
      | nil => simp
      | cons d ds =>
        intro h
        obtain ⟨hc, hxs⟩ := cons_eq_cons.1 h
        exact ⟨ds, hxs, by rw [Option.some.inj hc]⟩

theorem gapless_of_strict? {bytes : List UInt8} (h : (strict? bytes).isSome = true) : none ∉ decode bytes := by
  obtain ⟨text, htext⟩ := Option.isSome_iff_exists.1 h
  obtain ⟨cs, hcs, -⟩ := Option.map_eq_some_iff.1 htext
  rw [mapM_id_eq_some.1 hcs]
  simp

/-- Without gaps the text is as long as its bytes. -/
theorem size_lossy {bytes : List UInt8} (h : none ∉ decode bytes) : (lossy bytes).utf8ByteSize = bytes.length := by
  have heq : decode bytes = ((decode bytes).map (·.getD (Char.ofNat 0xFFFD))).map some := by
    rw [map_map]
    refine (map_id' _).symm.trans (map_congr_left fun c? hc => ?_)
    cases c? with
    | none => exact absurd hc h
    | some c => rfl
  simpa [lossy] using size_of_decodeFrom (n := 0) rfl (mapM_id_eq_some.2 heq)

end Utf8

/-- The event as one that takes no start is told of it. -/
def Event.unplaced (e : Event) : Event := { e with start? := none }

namespace Assembly

variable {e : Event}

theorem popAll_unplaced : ∀ (n : Nat) (later : List Slot), popAll e.unplaced n later = popAll e n later
  | 0, _ => rfl
  | n + 1, later => by
    rw [popAll, popAll]
    simp only [popAll_unplaced n]
    rfl

theorem popOperands_unplaced : ∀ (n : Nat) (later : List Slot), popOperands e.unplaced n later = popOperands e n later
  | 0, _ => rfl
  | n + 1, later => by
    rw [popOperands, popOperands]
    simp only [popOperands_unplaced n]
    rfl

/-- Only the span of a leaf depends on where it is said to start. -/
theorem dispatch_unplaced (h : leafSpan e.unplaced = leafSpan e) : dispatch e.unplaced = dispatch e := by
  have hkind : e.unplaced.kind = e.kind := rfl
  unfold dispatch
  rw [hkind]
  cases e.kind with
  | typeWord | tagKeyword | pointer | reference | declaratorName | identifier | constant | unaryOperator =>
    simp only [onTypeWord, onTagKeyword, onFragment, onDeclaratorName, onLeaf, h]
    rfl
  | forInit | forCondition | forChange | statementEnd =>
    simp only [onForPart, onStatementEnd, popStatement, popAll_unplaced]
    rfl
  | postfixCall | initializerList =>
    simp only [onCall, onInitializerList, popOperands_unplaced]
    rfl
  | _ => rfl

theorem handleAll_unplaced : ∀ {es : List Event} {a : Assembly}, (∀ e ∈ es, leafSpan e.unplaced = leafSpan e) →
    a.handleAll (es.map Event.unplaced) = a.handleAll es
  | [], _, _ => rfl
  | e :: es, a, h => by
    obtain ⟨he, hes⟩ := forall_mem_cons.1 h
    rw [map_cons, handleAll, handleAll, handle, handle, dispatch_unplaced he]
    simp only [handleAll_unplaced hes]

/-- Takes the events of a source, and is told of leaves only where they end. -/
def feedUnplaced (a : Assembly) (source : List UInt8) : Assembly × Option BuildError :=
  let trace := Grammar.trace source
  match a.handleAll (trace.events.toList.map Event.unplaced) with
  | (a, some halt) => (a, some (.assembly halt))
  | (a, none) => (a, trace.stop?.map .grammar)

end Assembly

namespace Grammar

open Assembly

variable {S : Tokenized} {t u : Token}

/-- The text between the start of one token and the end of another has as many bytes as the source there, if that is
UTF-8. -/
theorem Tokenized.size_sliceOf (hs : (Utf8.strict? S.source).isSome = true) (ht : t ∈ S.tokens) (hu : u ∈ S.tokens)
    (hlt : t.start < u.stop) : (sliceOf S.source t.start u.stop).utf8ByteSize = u.stop - t.start := by
  obtain ⟨front, after, hfront, hstart, -, hsharp⟩ := (Token.cut_of_scan S.scanned).lexeme Token.sharp_nil t ht
  obtain ⟨back, rest, hback, hstop, hlexeme, -⟩ := (Token.cut_of_scan S.scanned).lexeme Token.sharp_nil u hu
  rw [Nat.zero_add] at hstart hstop
  have hlength : (back ++ u.bytes).length = u.stop := by rw [length_append, Token.stop, hstop]
  -- The source is what stands before the text, the text, and what stands after it.
  obtain ⟨text, htext⟩ : front <+: back ++ u.bytes := by
    have h : front <+: S.source := ⟨t.bytes ++ after, by rw [hfront, append_assoc]⟩
    exact prefix_of_prefix_length_le h ⟨rest, hback.symm⟩ (by omega)
  rw [← htext] at hback hlength
  have hrest : t.bytes ++ after = text ++ rest := by
    rw [hfront, append_assoc, append_assoc] at hback
    exact append_cancel_left hback
  rw [length_append, ← hstart] at hlength
  have hslice : sliceOf S.source t.start u.stop = Utf8.lossy text := by
    rw [sliceOf, hback, hstart, append_assoc, drop_left]
    congr 1
    exact take_left' (by omega)
  have hne : text ≠ [] := by
    rintro rfl
    simp at hlength
    omega
  rw [hrest, nil_append] at hsharp
  have hsharp' : Token.Sharp front text := hsharp.imp_right fun h => by rwa [head?_append_of_ne_nil _ hne] at h
  have hgap := Utf8.gapless_of_strict? hs
  rw [hback] at hgap
  have hgap' := (Utf8.gapless_of_sharp hgap (htext ▸ hlexeme.sharp back)).1
  rw [hslice, Utf8.size_lossy (Utf8.gapless_of_sharp hgap' hsharp').2]
  omega

theorem Fair.leafSpan_unplaced {es : List Event} {e : Event} (h : Fair S es e)
    (hs : (Utf8.strict? S.source).isSome = true) : leafSpan e.unplaced = leafSpan e := by
  cases hstart : e.start? with
  | none =>
    rw [Event.unplaced, ← hstart]
  | some start =>
    obtain ⟨t, ht, u, hu, hlt, hoffset, -, ⟨htoken, hliteral⟩ | ⟨hnone, -⟩⟩ := h.text (by simp [Event.isText, hstart])
    · have hsize := S.size_sliceOf hs ht hu hlt
      rw [← hliteral, ← hoffset] at hsize
      rw [← hoffset] at hlt
      obtain rfl : start = t.start := Option.some.inj (hstart.symm.trans htoken)
      have hle : e.literal.utf8ByteSize ≤ e.offset := by omega
      have hstart' : e.offset - e.literal.utf8ByteSize = t.start := by omega
      simp only [leafSpan, Event.unplaced, hstart, hle, hlt, if_true, hstart']
      rfl
    · rw [hstart] at hnone
      cases hnone

/-- **Where a leaf starts need not be said.** An assembly takes the events of a source that is UTF-8 in the same way,
and turns the same ones down, if it is told only where leaves end and finds out their starts by the lengths of their
texts. -/
theorem feedUnplaced_eq_feed (a : Assembly) (source : List UInt8) (hs : (Utf8.strict? source).isSome = true) :
    a.feedUnplaced source = a.feed source := by
  have hleaves : ∀ e ∈ (trace source).events.toList, leafSpan e.unplaced = leafSpan e := by
    intro e he
    obtain ⟨S, es, rfl, hfair⟩ := exists_fair_of_trace he
    exact hfair.leafSpan_unplaced hs
  rw [feedUnplaced, handleAll_unplaced hleaves]
  rfl

/-- Characters of several bytes in words, next to a number, and after a backslash. -/
def accented : List UInt8 :=
  Utf8.encode "void f()\x7b char *é = \"\\é\" \"ü\", è[1] = \x7b1\x7d; g(é, ß + 1); /* ö */ \x7d"

set_option maxRecDepth 100000 in
/-- Five leaves have characters of several bytes. -/
theorem feedUnplaced_accented : (Utf8.strict? accented).isSome = true ∧ ((start []).feed accented).2 = none ∧
    ((trace accented).events.toList.filter fun e =>
      e.start?.isSome && e.literal.length < (Utf8.encode e.literal).length).map
      (·.literal) = ["é", "\"\\é\" \"ü\"", "è", "é", "ß"] ∧
    (start []).feedUnplaced accented = (start []).feed accented := by
  have hs : (Utf8.strict? accented).isSome = true := by decide +kernel
  exact ⟨hs, by decide +kernel, by decide +kernel, feedUnplaced_eq_feed (start []) accented hs⟩

end Grammar

end Deferral
