import Deferral.Proofs.Phrases
import Mathlib.Data.List.Infix
import Mathlib.Data.List.TakeWhile

/-!
# What stands between tokens

A source is cut into tokens and trivia: blanks, spliced lines, comments and preprocessor lines. `Cut` says that bytes
are tokens with nothing but trivia between them, up to a rest that is not cut yet. Nothing is left over when the scan
succeeds. When it fails, what is left begins with one of four things (`ScanError.At`), and the scan points to it
(`scan_cut`).
-/

namespace Deferral.Token

open Grammar List

variable {ts : List Token} {line item source : List UInt8} {kind : Kind} {e : ScanError}

/-! ## Trivia -/

def carriageReturn : UInt8 := '\r'.toUInt8

def slash : UInt8 := '/'.toUInt8

def star : UInt8 := '*'.toUInt8

/-- A line that ends so goes on: with a backslash, or with a backslash and a carriage return. -/
def Continued (line : List UInt8) : Prop := [backslash] <:+ line ∨ [backslash, carriageReturn] <:+ line

/-- What follows the `#` of a preprocessor line, before `rest`: newlines in it are continued, the one after it is not.
-/
def Runs (body rest : List UInt8) : Prop :=
  (∀ line, line ++ [newline] <+: body → Continued line) ∧ ∀ b ∈ rest.head?, b = newline ∧ ¬Continued body

/-- One piece of text that is no part of a token, before `rest`. `fresh` says that no token stands before it on its
line. -/
inductive Trivium (fresh : Bool) : (item rest : List UInt8) → Prop
  | blank {b : UInt8} {rest : List UInt8} (hb : isBlankByte b = true ∨ b = newline) : Trivium fresh [b] rest
  | splice {rest : List UInt8} : Trivium fresh [backslash, newline] rest
  | lineComment {body rest : List UInt8} (hbody : newline ∉ body) (hrest : ∀ b ∈ rest.head?, b = newline) :
    Trivium fresh (slash :: slash :: body) rest
  | blockComment {body rest : List UInt8} (hbody : ¬[star, slash] <:+: body ++ [star]) :
    Trivium fresh (slash :: star :: (body ++ [star, slash])) rest
  | directive {body rest : List UInt8} (hfresh : fresh = true) (h : Runs body rest) :
    Trivium fresh ('#'.toUInt8 :: body) rest

/-! ## Tokens -/

/-- What a literal holds between its quotes. A backslash takes the next byte with it. -/
inductive Interior (quote : UInt8) : List UInt8 → Prop
  | nil : Interior quote []
  | escape (b : UInt8) {bytes : List UInt8} (h : Interior quote bytes) : Interior quote (backslash :: b :: bytes)
  | plain {b : UInt8} {bytes : List UInt8} (hb : b ≠ backslash ∧ b ≠ newline ∧ b ≠ quote) (h : Interior quote bytes) :
    Interior quote (b :: bytes)

/-- What a number holds after its first byte. -/
inductive Digits : List UInt8 → Prop
  | nil : Digits []
  | exponent {b c : UInt8} {bytes : List UInt8} (hb : isExponentMark b = true) (hc : isSign c = true)
    (h : Digits bytes) : Digits (b :: c :: bytes)
  | plain {b : UInt8} {bytes : List UInt8}
    (hb : isLetterByte b = true ∨ isDigitByte b = true ∨ b = '.'.toUInt8 ∨ b = '_'.toUInt8) (h : Digits bytes) :
    Digits (b :: bytes)
  | separator {bytes : List UInt8} (hb : bytes.head?.any isDigitByte = true) (h : Digits bytes) :
    Digits ('\''.toUInt8 :: bytes)

/-- What may stand before the quote of a literal. -/
def encodingMarks : List (List UInt8) :=
  [[], ['L'.toUInt8], ['u'.toUInt8], ['U'.toUInt8], ['u'.toUInt8, '8'.toUInt8]]

/-- The bytes of a token, before `rest`. -/
inductive Lexeme : Kind → (lexeme rest : List UInt8) → Prop
  | word {b : UInt8} {bytes rest : List UInt8} (hb : isWordStart b = true) (hbytes : ∀ c ∈ bytes, isWordByte c = true)
    (hrest : ∀ c ∈ rest.head?, isWordByte c = false) : Lexeme .word (b :: bytes) rest
  | number {b : UInt8} {bytes rest : List UInt8}
    (hb : isDigitByte b = true ∨ b = '.'.toUInt8 ∧ bytes.head?.any isDigitByte = true) (h : Digits bytes) :
    Lexeme .number (b :: bytes) rest
  | literal {quote : UInt8} {mark bytes rest : List UInt8} (hmark : mark ∈ encodingMarks)
    (hquote : isQuote quote = true) (h : Interior quote bytes) :
    Lexeme (quoteKind quote) (mark ++ quote :: (bytes ++ [quote])) rest
  | longPunctuator {p : String} {rest : List UInt8} (hp : p ∈ longPunctuators) : Lexeme .punct (Utf8.encode p) rest
  | punctuator {b : UInt8} {rest : List UInt8} (hb : b ∈ Utf8.encode shortPunctuators) : Lexeme .punct [b] rest

/-! ## Cuts -/

/-- `bytes`, which start at `offset`, are the tokens with trivia between them, and then `rest`. -/
inductive Cut : (fresh : Bool) → (offset : Nat) → (bytes : List UInt8) → List Token → (rest : List UInt8) → Prop
  | done {fresh : Bool} {offset : Nat} {rest : List UInt8} : Cut fresh offset rest [] rest
  | skip {fresh : Bool} {offset : Nat} {item bytes rest : List UInt8} {ts : List Token}
    (hitem : Trivium fresh item bytes)
    (h : Cut (fresh || item.contains newline) (offset + item.length) bytes ts rest) :
    Cut fresh offset (item ++ bytes) ts rest
  | token {fresh : Bool} {offset : Nat} {kind : Kind} {lexeme bytes rest : List UInt8} {ts : List Token}
    (hlexeme : Lexeme kind lexeme bytes) (h : Cut false (offset + lexeme.length) bytes ts rest) :
    Cut fresh offset (lexeme ++ bytes) (⟨kind, offset, lexeme⟩ :: ts) rest

/-- What is wrong with the bytes at `offset`. -/
inductive ScanError.At : ScanError → (offset : Nat) → (bytes : List UInt8) → Prop
  | comment {offset : Nat} {body : List UInt8} (hbody : ¬[star, slash] <:+: body) :
    At (.unterminatedComment offset) offset (slash :: star :: body)
  | literal {quote : UInt8} {offset : Nat} {mark bytes rest : List UInt8} (hmark : mark ∈ encodingMarks)
    (hquote : isQuote quote = true) (h : Interior quote bytes) (hrest : rest = [] ∨ rest = [backslash]) :
    At (.unterminatedLiteral (offset + mark.length)) offset (mark ++ quote :: (bytes ++ rest))
  | newline {quote : UInt8} {offset : Nat} {mark bytes rest : List UInt8} (hmark : mark ∈ encodingMarks)
    (hquote : isQuote quote = true) (h : Interior quote bytes) :
    At (.newlineInLiteral (offset + mark.length)) offset
      (mark ++ quote :: (bytes ++ newline :: rest))
  | stray {b : UInt8} {offset : Nat} {bytes : List UInt8}
      (hlexeme : ∀ kind lexeme rest, ¬Lexeme kind (b :: lexeme) rest)
    (hitem : ∀ fresh item rest, item ++ rest = b :: bytes → ¬Trivium fresh item rest) :
    At (.strayByte b offset) offset (b :: bytes)

/-! ## The lengths of pieces -/

section Lengths

variable {bytes body rest : List UInt8} {b quote : UInt8} {n offset : Nat}

theorem exists_takeWhile (p : UInt8 → Bool) (bytes : List UInt8) : ∃ front rest, bytes = front ++ rest ∧
    (bytes.takeWhile p).length = front.length ∧ (∀ c ∈ front, p c = true) ∧ ∀ c ∈ rest.head?, p c = false := by
  refine ⟨bytes.takeWhile p, bytes.dropWhile p, takeWhile_append_dropWhile.symm, rfl,
    fun c hc => mem_takeWhile_imp hc, fun c hc => ?_⟩
  have := head?_dropWhile_not p bytes
  rwa [Option.mem_def.1 hc] at this

theorem infix_cons_iff {c : UInt8} : [star, slash] <:+: b :: c :: rest ↔
    (b = star ∧ c = slash) ∨ [star, slash] <:+: c :: rest := by
  rw [List.infix_cons_iff]
  simp [eq_comm]

theorem commentLength?_eq_some : ∀ {bytes : List UInt8} {n : Nat}, commentLength? bytes = some n →
    ∃ body rest, bytes = body ++ star :: slash :: rest ∧ n = body.length + 2 ∧ ¬[star, slash] <:+: body ++ [star]
  | [], n, h => by cases h
  | [_], n, h => by cases h
  | b :: c :: rest, n, h => by
    rw [commentLength?] at h
    split at h
    case isTrue hbc =>
      simp only [Bool.and_eq_true, beq_iff_eq] at hbc
      obtain ⟨rfl, rfl⟩ := hbc
      cases h
      exact ⟨[], rest, rfl, rfl, by decide⟩
    case isFalse hbc =>
      obtain ⟨k, hk, rfl⟩ := Option.map_eq_some_iff.1 h
      obtain ⟨body, rest', hrest, rfl, hbody⟩ := commentLength?_eq_some hk
      refine ⟨b :: body, rest', by rw [hrest]; rfl, rfl, ?_⟩
      cases body with
      | nil =>
        obtain ⟨rfl, -⟩ := cons_eq_cons.1 hrest
        rintro h
        rcases infix_cons_iff.1 h with ⟨-, h⟩ | h
        · exact absurd h (by decide)
        · exact absurd h.length_le (by decide)
      | cons d body =>
        obtain ⟨rfl, -⟩ := cons_eq_cons.1 hrest
        rw [cons_append, cons_append, infix_cons_iff]
        rintro (⟨rfl, rfl⟩ | h)
        · simp [star, slash] at hbc
        · exact hbody h

theorem commentLength?_eq_none : ∀ {bytes : List UInt8}, commentLength? bytes = none → ¬[star, slash] <:+: bytes
  | [], _ => by simp
  | [_], _ => fun h => by have := h.length_le; simp at this
  | b :: c :: rest, h => by
    rw [commentLength?] at h
    split at h
    · cases h
    case isFalse hbc =>
      rw [Option.map_eq_none_iff] at h
      rw [infix_cons_iff]
      rintro (⟨rfl, rfl⟩ | hi)
      · simp [star, slash] at hbc
      · exact commentLength?_eq_none h hi

/-! ### Preprocessor lines -/

theorem Continued.cons (h : Continued line) (b : UInt8) : Continued (b :: line) :=
  h.imp (·.trans (suffix_cons b line)) (·.trans (suffix_cons b line))

theorem continued_cons_iff : Continued (b :: line) ↔
    (b = backslash ∧ (line = [] ∨ line = [carriageReturn])) ∨ Continued line := by
  simp only [Continued, suffix_cons_iff, List.cons.injEq, @eq_comm _ backslash, @eq_comm _ [] line,
    @eq_comm _ [carriageReturn] line]
  tauto

theorem runs_nil (h : ∀ b ∈ rest.head?, b = newline) : Runs [] rest := by
  refine ⟨fun line hline => ?_, fun b hb => ⟨h b hb, ?_⟩⟩
  · simp at hline
  · simp [Continued]

theorem Runs.cons (h : Runs body rest) (hb : b ≠ newline)
    (hnext : b = backslash → ¬[newline] <+: body ++ rest ∧ ¬[carriageReturn, newline] <+: body ++ rest) :
    Runs (b :: body) rest := by
  refine ⟨fun line hline => ?_, fun c hc => ⟨(h.2 c hc).1, fun hcont => ?_⟩⟩
  · cases line with
    | nil => exact absurd (cons_prefix_cons.1 hline).1.symm hb
    | cons d line =>
      exact (h.1 line (cons_prefix_cons.1 hline).2).cons d
  · obtain ⟨hnl, hbody⟩ := h.2 c hc
    subst hnl
    obtain ⟨rest, rfl⟩ := head?_eq_some_iff.1 hc
    rcases continued_cons_iff.1 hcont with ⟨hbs, rfl | rfl⟩ | hcont
    · exact (hnext hbs).1 ⟨rest, rfl⟩
    · exact (hnext hbs).2 ⟨rest, rfl⟩
    · exact hbody hcont

theorem suffix_of_suffix_newline {word : List UInt8} (h : word <:+ line ++ newline :: body) (hword : newline ∉ word) :
    word <:+ body := by
  rcases suffix_or_suffix_of_suffix h (suffix_append line (newline :: body)) with h | h
  · exact (suffix_cons_iff.1 h).resolve_left fun heq => hword (heq ▸ mem_cons_self)
  · exact absurd (h.subset mem_cons_self) hword

theorem Runs.continued (h : Runs body rest) (hline : newline ∉ line) (hcont : Continued line) :
    Runs (line ++ newline :: body) rest := by
  refine ⟨fun pre hpre => ?_, fun c hc => ⟨(h.2 c hc).1, fun hcont' => ?_⟩⟩
  · obtain ⟨more, hmore⟩ := hpre
    rw [append_assoc] at hmore
    rcases append_eq_append_iff.1 hmore with ⟨mid, rfl, hmid⟩ | ⟨mid, rfl, hmid⟩
    · cases mid with
      | nil => simpa using hcont
      | cons d mid =>
        obtain ⟨rfl, -⟩ := cons_eq_cons.1 hmid
        simp at hline
    · cases mid with
      | nil => simpa using hcont
      | cons d mid =>
        obtain ⟨rfl, rfl⟩ := cons_eq_cons.1 hmid
        have := h.1 mid ⟨more, by simp⟩
        have hs : mid <:+ line ++ newline :: mid := (suffix_cons newline mid).trans (suffix_append line _)
        exact this.imp (·.trans hs) (·.trans hs)
  · refine (h.2 c hc).2 (hcont'.imp (fun h => ?_) fun h => ?_) <;> exact suffix_of_suffix_newline h (by decide)

theorem exists_directive (bytes : List UInt8) :
    ∃ body rest, bytes = body ++ rest ∧ directiveLength bytes = body.length ∧
    Runs body rest := by
  -- One byte that is passed by itself.
  have plain {b : UInt8} {bytes : List UInt8} {n : Nat}
      (h : ∃ body rest, bytes = body ++ rest ∧ n = body.length ∧ Runs body rest) (hb : b ≠ newline)
      (hnext : b = backslash → ¬[newline] <+: bytes ∧ ¬[carriageReturn, newline] <+: bytes) :
      ∃ body rest, b :: bytes = body ++ rest ∧ n + 1 = body.length ∧ Runs body rest := by
    obtain ⟨body, rest, rfl, rfl, hruns⟩ := h
    exact ⟨b :: body, rest, rfl, rfl, hruns.cons hb hnext⟩
  fun_induction directiveLength bytes with
  | case1 => exact ⟨[], [], rfl, rfl, runs_nil (by simp)⟩
  | case2 b rest hb => exact ⟨[], b :: rest, rfl, rfl, runs_nil (by simpa using hb)⟩
  | case3 b _ hb c rest hc ih =>
    obtain ⟨body, rest', rfl, hlength, hruns⟩ := ih
    obtain rfl : b = backslash := eq_of_beq hb
    obtain rfl : c = newline := eq_of_beq hc
    exact ⟨[backslash] ++ newline :: body, rest', rfl, by rw [hlength]; rfl,
      hruns.continued (by decide) (.inl (by simp))⟩
  | case4 b _ hb c _ hc d rest hd ih =>
    obtain ⟨body, rest', rfl, hlength, hruns⟩ := ih
    obtain rfl : b = backslash := eq_of_beq hb
    obtain rfl : c = carriageReturn := eq_of_beq hc
    obtain rfl : d = newline := eq_of_beq hd
    exact ⟨[backslash, carriageReturn] ++ newline :: body, rest', rfl, by rw [hlength]; rfl,
      hruns.continued (by decide) (.inr (by simp))⟩
  | case5 b hb _ c hc _ d rest hd ih =>
    refine plain ih (by simpa using hb) fun _ => ⟨fun h => hc ?_, fun h => hd ?_⟩
    · simpa using (cons_prefix_cons.1 h).1.symm
    · simpa using (cons_prefix_cons.1 (cons_prefix_cons.1 h).2).1.symm
  | case6 b hb _ c hc _ ih =>
    refine plain ih (by simpa using hb) fun _ => ⟨fun h => hc ?_, fun h => ?_⟩
    · simpa using (cons_prefix_cons.1 h).1.symm
    · exact absurd h.length_le (by simp)
  | case7 b hb _ c rest hc hr ih =>
    refine plain ih (by simpa using hb) fun _ => ⟨fun h => hc ?_, fun h => hr ?_⟩
    · simpa using (cons_prefix_cons.1 h).1.symm
    · exact beq_iff_eq.2 (cons_prefix_cons.1 h).1.symm
  | case8 b hb _ => exact plain ⟨[], [], rfl, rfl, runs_nil (by simp)⟩ (by simpa using hb) (by simp)
  | case9 b rest hb hbs ih => exact plain ih (by simpa using hb) fun h => absurd (beq_iff_eq.2 h) hbs

/-! ### Tokens -/

theorem numberLength_pos {b : UInt8} (h : isDigitByte b = true) : ∀ rest : List UInt8, 0 < numberLength (b :: rest)
  | [] => by simp [numberLength, h]
  | c :: rest => by
    rw [numberLength]
    split
    · exact Nat.succ_pos _
    · simp [h]

theorem digits_take (bytes : List UInt8) : Digits (bytes.take (numberLength bytes)) := by
  fun_induction numberLength bytes with
  | case1 => exact .nil
  | case2 b h => exact .plain (by simpa [or_assoc] using h) .nil
  | case3 => exact .nil
  | case4 b c rest h ih =>
    rw [Bool.and_eq_true] at h
    exact .exponent h.1 h.2 ih
  | case5 b c rest _ h ih =>
    simp only [Bool.or_eq_true, Bool.and_eq_true, beq_iff_eq] at h
    rcases h with h | ⟨rfl, hc⟩
    · exact .plain (by simpa [or_assoc] using h) ih
    · refine .separator ?_ ih
      rw [head?_take, if_neg (numberLength_pos hc rest).ne']
      simpa using hc
  | case6 => exact .nil

theorem numberLength_le (bytes : List UInt8) : numberLength bytes ≤ bytes.length := by
  fun_induction numberLength bytes <;> simp_all

/-- How the search for the end of a literal ends, `n` bytes after the quote that opens it. -/
inductive Ends (quote : UInt8) (offset n : Nat) : (rest : List UInt8) → Except ScanError Nat → Prop
  | closed (rest : List UInt8) : Ends quote offset n (quote :: rest) (.ok (n + 1))
  | unclosed {rest : List UInt8} (h : rest = [] ∨ rest = [backslash]) :
    Ends quote offset n rest (.error (.unterminatedLiteral offset))
  | newline (rest : List UInt8) : Ends quote offset n (newline :: rest) (.error (.newlineInLiteral offset))

theorem Ends.add {n : Nat} {r : Except ScanError Nat} (h : Ends quote offset n rest r) (k : Nat) :
    Ends quote offset (n + k) rest (r.map (· + k)) := by
  cases h with
  | closed rest =>
    rw [Except.map, Nat.add_right_comm]
    exact .closed rest
  | unclosed h => exact .unclosed h
  | newline rest => exact .newline rest

theorem exists_interior (quote : UInt8) (offset : Nat) (bytes : List UInt8) : ∃ inner rest, bytes = inner ++ rest ∧
    Interior quote inner ∧ Ends quote offset inner.length rest (quotedLength quote offset bytes) := by
  fun_induction quotedLength quote offset bytes with
  | case1 => exact ⟨[], [], rfl, .nil, .unclosed (.inl rfl)⟩
  | case2 b hb =>
    obtain rfl : b = backslash := eq_of_beq hb
    exact ⟨[], [backslash], rfl, .nil, .unclosed (.inr rfl)⟩
  | case3 b hb c rest ih =>
    obtain rfl : b = backslash := eq_of_beq hb
    obtain ⟨inner, rest', rfl, hinner, hends⟩ := ih
    exact ⟨backslash :: c :: inner, rest', rfl, .escape c hinner, hends.add 2⟩
  | case4 b rest _ hb =>
    obtain rfl : b = Token.newline := eq_of_beq hb
    exact ⟨[], _, rfl, .nil, .newline rest⟩
  | case5 b rest _ _ hb =>
    obtain rfl : b = quote := eq_of_beq hb
    exact ⟨[], _, rfl, .nil, .closed rest⟩
  | case6 b rest hbs hnl hq ih =>
    obtain ⟨inner, rest', rfl, hinner, hends⟩ := ih
    refine ⟨b :: inner, rest', rfl, .plain ⟨?_, ?_, ?_⟩ hinner, hends.add 1⟩
    · simpa using hbs
    · simpa using hnl
    · simpa using hq

theorem encodingMark?_eq_some {q : UInt8} (h : encodingMark? b bytes = some (n, q)) : ∃ mark ∈ encodingMarks,
    isQuote q = true ∧ mark.length = n + 1 ∧ b :: bytes = mark ++ q :: bytes.drop (n + 1) := by
  -- A mark of one byte.
  have short {c : UInt8} {rest : List UInt8}
      (h : ((b == 'L'.toUInt8 || b == 'u'.toUInt8 || b == 'U'.toUInt8) && isQuote c) = true) :
      ∃ mark ∈ encodingMarks, isQuote c = true ∧ mark.length = 1 ∧
        b :: c :: rest = mark ++ c :: rest := by
    simp only [Bool.and_eq_true, Bool.or_eq_true, beq_iff_eq] at h
    obtain ⟨(rfl | rfl) | rfl, hc⟩ := h
    · exact ⟨['L'.toUInt8], by simp [encodingMarks], hc, rfl, rfl⟩
    · exact ⟨['u'.toUInt8], by simp [encodingMarks], hc, rfl, rfl⟩
    · exact ⟨['U'.toUInt8], by simp [encodingMarks], hc, rfl, rfl⟩
  rcases bytes with _ | ⟨c, _ | ⟨d, rest⟩⟩
  · cases h
  · rw [encodingMark?] at h
    split at h
    case isTrue hmark =>
      cases h
      exact short hmark
    · cases h
  · rw [encodingMark?] at h
    split at h
    case isTrue hmark =>
      cases h
      simp only [Bool.and_eq_true, beq_iff_eq] at hmark
      obtain ⟨⟨rfl, rfl⟩, hd⟩ := hmark
      exact ⟨['u'.toUInt8, '8'.toUInt8], by simp [encodingMarks], hd, rfl, rfl⟩
    split at h
    case isTrue hmark =>
      cases h
      exact short hmark
    · cases h

theorem length_encode_longPunctuator : ∀ p ∈ longPunctuators, (Utf8.encode p).length = p.length - 1 + 1 := by
  decide +kernel

theorem head_longPunctuator : ∀ p ∈ longPunctuators, ∀ b ∈ (Utf8.encode p).head?, b ∈ Utf8.encode shortPunctuators := by
  decide +kernel

theorem punctuatorLength?_eq_some (h : punctuatorLength? b bytes = some n) :
    ∃ lexeme rest, b :: bytes = lexeme ++ rest ∧ lexeme.length = n + 1 ∧ Lexeme .punct lexeme rest := by
  unfold punctuatorLength? at h
  split at h
  case h_1 p hp =>
    have hfound : (Utf8.encode p).isPrefixOf (b :: bytes) = true := by simpa using find?_some hp
    obtain ⟨rest, hrest⟩ := isPrefixOf_iff_prefix.1 hfound
    have hmem := mem_of_find?_eq_some hp
    cases h
    exact ⟨_, rest, hrest.symm, length_encode_longPunctuator p hmem, .longPunctuator hmem⟩
  case h_2 =>
    split at h
    case isTrue hb =>
      cases h
      exact ⟨[b], bytes, rfl, rfl, .punctuator (contains_iff_mem.1 hb)⟩
    · cases h

theorem punctuatorLength?_eq_none (h : punctuatorLength? b bytes = none) : b ∉ Utf8.encode shortPunctuators := by
  unfold punctuatorLength? at h
  split at h
  · cases h
  · split at h
    · cases h
    case isFalse hb => exact fun hmem => hb (contains_iff_mem.2 hmem)

end Lengths

/-! ## Pieces -/

section Pieces

variable {lineStart fresh : Bool} {offset : Nat} {bytes rest : List UInt8} {b quote : UInt8}

/-- What a piece is. -/
inductive Piece.Of (lineStart : Bool) (offset : Nat) (bytes : List UInt8) : Except ScanError Piece → Prop
  | skipped (item rest : List UInt8) {more : Nat} {atStart : Bool} (hbytes : bytes = item ++ rest)
    (hmore : item.length = more + 1) (hitem : Trivium lineStart item rest)
    (hstart : atStart = true → lineStart = true ∨ newline ∈ item) :
      Of lineStart offset bytes (.ok (.skipped more atStart))
  | token (lexeme rest : List UInt8) {kind : Kind} {more : Nat} (hbytes : bytes = lexeme ++ rest)
    (hmore : lexeme.length = more + 1) (hlexeme : Lexeme kind lexeme rest) :
      Of lineStart offset bytes (.ok (.token kind more))
  | error {e : ScanError} (h : e.At offset bytes) : Of lineStart offset bytes (.error e)

theorem at_stray (hnewline : b ≠ newline) (hblank : isBlankByte b = false)
    (hsplice : ¬(b = backslash ∧ bytes.head? = some newline)) (hword : isWordStart b = false)
    (hdigit : isDigitByte b = false) (hquote : isQuote b = false) (hpunct : b ∉ Utf8.encode shortPunctuators) :
    (ScanError.strayByte b offset).At offset (b :: bytes) := by
  have hmem {c : UInt8} (hc : c ∈ Utf8.encode shortPunctuators) : b ≠ c := fun h => hpunct (h ▸ hc)
  refine .stray (fun kind lexeme rest h => ?_) fun fresh item rest heq h => ?_
  · generalize hl : b :: lexeme = l at h
    cases h with
    | word hb =>
      obtain ⟨rfl, -⟩ := cons_eq_cons.1 hl
      exact Bool.eq_false_iff.1 hword hb
    | number hb =>
      obtain ⟨rfl, -⟩ := cons_eq_cons.1 hl
      rcases hb with hb | ⟨rfl, -⟩
      · exact Bool.eq_false_iff.1 hdigit hb
      · exact hmem (by decide +kernel) rfl
    | literal hmark hq =>
      simp only [encodingMarks, mem_cons, not_mem_nil, or_false] at hmark
      rcases hmark with rfl | rfl | rfl | rfl | rfl
      · obtain ⟨rfl, -⟩ := cons_eq_cons.1 hl
        exact Bool.eq_false_iff.1 hquote hq
      all_goals
        obtain ⟨rfl, -⟩ := cons_eq_cons.1 hl
        exact absurd hword (by decide)
    | longPunctuator hp =>
      refine hpunct (head_longPunctuator _ hp b ?_)
      rw [← hl]
      rfl
    | punctuator hb =>
      obtain ⟨rfl, -⟩ := cons_eq_cons.1 hl
      exact hpunct hb
  · cases h with
    | blank hb =>
      obtain ⟨rfl, -⟩ := cons_eq_cons.1 heq
      exact hb.elim (Bool.eq_false_iff.1 hblank) hnewline
    | splice =>
      obtain ⟨rfl, rfl⟩ := cons_eq_cons.1 heq
      exact hsplice ⟨rfl, rfl⟩
    | lineComment | blockComment | directive => exact hmem (by decide +kernel) (cons_eq_cons.1 heq).1.symm

theorem Trivium.of_line (fresh : Bool) (bytes : List UInt8) : ∃ item rest, slash :: slash :: bytes = item ++ rest ∧
    item.length = lineLength (slash :: bytes) + 1 ∧ Trivium fresh item rest := by
  obtain ⟨line, rest, rfl, hlength, hline, hrest⟩ := exists_takeWhile (· != newline) bytes
  refine ⟨slash :: slash :: line, rest, rfl, ?_, .lineComment (fun h => ?_) fun b hb => ?_⟩
  · have hslash : (slash != newline) = true := by decide
    simp [lineLength, hslash, hlength]
  · simpa using hline _ h
  · simpa using hrest b hb

theorem Piece.of_quote {mark : List UInt8} (hmark : mark ∈ encodingMarks) (hquote : isQuote quote = true)
    (bytes : List UInt8) : Piece.Of lineStart offset (mark ++ quote :: bytes)
      ((quotedLength quote (offset + mark.length) bytes).map fun k => .token (quoteKind quote) (mark.length + k)) := by
  obtain ⟨inner, rest, rfl, hinner, hends⟩ := exists_interior quote (offset + mark.length) bytes
  generalize quotedLength quote (offset + mark.length) (inner ++ rest) = r at hends
  cases hends with
  | closed rest =>
    refine .token (mark ++ quote :: (inner ++ [quote])) rest (by simp) ?_ (.literal hmark hquote hinner)
    simp only [length_append, length_cons, length_nil]
    omega
  | unclosed hrest => exact .error (.literal hmark hquote hinner hrest)
  | newline rest => exact .error (.newline hmark hquote hinner)

/-- Every piece is one of those that a source is made of, or what is there is wrong. -/
theorem piece_of (lineStart : Bool) (offset : Nat) (b : UInt8) (rest : List UInt8) :
    Piece.Of lineStart offset (b :: rest) (piece lineStart offset b rest) := by
  have next {c d : UInt8} (h : (b == c && rest.head? == some d) = true) : b = c ∧ ∃ rest', rest = d :: rest' := by
    rw [Bool.and_eq_true, beq_iff_eq, beq_iff_eq, head?_eq_some_iff] at h
    exact h
  unfold piece
  simp only
  split
  case isTrue hb =>
    obtain rfl : b = newline := eq_of_beq hb
    exact .skipped [newline] rest rfl rfl (.blank (.inr rfl)) fun _ => .inr mem_cons_self
  case isFalse hnewline =>
  split
  case isTrue hb => exact .skipped [b] rest rfl rfl (.blank (.inl hb)) .inl
  case isFalse hblank =>
  split
  case isTrue h =>
    obtain ⟨rfl, rest, rfl⟩ := next h
    exact .skipped [backslash, newline] rest rfl rfl .splice .inl
  case isFalse hsplice =>
  split
  case isTrue h =>
    obtain ⟨rfl, rest, rfl⟩ := next h
    obtain ⟨item, rest', hitem, hlength, htrivium⟩ := Trivium.of_line lineStart rest
    exact .skipped item rest' hitem hlength htrivium .inl
  case isFalse =>
  split
  case isTrue h =>
    obtain ⟨rfl, rest, rfl⟩ := next h
    split
    case h_1 n hn =>
      obtain ⟨body, rest, heq, rfl, hbody⟩ := commentLength?_eq_some hn
      obtain rfl : _ = body ++ star :: slash :: rest := heq
      exact .skipped (slash :: star :: (body ++ [star, slash])) rest (by simp [slash, star]) (by simp)
        (.blockComment hbody) .inl
    case h_2 hn => exact .error (.comment (commentLength?_eq_none hn))
  case isFalse =>
  split
  case isTrue h =>
    rw [Bool.and_eq_true, beq_iff_eq] at h
    obtain ⟨rfl, hstart⟩ := h
    obtain ⟨body, rest, rfl, hlength, hruns⟩ := exists_directive rest
    exact .skipped ('#'.toUInt8 :: body) rest rfl (by rw [hlength]; rfl) (.directive hstart hruns) .inl
  case isFalse =>
  split
  case isTrue hword =>
    split
    case h_1 n quote hmark =>
      obtain ⟨mark, hmem, hquote, hlength, hbytes⟩ := encodingMark?_eq_some hmark
      rw [hbytes, Nat.add_assoc, ← hlength]
      exact Piece.of_quote hmem hquote _
    case h_2 =>
      obtain ⟨word, rest, rfl, hlength, hbytes, hrest⟩ := exists_takeWhile isWordByte rest
      exact .token (b :: word) rest rfl (by rw [wordLength, hlength]; rfl) (.word hword hbytes hrest)
  case isFalse hword =>
  split
  case isTrue h =>
    refine .token (b :: rest.take (numberLength rest)) (rest.drop (numberLength rest)) (by simp) ?_
      (.number ?_ (digits_take rest))
    · rw [length_cons, length_take_of_le (numberLength_le rest)]
    · rw [Bool.or_eq_true, Bool.and_eq_true, beq_iff_eq] at h
      rcases h with hb | ⟨hb, hnext⟩
      · exact .inl hb
      refine .inr ⟨hb, ?_⟩
      cases rest with
      | nil => cases hnext
      | cons c rest => rwa [head?_take, if_neg (numberLength_pos hnext rest).ne']
  case isFalse hnumber =>
  split
  case isTrue hquote =>
    have hof : Piece.Of lineStart offset ([] ++ b :: rest) _ := Piece.of_quote (by simp [encodingMarks]) hquote rest
    simpa using hof
  case isFalse hquote =>
  split
  case h_1 n hn =>
    obtain ⟨lexeme, rest, hbytes, hlength, hlexeme⟩ := punctuatorLength?_eq_some hn
    exact .token lexeme rest hbytes hlength hlexeme
  case h_2 hn =>
    simp only [Bool.not_eq_true, Bool.or_eq_false_iff] at *
    exact .error (at_stray (by simpa using hnewline) hblank (by simpa using hsplice) hword hnumber.1 hquote
      (punctuatorLength?_eq_none hn))

/-! ## What a cut says -/

theorem Trivium.mono (h : Trivium lineStart item rest) (hfresh : lineStart = true → fresh = true) :
    Trivium fresh item rest := by
  cases h with
  | blank hb => exact .blank hb
  | splice => exact .splice
  | lineComment hbody hrest => exact .lineComment hbody hrest
  | blockComment hbody => exact .blockComment hbody
  | directive hstart h => exact .directive (hfresh hstart) h

theorem Lexeme.ne_nil {lexeme : List UInt8} (h : Lexeme kind lexeme rest) : lexeme ≠ [] := by
  cases h with
  | longPunctuator hp =>
    intro hnil
    simpa [hnil] using length_encode_longPunctuator _ hp
  | _ => simp

theorem Cut.suffix (h : Cut fresh offset bytes ts rest) : rest <:+ bytes := by
  induction h with
  | done => exact suffix_refl _
  | skip _ _ ih | token _ _ ih => exact ih.trans (suffix_append _ _)

/-- No character goes on from one text to the other: one of them has an ASCII byte there, or nothing. -/
def Sharp (before after : List UInt8) : Prop := (∀ b ∈ before.getLast?, b < 0x80) ∨ ∀ b ∈ after.head?, b < 0x80

theorem sharp_append {front piece : List UInt8} (hne : piece ≠ []) (h : ∀ b ∈ piece.getLast?, b < 0x80) :
    Sharp (front ++ piece) rest := by
  refine .inl fun b hb => h b ?_
  rwa [getLast?_append_of_ne_nil _ hne] at hb

theorem sharp_concat {front : List UInt8} {b : UInt8} (hb : b < 0x80) (piece : List UInt8) :
    Sharp (front ++ (piece ++ [b])) rest := sharp_append (by simp) (by simpa using hb)

theorem sharp_nil : Sharp [] rest := .inl (by simp)

theorem ascii_of {p : UInt8 → Bool} (hp : ∀ n : Fin 256, p (.ofFin n) = true → UInt8.ofFin n < 0x80) {b : UInt8}
    (hb : p b = true) : b < 0x80 := hp b.toFin hb

theorem Trivium.sharp (h : Trivium fresh item rest) (front : List UInt8) : Sharp (front ++ item) rest := by
  cases h with
  | @blank b _ hb =>
    refine sharp_concat (ascii_of (p := fun b => isBlankByte b || b == newline) (by decide +kernel) ?_) []
    simpa using hb
  | splice => exact sharp_concat (by decide) [backslash]
  | lineComment _ hrest => exact .inr fun b hb => hrest b hb ▸ by decide
  | @blockComment body =>
    have hlast : slash :: star :: (body ++ [star, slash]) = slash :: star :: (body ++ [star]) ++ [slash] := by simp
    rw [hlast]
    exact sharp_concat (by decide) _
  | directive _ h => exact .inr fun b hb => (h.2 b hb).1 ▸ by decide

theorem Digits.ascii {bytes : List UInt8} (h : Digits bytes) : ∀ b ∈ bytes, b < 0x80 := by
  induction h with
  | nil => simp
  | exponent hb hc _ ih =>
    exact forall_mem_cons.2 ⟨ascii_of (by decide +kernel) hb, forall_mem_cons.2 ⟨ascii_of (by decide +kernel) hc, ih⟩⟩
  | plain hb _ ih =>
    refine forall_mem_cons.2 ⟨ascii_of (p := fun b => isLetterByte b || isDigitByte b || b == '.'.toUInt8 ||
      b == '_'.toUInt8) (by decide +kernel) ?_, ih⟩
    simpa [or_assoc] using hb
  | separator _ _ ih => exact forall_mem_cons.2 ⟨by decide, ih⟩

theorem Lexeme.sharp {lexeme : List UInt8} (h : Lexeme kind lexeme rest) (front : List UInt8) :
    Sharp (front ++ lexeme) rest := by
  have hne := h.ne_nil
  cases h with
  | word _ _ hrest =>
    exact .inr fun b hb => ascii_of (p := fun b => !isWordByte b) (by decide +kernel) (by simp [hrest b hb])
  | @number b bytes _ hb h =>
    refine sharp_append (by simp) fun c hc => ?_
    rcases mem_cons.1 (mem_of_getLast? hc) with rfl | hc
    · exact ascii_of (p := fun b => isDigitByte b || b == '.'.toUInt8) (by decide +kernel)
        (by simpa using hb.imp_right And.left)
    · exact h.ascii c hc
  | @literal quote mark bytes _ _ hquote _ =>
    rw [← cons_append, ← append_assoc mark]
    exact sharp_concat (ascii_of (by decide +kernel) hquote) _
  | @longPunctuator p _ hp =>
    have hall : ∀ p ∈ longPunctuators, ∀ b ∈ Utf8.encode p, b < 0x80 := by decide +kernel
    exact sharp_append hne fun b hb => hall p hp b (mem_of_getLast? hb)
  | @punctuator b _ hb =>
    have hall : ∀ b ∈ Utf8.encode shortPunctuators, b < 0x80 := by decide +kernel
    exact sharp_concat (hall b hb) []

theorem Cut.lexeme (h : Cut fresh offset bytes ts rest) : ∀ {front}, Sharp front bytes → ∀ t ∈ ts,
    ∃ before after, bytes = before ++ t.bytes ++ after ∧ t.start = offset + before.length ∧
      Lexeme t.kind t.bytes after ∧ Sharp (front ++ before) (t.bytes ++ after) := by
  induction h with
  | done => simp
  | @skip _ _ item _ _ _ hitem _ ih =>
    intro front _ t ht
    obtain ⟨before, after, rfl, hstart, hlexeme, hsharp⟩ := ih (hitem.sharp front) t ht
    exact ⟨item ++ before, after, by simp, by rw [hstart, length_append, Nat.add_assoc], hlexeme,
      by rwa [← append_assoc]⟩
  | @token _ _ _ lexeme bytes _ _ hlexeme _ ih =>
    intro front hfront t ht
    rcases mem_cons.1 ht with rfl | ht
    · exact ⟨[], bytes, rfl, rfl, hlexeme, by rwa [append_nil]⟩
    · obtain ⟨before, after, rfl, hstart, hlexeme', hsharp⟩ := ih (hlexeme.sharp front) t ht
      exact ⟨lexeme ++ before, after, by simp, by rw [hstart, length_append, Nat.add_assoc], hlexeme',
        by rwa [← append_assoc]⟩

theorem Cut.mem (h : Cut fresh offset bytes ts rest) : ∀ t ∈ ts,
    ∃ before after, bytes = before ++ t.bytes ++ after ∧ t.start = offset + before.length := fun t ht =>
  let ⟨before, after, hbytes, hstart, _⟩ := h.lexeme sharp_nil t ht
  ⟨before, after, hbytes, hstart⟩

theorem Cut.ordered (h : Cut fresh offset bytes ts rest) :
    ∀ p ≤ offset, Ordered p ts ∧ lastStop p ts ≤ offset + bytes.length := by
  induction h with
  | done => exact fun p hp => ⟨trivial, hp.trans (Nat.le_add_right _ _)⟩
  | @skip _ _ item bytes _ _ _ _ ih =>
    intro p hp
    rw [length_append, ← Nat.add_assoc]
    exact ih p (hp.trans (Nat.le_add_right _ _))
  | @token _ offset _ lexeme bytes _ _ hlexeme _ ih =>
    intro p hp
    obtain ⟨ho, hle⟩ := ih (offset + lexeme.length) le_rfl
    rw [length_append, ← Nat.add_assoc]
    exact ⟨⟨hp, Nat.lt_add_of_pos_right (length_pos_iff.2 hlexeme.ne_nil), ho⟩, hle⟩

/-! ## The scan -/

theorem scanFrom_pending : ∀ (pending : Nat) (offset : Nat) (bytes : List UInt8),
    scanFrom lineStart offset pending bytes = scanFrom lineStart (offset + pending) 0 (bytes.drop pending)
  | 0, _, _ => rfl
  | _ + 1, _, [] => rfl
  | pending + 1, offset, _ :: rest => by
    rw [scanFrom, scanFrom_pending pending, drop_succ_cons, Nat.add_right_comm, Nat.add_assoc]

theorem scanFrom_past {more : Nat} (hbytes : b :: bytes = item ++ rest) (hmore : item.length = more + 1) :
    scanFrom lineStart (offset + 1) more bytes = scanFrom lineStart (offset + item.length) 0 rest := by
  rw [scanFrom_pending, hmore, Nat.add_right_comm, Nat.add_assoc]
  congr 1
  rw [← drop_succ_cons (a := b), hbytes, ← hmore, drop_left]

/-- What a scan gives: all tokens, or what is wrong with the bytes that could not be cut. -/
inductive Scanned (fresh : Bool) (offset : Nat) (bytes : List UInt8) : Except ScanError (List Token) → Prop
  | tokens {ts : List Token} (h : Cut fresh offset bytes ts []) : Scanned fresh offset bytes (.ok ts)
  | error {e : ScanError} {ts : List Token} {rest : List UInt8} (h : Cut fresh offset bytes ts rest)
    (he : e.At (offset + (bytes.length - rest.length)) rest) : Scanned fresh offset bytes (.error e)

theorem Scanned.skip {r : Except ScanError (List Token)} (hitem : Trivium fresh item bytes)
    (h : Scanned (fresh || item.contains newline) (offset + item.length) bytes r) :
    Scanned fresh offset (item ++ bytes) r := by
  cases h with
  | tokens h => exact .tokens (.skip hitem h)
  | error h he =>
    refine .error (.skip hitem h) ?_
    have := h.suffix.length_le
    rwa [length_append, Nat.add_sub_assoc this, ← Nat.add_assoc]

theorem Scanned.token {lexeme : List UInt8} (hlexeme : Lexeme kind lexeme bytes)
    (h : Scanned false (offset + lexeme.length) bytes (.ok ts)) :
    Scanned fresh offset (lexeme ++ bytes) (.ok (⟨kind, offset, lexeme⟩ :: ts)) := by
  cases h with
  | tokens h => exact .tokens (.token hlexeme h)

theorem Scanned.tokenError {lexeme : List UInt8} (hlexeme : Lexeme kind lexeme bytes)
    (h : Scanned false (offset + lexeme.length) bytes (.error e)) :
    Scanned fresh offset (lexeme ++ bytes) (.error e) := by
  cases h with
  | error h he =>
    refine .error (.token hlexeme h) ?_
    have := h.suffix.length_le
    rwa [length_append, Nat.add_sub_assoc this, ← Nat.add_assoc]

theorem scanned_scanFrom : ∀ (lineStart fresh : Bool) (offset : Nat) (bytes : List UInt8),
    (lineStart = true → fresh = true) → Scanned fresh offset bytes (scanFrom lineStart offset 0 bytes)
  | _, _, _, [], _ => .tokens .done
  | lineStart, fresh, offset, b :: bytes, hfresh => by
    rw [scanFrom]
    have hpiece := piece_of lineStart offset b bytes
    generalize piece lineStart offset b bytes = r at hpiece
    cases hpiece with
    | error he => exact .error .done (by simpa using he)
    | @skipped item rest more atStart hbytes hmore hitem hstart =>
      have hlt : rest.length < (b :: bytes).length := by rw [hbytes, length_append]; omega
      simp only
      rw [scanFrom_past hbytes hmore, hbytes]
      refine .skip (hitem.mono hfresh) (scanned_scanFrom atStart _ _ rest fun h => ?_)
      rw [Bool.or_eq_true, contains_iff_mem]
      exact (hstart h).imp_left hfresh
    | @token lexeme rest kind more hbytes hmore hlexeme =>
      have hlt : rest.length < (b :: bytes).length := by rw [hbytes, length_append]; omega
      have hrest := scanned_scanFrom false false (offset + lexeme.length) rest id
      simp only
      rw [scanFrom_past hbytes hmore, hbytes]
      cases hr : scanFrom false (offset + lexeme.length) 0 rest with
      | error e => exact .tokenError hlexeme (hr ▸ hrest)
      | ok ts =>
        have htake : b :: bytes.take more = lexeme := by
          rw [← take_succ_cons, hbytes, ← hmore, take_left]
        simp only
        rw [htake]
        exact .token hlexeme (hr ▸ hrest)
termination_by _ _ _ bytes => bytes.length
decreasing_by all_goals exact hlt

end Pieces

theorem ScanError.At.offset_lt {offset : Nat} {bytes : List UInt8} (h : e.At offset bytes) :
    e.offset < offset + bytes.length := by
  cases h <;> simp [ScanError.offset]

theorem cut_of_scan (h : scan source = .ok ts) : Cut true 0 source ts [] := by
  have hscanned := scanned_scanFrom true true 0 source id
  change Scanned true 0 source (scan source) at hscanned
  rw [h] at hscanned
  cases hscanned with
  | tokens h => exact h

theorem scan_ordered (h : scan source = .ok ts) :
    Ordered 0 ts ∧ lastStop 0 ts ≤ source.length := by
  simpa using (cut_of_scan h).ordered 0 (Nat.le_refl 0)

theorem exists_cut_of_scan_error (he : scan source = .error e) :
    e.offset < source.length ∧ ∃ ts before rest, source = before ++ rest ∧ Cut true 0 source ts rest ∧
      e.At before.length rest := by
  have hscanned := scanned_scanFrom true true 0 source id
  change Scanned true 0 source (scan source) at hscanned
  rw [he] at hscanned
  cases hscanned with
  | @error _ ts rest h hat =>
  obtain ⟨before, rfl⟩ := h.suffix
  rw [length_append, Nat.zero_add, Nat.add_sub_cancel] at hat
  exact ⟨by simpa using hat.offset_lt, ts, before, rest, rfl, h, hat⟩

/-- **Only trivia is lost.** A source that can be scanned is its tokens, none of them empty, with nothing but blanks,
spliced lines, comments and preprocessor lines before, between and after them. Where the scan fails, it has cut the
source in the same way up to a comment or a literal that is not closed, a literal with a newline in it, or a byte that
begins nothing, and that is what it reports. -/
theorem scan_cut (source : List UInt8) :
    (∀ ts, scan source = .ok ts → Cut true 0 source ts [] ∧ Ordered 0 ts ∧
      ∀ t ∈ ts, t.stop ≤ source.length ∧ (source.drop t.start).take (t.stop - t.start) = t.bytes) ∧
    ∀ e, scan source = .error e → e.offset < source.length ∧ ∃ ts before rest, source = before ++ rest ∧
      Cut true 0 source ts rest ∧ e.At before.length rest := by
  constructor
  · intro ts hts
    have hcut := cut_of_scan hts
    refine ⟨hcut, (scan_ordered hts).1, fun t ht => ?_⟩
    obtain ⟨before, after, rfl, hstart⟩ := hcut.mem t ht
    rw [Nat.zero_add] at hstart
    constructor
    · rw [stop, hstart]
      simp
    · rw [stop, hstart, Nat.add_sub_cancel_left, append_assoc, drop_left, take_left]
  · exact fun e he => exists_cut_of_scan_error he

/-- Tokens with each kind of trivia between them. -/
def interspersed : List UInt8 := Utf8.encode "#if a \\\n \"\n/* \" */int\\\n//* b\n\t#\n'\\'' #"

/-- A comment that is not closed, after a literal that looks like one. -/
def unclosed : List UInt8 := Utf8.encode "\"/*\" /*/"

theorem scan_cut_interspersed :
    (∃ ts, scan interspersed = .ok ts ∧ ts.map Token.span = [⟨18, 21⟩, ⟨32, 36⟩, ⟨37, 38⟩] ∧
      Cut true 0 interspersed ts []) ∧
    ∃ e ts before rest, scan unclosed = .error e ∧ e = .unterminatedComment 5 ∧ unclosed = before ++ rest ∧
      Cut true 0 unclosed ts rest ∧ e.At before.length rest := by
  refine ⟨?_, ?_⟩
  · have hspans : (scan interspersed).toOption.map (·.map Token.span) = some [⟨18, 21⟩, ⟨32, 36⟩, ⟨37, 38⟩] := by
      decide +kernel
    cases hts : scan interspersed with
    | error e => simp [hts, Except.toOption] at hspans
    | ok ts =>
      rw [hts] at hspans
      exact ⟨ts, rfl, Option.some.inj hspans, ((scan_cut interspersed).1 ts hts).1⟩
  · have he : scan unclosed = .error (.unterminatedComment 5) := by decide +kernel
    obtain ⟨-, ts, before, rest, hcut⟩ := (scan_cut unclosed).2 _ he
    exact ⟨_, ts, before, rest, he, rfl, hcut⟩

end Deferral.Token
