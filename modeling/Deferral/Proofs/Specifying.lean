import Deferral.Proofs.Climbing
import Deferral.Proofs.Declaring
import Deferral.Proofs.Reading.TopLevel

/-!
# Specifiers around the name of a type

Storage classes, function specifiers and qualifiers may stand on either side of the name of a declared type. Recognition
reads the name as a type only if nothing but qualifiers comes before it: any other word already counts as a type, and
the name is then taken for what is declared (`heads_of_specifiers`).

A run of `specifiers` over such words is followed word by word. After the name of a type every further word is read, so
the one thing to know is whether the name itself is read, which depends on the words before it alone.
-/

namespace Deferral

open List

/-! ## Words that name no type -/

namespace Token

def storageWords : List String := ["static", "extern", "register", "auto", "_Thread_local"]

def functionWords : List String := ["inline", "_Noreturn"]

def isQualifier (t : Token) : Bool := t.kind == .word && qualifierWords.contains t.text

/-- Words that say how something is declared, and name no type. -/
def isModifier (t : Token) : Bool :=
  t.kind == .word && (storageWords ++ functionWords ++ qualifierWords).contains t.text

theorem isModifier_words {t : Token} (h : t.isModifier = true) : t.kind = .word ∧ tagWords.contains t.text = false ∧
    specifierWords.contains t.text = true ∧ t.text.isEmpty = false := by
  have hall : ∀ w ∈ storageWords ++ functionWords ++ qualifierWords,
      tagWords.contains w = false ∧ specifierWords.contains w = true ∧ w.isEmpty = false := by decide
  simp only [isModifier, Bool.and_eq_true, beq_iff_eq, contains_iff_mem] at h
  exact ⟨h.1, hall _ h.2⟩

theorem isIdentifier_words {t : Token} (h : t.isIdentifier = true) : t.kind = .word ∧ tagWords.contains t.text = false ∧
    specifierWords.contains t.text = false := by
  simp only [isIdentifier, Bool.and_eq_true, beq_iff_eq, Bool.not_eq_true', Bool.or_eq_false_iff] at h
  exact ⟨h.1, h.2.1.2, h.2.1.1⟩

end Token

namespace Grammar

abbrev Modifier := { t : Token // t.isModifier = true }

abbrev Qualifier := { t : Token // t.isQualifier = true }

/-- Modifiers around the name of one of the types `known`. The name has a text: bytes that are none are not told apart.
-/
structure TypePhrase (known : List String) where
  before : List Modifier
  name : Name
  after : List Modifier
  isKnown : known.contains name.1.text = true
  hasText : name.1.text.isEmpty = false

/-- A pointer mark with its qualifiers, or a reference mark. -/
inductive DeclaratorMark where
  | pointer (star : Punct "*") (qualifiers : List Qualifier)
  | reference (ampersand : Punct "&")

def DeclaratorMark.tokens : DeclaratorMark → List Token
  | .pointer star qualifiers => star.1 :: qualifiers.map (·.1)
  | .reference ampersand => [ampersand.1]

def DeclaratorMark.event : DeclaratorMark → Event
  | .pointer star _ => mark .pointer star.1.stop "*"
  | .reference ampersand => mark .reference ampersand.1.stop "&"

def DeclaratorMark.kind : DeclaratorMark → Assembly.FragmentKind
  | .pointer _ _ => .pointer
  | .reference _ => .reference

/-- What a declaration begins with: words of its type, marks, and the declared name. -/
structure DeclarationHead where
  words : List Token
  marks : List DeclaratorMark
  name : Name

def wordEvent (t : Token) : Event := mark .typeWord t.stop t.text

namespace DeclarationHead

def events (h : DeclarationHead) : List Event :=
  h.words.map wordEvent ++ (h.marks.map DeclaratorMark.event ++ [tokenLeaf .declaratorName h.name.1])

/-- The words joined by blanks, and a star for each pointer mark. -/
def type (h : DeclarationHead) : String :=
  " ".intercalate (h.words.map Token.text) ++ String.ofList ((h.marks.filter (·.kind == .pointer)).map fun _ => '*')

def isReference (h : DeclarationHead) : Bool := h.marks.any (·.kind == .reference)

/-- Recognition reads the words as specifiers, and the name as the declared name: all that is left of the declarator are
array suffixes. -/
def IsReadAt (h : DeclarationHead) (steps : Nat) (c : Cursor) : Prop :=
  ∃ c₁ c₂, specifiers steps false false c = .ok () c₁ ∧ Moves c c₁ h.words (h.words.map wordEvent) ∧
    Round.declarator (Job.run steps) false c₁ = Job.run steps .arraySuffixes c₂ ∧
      Moves c₁ c₂ (h.marks.flatMap DeclaratorMark.tokens ++ [h.name.1])
        (h.marks.map DeclaratorMark.event ++ [tokenLeaf .declaratorName h.name.1])

/-- The events make one declaration, of the type and the name, and stage it. -/
def IsDeclaredIn (h : DeclarationHead) (a : Assembly) : Prop :=
  ∃ b span, Assembly.Takes a h.events b ∧ b.staged = ⟨a.tree.size⟩ :: a.staged ∧
    b.tree = (a.tree.push (.declaration h.type h.name.1.literal h.isReference) span).2

end DeclarationHead

namespace TypePhrase

variable {known : List String}

def words (s : TypePhrase known) : List Token := s.before.map (·.1) ++ s.name.1 :: s.after.map (·.1)

/-- Only qualifiers come before the name. -/
def leads (s : TypePhrase known) : Bool := s.before.all (·.1.isQualifier)

/-- What is read where marks and a name follow. -/
def head (s : TypePhrase known) (marks : List DeclaratorMark) (name : Name) : DeclarationHead :=
  if s.leads then ⟨s.words, marks, name⟩ else ⟨s.before.map (·.1), [], s.name⟩

end TypePhrase

/-! ## Words -/

section Words

variable {c c' : Cursor} {t : Token} {rest : List Token} {n : Nat}

theorem specifiers_modifier (named any : Bool) (m : Modifier) (h : c.rest = m.1 :: rest) :
    ∃ c', Moves c c' [m.1] [wordEvent m.1] ∧
    specifiers (n + 1) named any c = specifiers n (named || !m.1.isQualifier) true c' := by
  obtain ⟨hk, htag, hword, -⟩ := Token.isModifier_words m.2
  refine ⟨c.advance.push (wordEvent m.1), (moves_next h).trans (moves_push _), ?_⟩
  rw [specifiers, Job.run, Job.round, Round.specifiers, get_bind]
  simp only [front?_of_rest h, hk, htag, hword, bne_self_eq_false, Bool.false_eq_true, if_false, if_true,
    advance_bind, Token.isQualifier, beq_self_eq_true, Bool.true_and]
  rfl

theorem specifiers_modifiers : ∀ (named any : Bool) (ms : List Modifier) {c : Cursor}, c.rest = ms.map (·.1) ++ rest →
    ∃ c', Moves c c' (ms.map (·.1)) (ms.map fun m => wordEvent m.1) ∧
      specifiers (ms.length + n) named any c =
        specifiers n (named || !ms.all (·.1.isQualifier)) (any || !ms.isEmpty) c'
  | _, _, [], c, _ => ⟨c, .refl c, by simp⟩
  | named, any, m :: ms, c, h => by
    obtain ⟨c₁, h₁, hm⟩ := specifiers_modifier (n := ms.length + n) named any m h
    obtain ⟨c₂, h₂, hms⟩ := specifiers_modifiers (named || !m.1.isQualifier) true ms (h₁.rest_eq h)
    refine ⟨c₂, h₁.trans h₂, ?_⟩
    rw [length_cons, Nat.add_right_comm, hm, hms]
    simp [Bool.not_and, Bool.or_assoc]

theorem specifiers_name (any : Bool) (s : TypePhrase c.typeNames) (h : c.rest = s.name.1 :: rest) :
    ∃ c', Moves c c' [s.name.1] [wordEvent s.name.1] ∧
      specifiers (n + 1) false any c = specifiers n true true c' := by
  obtain ⟨hk, htag, hword⟩ := Token.isIdentifier_words s.name.2
  refine ⟨c.advance.push (wordEvent s.name.1), (moves_next h).trans (moves_push _), ?_⟩
  rw [specifiers, Job.run, Job.round, Round.specifiers, get_bind]
  simp only [front?_of_rest h, hk, htag, hword, s.isKnown, bne_self_eq_false, Bool.false_eq_true, if_false, if_true,
    advance_bind, Bool.not_false, Bool.and_self]
  rfl

/-- After a type, specifiers end before anything that is neither a specifier word nor a tag. -/
theorem specifiers_end (h : ∀ t ∈ c.rest.head?, t.kind = .word →
    Token.tagWords.contains t.text = false ∧ Token.specifierWords.contains t.text = false) :
    specifiers (n + 1) true true c = .ok () c := by
  rw [specifiers, Job.run, Job.round, Round.specifiers, get_bind]
  cases hf : c.front? with
  | none => rfl
  | some t =>
    by_cases hk : t.kind = .word
    · obtain ⟨htag, hword⟩ := h t hf hk
      simp only [hk, htag, hword, bne_self_eq_false, Bool.false_eq_true, if_false, Bool.not_true, Bool.false_and]
      rfl
    · simp only [bne_iff_ne.2 hk, if_true]
      rfl

end Words

/-! ## Marks and the name -/

section Declarators

variable {c c' : Cursor} {t : Token} {rest : List Token} {n : Nat}

theorem eatPunct_of_rest {q : String} (h : c.rest = t :: rest) :
    eatPunct q c = if t.isPunct q then .ok true c.advance else .ok false c := by
  simp only [eatPunct, get_bind, atPunct_of_rest h]
  split <;> rfl

theorem reportHere_bind {β : Type} {kind : Event.Kind} {literal : String} (f : Unit → Recognizer β) :
    (reportHere kind literal >>= f) c = f () (c.push (mark kind c.lastEnd literal)) := rfl

theorem advanceWhile_qualifiers (qs : List Qualifier) (h : c.rest = qs.map (·.1) ++ rest)
    (hrest : ∀ t ∈ rest.head?, t.isQualifier = false) :
    Moves c (c.advanceWhile Token.isQualifier) (qs.map (·.1)) [] := by
  have htake : c.rest.takeWhile Token.isQualifier = qs.map (·.1) := by
    have hall : ∀ t ∈ qs.map (·.1), t.isQualifier = true := by
      simp only [forall_mem_map]
      exact fun q _ => q.2
    rw [h, takeWhile_append_of_pos hall]
    cases rest with
    | nil => simp
    | cons t rest => simp [hrest t rfl]
  exact htake ▸ moves_advanceWhile (c := c) Token.isQualifier

theorem marks_mark (m : DeclaratorMark) (h : c.rest = m.tokens ++ rest)
    (hrest : ∀ t ∈ rest.head?, t.isQualifier = false) :
    ∃ c', Moves c c' m.tokens [m.event] ∧ Job.run (n + 1) .marks c = Job.run n .marks c' := by
  cases m with
  | pointer star qs =>
    have h₁ := moves_next h
    have h₂ := h₁.trans (moves_push (mark .pointer star.1.stop "*"))
    have h₃ := advanceWhile_qualifiers qs (h₂.rest_eq h) hrest
    refine ⟨_, h₂.trans h₃, ?_⟩
    have hlast : c.advance.lastEnd = star.1.stop := by simpa using h₁.lastEnd
    rw [Job.run, Job.round, Round.marks, bind_of_ok _ ((eatPunct_of_rest h).trans (if_pos star.2))]
    simp only [if_true]
    rw [reportHere_bind, hlast]
    rfl
  | reference ampersand =>
    have h₁ := moves_next h
    have h₂ := h₁.trans (moves_push (mark .reference ampersand.1.stop "&"))
    refine ⟨_, h₂, ?_⟩
    have hlast : c.advance.lastEnd = ampersand.1.stop := by simpa using h₁.lastEnd
    have hstar : ¬ampersand.1.isPunct "*" = true := by simp [isPunct_of_ne ampersand.2]
    rw [Job.run, Job.round, Round.marks, bind_of_ok _ ((eatPunct_of_rest h).trans (if_neg hstar))]
    simp only [Bool.false_eq_true, if_false]
    rw [bind_of_ok _ ((eatPunct_of_rest h).trans (if_pos ampersand.2))]
    simp only [if_true]
    rw [reportHere_bind, hlast]

theorem isIdentifier_other {t : Token} (h : t.isIdentifier = true) :
    t.isQualifier = false ∧ ∀ q, t.isPunct q = false := by
  obtain ⟨hk, -, hword⟩ := Token.isIdentifier_words h
  refine ⟨?_, fun q => by simp [Token.isPunct, hk]⟩
  have hall : ∀ w ∈ Token.qualifierWords, Token.specifierWords.contains w = true := by decide
  refine Bool.eq_false_iff.2 fun hq => ?_
  simp only [Token.isQualifier, Bool.and_eq_true, contains_iff_mem] at hq
  rw [hall _ hq.2] at hword
  cases hword

theorem head_marks (ms : List DeclaratorMark) (name : Name) :
    ∀ t ∈ (ms.flatMap DeclaratorMark.tokens ++ name.1 :: rest).head?,
      t.isQualifier = false ∧ (t.kind = .word →
        Token.tagWords.contains t.text = false ∧ Token.specifierWords.contains t.text = false) := by
  have hpunct {t : Token} {q : String} (h : t.isPunct q = true) : t.isQualifier = false ∧ (t.kind = .word →
      Token.tagWords.contains t.text = false ∧ Token.specifierWords.contains t.text = false) := by
    obtain ⟨hk, -⟩ := isPunct_iff.1 h
    simp [Token.isQualifier, hk]
  cases ms with
  | nil =>
    rintro t ⟨⟩
    exact ⟨(isIdentifier_other name.2).1, fun _ => (Token.isIdentifier_words name.2).2⟩
  | cons m ms =>
    cases m with
    | pointer star qs =>
      rintro t ⟨⟩
      exact hpunct star.2
    | reference ampersand =>
      rintro t ⟨⟩
      exact hpunct ampersand.2

theorem marks_marks (name : Name) : ∀ (ms : List DeclaratorMark) {n : Nat} {c : Cursor},
    c.rest = ms.flatMap DeclaratorMark.tokens ++ name.1 :: rest → ms.length < n →
      ∃ c', Moves c c' (ms.flatMap DeclaratorMark.tokens) (ms.map DeclaratorMark.event) ∧ Job.run n .marks c = .ok () c'
  | [], n + 1, c, h, _ => by
    obtain ⟨-, hp⟩ := isIdentifier_other name.2
    refine ⟨c, .refl c, ?_⟩
    rw [Job.run, Job.round, Round.marks, bind_of_ok _ ((eatPunct_of_rest h).trans (if_neg (by simp [hp])))]
    simp only [Bool.false_eq_true, if_false]
    rw [bind_of_ok _ ((eatPunct_of_rest h).trans (if_neg (by simp [hp])))]
    rfl
  | m :: ms, n + 1, c, h, hn => by
    rw [flatMap_cons, append_assoc] at h
    obtain ⟨c₁, h₁, hm⟩ := marks_mark (n := n) m h fun t ht => (head_marks ms name t ht).1
    obtain ⟨c₂, h₂, hms⟩ := marks_marks name ms (h₁.rest_eq h) (Nat.lt_of_succ_lt_succ hn)
    exact ⟨c₂, h₁.trans h₂, hm.trans hms⟩

/-- Marks and a name: what is left of the declarator are array suffixes. -/
theorem declarator_marks (ms : List DeclaratorMark) (name : Name)
    (h : c.rest = ms.flatMap DeclaratorMark.tokens ++ name.1 :: rest) (hn : ms.length < n) :
    ∃ c', Moves c c' (ms.flatMap DeclaratorMark.tokens ++ [name.1])
        (ms.map DeclaratorMark.event ++ [tokenLeaf .declaratorName name.1]) ∧
      Round.declarator (Job.run n) false c = Job.run n .arraySuffixes c' := by
  obtain ⟨c₁, h₁, hms⟩ := marks_marks name ms h hn
  have hr := h₁.rest_eq h
  obtain ⟨-, hp⟩ := isIdentifier_other name.2
  refine ⟨_, h₁.trans ((moves_next hr).trans (moves_push (tokenLeaf .declaratorName name.1))), ?_⟩
  rw [Round.declarator, bind_of_ok _ hms, get_bind]
  simp only [front?_of_rest hr, hp, name.2, Bool.false_eq_true, if_false, if_true]
  rfl

end Declarators

/-! ## Heads of declarations -/

section Heads

variable {c : Cursor} {rest : List Token} {n : Nat}

theorem TypePhrase.isReadAt_head (s : TypePhrase c.typeNames) (ms : List DeclaratorMark) (name : Name)
    (h : c.rest = s.words ++ (ms.flatMap DeclaratorMark.tokens ++ name.1 :: rest))
    (hn : s.words.length + ms.length < n) : (s.head ms name).IsReadAt n c := by
  have hlength : s.words.length = s.before.length + (s.after.length + 1) := by simp [words]
  obtain ⟨k, rfl⟩ : ∃ k, n = s.before.length + (1 + (s.after.length + (k + 1))) := ⟨n - s.words.length - 1, by omega⟩
  rw [words, append_assoc, cons_append] at h
  obtain ⟨c₁, h₁, hbefore⟩ := specifiers_modifiers (n := 1 + (s.after.length + (k + 1))) false false s.before h
  have hr₁ := h₁.rest_eq h
  have hall : s.before.all (·.1.isQualifier) = s.leads := rfl
  rw [hall] at hbefore
  rw [head]
  split
  case isTrue hl =>
    -- The name is the first word that counts as a type.
    let s₁ : TypePhrase c₁.typeNames := { s with isKnown := by rw [h₁.typeNames]; exact s.isKnown }
    obtain ⟨c₂, h₂, hname⟩ := specifiers_name (n := s.after.length + (k + 1)) (!s.before.isEmpty) s₁ hr₁
    have hr₂ := h₂.rest_eq hr₁
    obtain ⟨c₃, h₃, hafter⟩ := specifiers_modifiers (n := k + 1) true true s.after hr₂
    have hr₃ := h₃.rest_eq hr₂
    have hend : specifiers (k + 1) true true c₃ = .ok () c₃ :=
      specifiers_end fun t ht => (head_marks ms name t (hr₃ ▸ ht)).2
    obtain ⟨c₄, h₄, hd⟩ := declarator_marks ms name hr₃ (n := s.before.length + (1 + (s.after.length + (k + 1))))
      (by omega)
    refine ⟨c₃, c₄, ?_, (h₁.trans (h₂.trans h₃)).of_eq rfl (by simp [words, s₁]), hd, h₄⟩
    rw [hbefore, hl, Nat.add_comm 1]
    simp only [Bool.not_true, Bool.or_false, Bool.false_or]
    rw [hname, hafter]
    simpa using hend
  case isFalse hl =>
    -- A word before the name counts as a type, so the name is what is declared.
    have hne : s.before.isEmpty = false := by
      cases hb : s.before with
      | nil => simp [leads, hb] at hl
      | cons => rfl
    have hend : specifiers (1 + (s.after.length + (k + 1))) true true c₁ = .ok () c₁ := by
      rw [Nat.add_comm 1]
      refine specifiers_end fun t ht _ => ?_
      rw [hr₁] at ht
      cases ht
      exact (Token.isIdentifier_words s.name.2).2
    obtain ⟨c₂, h₂, hd⟩ := declarator_marks (n := s.before.length + (1 + (s.after.length + (k + 1)))) [] s.name hr₁
      (by simp only [length_nil]; omega)
    refine ⟨c₁, c₂, ?_, h₁.of_eq rfl (by simp), hd, h₂⟩
    rw [hbefore, hne, Bool.eq_false_iff.2 hl]
    exact hend

end Heads

end Grammar

/-! ## Declarations from heads -/

namespace Assembly

open Grammar

section Fragments

variable {b : Assembly}

theorem takes_words : ∀ (ws : List Token) {b : Assembly}, (∀ t ∈ ws, t.text.isEmpty = false) → b.failure? = none →
    b.mode ≠ .tagName → ∃ fs : List Fragment, Takes b (ws.map wordEvent) { b with fragments := b.fragments ++ fs } ∧
      (∀ r ∈ fs, r.kind = .type) ∧ fs.map (·.text) = ws.map Token.text
  | [], b, _, _, _ => ⟨[], takes_nil.2 (by simp), nofun, rfl⟩
  | t :: ws, b, hw, hf, hm => by
    obtain ⟨ht, hw⟩ := forall_mem_cons.1 hw
    obtain ⟨span, hspan⟩ := exists_leafSpan (e := wordEvent t) (placed_text ht) b
    have h₁ : dispatch (wordEvent t) b =
        .ok () { b with fragments := b.fragments ++ [⟨.type, span.start, t.text⟩] } := by
      refine bind_ok.2 ⟨_, _, hspan, ?_⟩
      rw [get_bind, if_neg hm]
      rfl
    obtain ⟨fs, h₂, hkinds, htexts⟩ :=
      takes_words ws (b := { b with fragments := b.fragments ++ [⟨.type, span.start, t.text⟩] }) hw hf hm
    refine ⟨⟨.type, span.start, t.text⟩ :: fs, ?_, forall_mem_cons.2 ⟨rfl, hkinds⟩, by simp [htexts]⟩
    have h := (Takes.of_dispatch hf h₁).trans h₂
    rwa [append_assoc, singleton_append] at h

theorem placed_mark (m : DeclaratorMark) : m.event.placed = true := by
  have hplaced {t : Token} {q : String} {kind : Event.Kind} (h : t.isPunct q = true) (hq : q.isEmpty = false) :
      (mark kind t.stop q).placed = true := by
    obtain ⟨-, rfl⟩ := isPunct_iff.1 h
    exact placed_text hq
  cases m with
  | pointer star _ => exact hplaced star.2 rfl
  | reference ampersand => exact hplaced ampersand.2 rfl

theorem takes_marks : ∀ (ms : List DeclaratorMark) {b : Assembly}, b.failure? = none →
    ∃ fs : List Fragment, Takes b (ms.map DeclaratorMark.event) { b with fragments := b.fragments ++ fs } ∧
      fs.map (·.kind) = ms.map DeclaratorMark.kind
  | [], b, _ => ⟨[], takes_nil.2 (by simp), rfl⟩
  | m :: ms, b, hf => by
    obtain ⟨span, hspan⟩ := exists_leafSpan (placed_mark m) b
    have h₁ : dispatch m.event b =
        .ok () { b with fragments := b.fragments ++ [⟨m.kind, span.start, m.event.literal⟩] } := by
      cases m with
      | pointer | reference => exact bind_ok.2 ⟨_, _, hspan, rfl⟩
    obtain ⟨fs, h₂, hkinds⟩ :=
      takes_marks ms (b := { b with fragments := b.fragments ++ [⟨m.kind, span.start, m.event.literal⟩] }) hf
    refine ⟨⟨m.kind, span.start, m.event.literal⟩ :: fs, ?_, by simp [hkinds]⟩
    have h := (Takes.of_dispatch hf h₁).trans h₂
    rwa [append_assoc, singleton_append] at h

end Fragments

section Texts

variable {fs gs : List Fragment} {ms : List DeclaratorMark}

theorem kind_ne_type (m : DeclaratorMark) : m.kind ≠ .type := by cases m <;> nofun

theorem typeText?_append {ws : List String} (hne : ws ≠ []) (hf : ∀ r ∈ fs, r.kind = .type) (ht : fs.map (·.text) = ws)
    (hg : gs.map (·.kind) = ms.map DeclaratorMark.kind) : typeText? (fs ++ gs) = some (" ".intercalate ws) := by
  have hgs : ∀ r ∈ gs, r.kind ≠ .type := by
    intro r hr
    have hm : r.kind ∈ ms.map DeclaratorMark.kind := hg ▸ mem_map_of_mem hr
    obtain ⟨m, -, hk⟩ := mem_map.1 hm
    exact hk ▸ kind_ne_type m
  have hfs : fs ≠ [] := by
    rintro rfl
    exact hne ht.symm
  rw [typeText?_append_marks hgs, typeText?_words hfs hf, ht]

section

variable (hf : ∀ r ∈ fs, r.kind = .type) (hg : gs.map (·.kind) = ms.map DeclaratorMark.kind)
include hf hg

theorem stars_append :
    stars (fs ++ gs) = String.ofList ((ms.filter (·.kind == .pointer)).map fun _ => '*') := by
  have hkinds {α : Type} (l : List α) (k : α → FragmentKind) :
      (l.filter (k · == .pointer)).map (fun _ => '*') = ((l.map k).filter (· == .pointer)).map fun _ => '*' := by
    rw [filter_map, map_map]
    rfl
  rw [stars_words_append hf, stars, hkinds, hg, ← hkinds]

theorem any_reference_append :
    ((fs ++ gs).any (·.kind == .reference)) = ms.any (·.kind == .reference) := by
  have hkinds {α : Type} (l : List α) (k : α → FragmentKind) :
      l.any (k · == .reference) = (l.map k).any (· == .reference) := by
    rw [any_map]
    rfl
  rw [any_reference_words_append hf, hkinds, hg, ← hkinds]

end

end Texts

theorem isDeclaredIn {h : DeclarationHead} {a : Assembly} (hne : h.words ≠ [])
    (hw : ∀ t ∈ h.words, t.text.isEmpty = false) (hname : h.name.1.start < h.name.1.stop) (hf : a.failure? = none)
    (hm : a.mode ≠ .tagName) (hfr : a.fragments = []) : h.IsDeclaredIn a := by
  obtain ⟨fs, h₁, hkinds, htexts⟩ := takes_words h.words hw hf hm
  rw [hfr, nil_append] at h₁
  obtain ⟨gs, h₂, hmarks⟩ := takes_marks h.marks (b := { a with fragments := fs }) hf
  obtain ⟨span, hspan⟩ := exists_leafSpan (e := tokenLeaf .declaratorName h.name.1) (placed_tokenLeaf hname)
    { a with fragments := fs ++ gs }
  have htype := typeText?_append (by simpa using hne) hkinds htexts hmarks
  obtain ⟨log, h₃⟩ := dispatch_name (b := { a with fragments := fs ++ gs }) rfl hspan (by rw [htype, Option.some_or])
  dsimp only at h₃
  rw [stars_append hkinds hmarks, any_reference_append hkinds hmarks] at h₃
  exact ⟨_, _, h₁.trans (h₂.trans (.of_dispatch hf h₃)), rfl, rfl⟩

end Assembly

namespace Grammar

open Assembly

variable {c : Cursor} {rest : List Token} {n : Nat}

theorem DeclarationHead.IsReadAt.words_eq {h : DeclarationHead} {c' : Cursor} {ts : List Token} {es : List Event}
    (H : h.IsReadAt n c) (hc' : specifiers n false false c = .ok () c') (hp : Moves c c' ts es) : h.words = ts := by
  obtain ⟨c₁, _, h₁, hwords, -⟩ := H
  obtain ⟨-, rfl⟩ := EStateM.Result.ok.inj (h₁.symm.trans hc')
  exact append_cancel_right (hwords.rest.symm.trans hp.rest)

theorem TypePhrase.before_ne_words {known : List String} (s : TypePhrase known) : s.before.map (·.1) ≠ s.words := by
  intro h
  have hlength := congrArg List.length h
  simp [words] at hlength

theorem TypePhrase.words_head {known : List String} (s : TypePhrase known) (ms : List DeclaratorMark) (name : Name) :
    (s.head ms name).words ≠ [] ∧ ∀ t ∈ (s.head ms name).words, t.text.isEmpty = false := by
  have hmodifiers (l : List Modifier) : ∀ t ∈ l.map (·.1), t.text.isEmpty = false := by
    simp only [forall_mem_map]
    exact fun m _ => (Token.isModifier_words m.2).2.2.2
  rw [head]
  split
  case isTrue =>
    refine ⟨by simp [words], ?_⟩
    rw [words, forall_mem_append, forall_mem_cons]
    exact ⟨hmodifiers _, s.hasText, hmodifiers _⟩
  case isFalse hl =>
    refine ⟨fun hnil => hl ?_, hmodifiers _⟩
    rw [leads, map_eq_nil_iff.1 hnil]
    rfl

theorem TypePhrase.name_head {known : List String} (s : TypePhrase known) (ms : List DeclaratorMark) (name : Name) :
    (s.head ms name).name = s.name ∨ (s.head ms name).name = name := by
  rw [head]
  split
  case isTrue => exact .inr rfl
  case isFalse => exact .inl rfl

/-- **Specifiers in any order.** Let modifiers and the name of one type, in any order, come before marks and a name. All
of these words are read as specifiers exactly if only qualifiers come before the name of the type. If another word does,
then the words before the name are all that is read, and the name of the type is taken for the declared name. Either way
what is read is declared, with its words joined by blanks as the type. -/
theorem heads_of_specifiers (s : TypePhrase c.typeNames) (ms : List DeclaratorMark) (name : Name)
    (h : c.rest = s.words ++ (ms.flatMap DeclaratorMark.tokens ++ name.1 :: rest))
    (hn : s.words.length + ms.length < n) (hne : ∀ t ∈ c.rest, t.start < t.stop) :
    ((∃ c', specifiers n false false c = .ok () c' ∧ Moves c c' s.words (s.words.map wordEvent)) ↔
      ∀ m ∈ s.before, m.1.isQualifier = true) ∧
    (s.head ms name).IsReadAt n c ∧
    ∀ a : Assembly, a.failure? = none → a.mode ≠ .tagName → a.fragments = [] → (s.head ms name).IsDeclaredIn a := by
  have hread := s.isReadAt_head ms name h hn
  have hleads : s.leads = true ↔ ∀ m ∈ s.before, m.1.isQualifier = true := by simp [TypePhrase.leads]
  refine ⟨⟨fun ⟨c', hc', hp⟩ => ?_, fun hq => ?_⟩, hread, fun a hf hm hfr => ?_⟩
  · have hwords := hread.words_eq hc' hp
    by_contra hq
    rw [← hleads] at hq
    rw [TypePhrase.head, if_neg hq] at hwords
    exact s.before_ne_words hwords
  · rw [TypePhrase.head, if_pos (hleads.2 hq)] at hread
    obtain ⟨c₁, _, hc₁, hp, -⟩ := hread
    exact ⟨c₁, hc₁, hp⟩
  · obtain ⟨hwords, htexts⟩ := s.words_head ms name
    refine isDeclaredIn hwords htexts (hne _ ?_) hf hm hfr
    rw [h]
    rcases s.name_head ms name with hname | hname
    · simp [hname, TypePhrase.words]
    · simp [hname]

/-- A pointer to a type whose name stands between qualifiers and a storage class. -/
def surroundedType : TypePhrase Token.libraryTypes where
  before :=
    [⟨⟨.word, 0, Utf8.encode "const"⟩, by decide +kernel⟩, ⟨⟨.word, 6, Utf8.encode "volatile"⟩, by decide +kernel⟩]
  name := ⟨⟨.word, 15, Utf8.encode "size_t"⟩, by decide +kernel⟩
  after := [⟨⟨.word, 22, Utf8.encode "static"⟩, by decide +kernel⟩]
  isKnown := by decide +kernel
  hasText := by decide +kernel

def surroundedMark : DeclaratorMark :=
  .pointer ⟨⟨.punct, 29, Utf8.encode "*"⟩, by decide +kernel⟩ [⟨⟨.word, 30, Utf8.encode "restrict"⟩, by decide +kernel⟩]

def surroundedName : Name := ⟨⟨.word, 39, Utf8.encode "x"⟩, by decide +kernel⟩

def surrounded : Cursor :=
  { source := Utf8.encode "const volatile size_t static *restrict x"
    rest := surroundedType.words ++ (surroundedMark.tokens ++ [surroundedName.1]) }

set_option maxRecDepth 100000 in
theorem heads_of_specifiers_surrounded :
    (Token.scan surrounded.source).toOption = some surrounded.rest ∧
    (∀ m ∈ surroundedType.before, m.1.isQualifier = true) ∧
    (surroundedType.head [surroundedMark] surroundedName).type = "const volatile size_t static*" ∧
    (surroundedType.head [surroundedMark] surroundedName).IsReadAt 100 surrounded ∧
    (surroundedType.head [surroundedMark] surroundedName).IsDeclaredIn (start []) := by
  have hrest : surrounded.rest =
      surroundedType.words ++ ([surroundedMark].flatMap DeclaratorMark.tokens ++ surroundedName.1 :: []) := by
        decide +kernel
  obtain ⟨-, hread, hdeclared⟩ := heads_of_specifiers (c := surrounded) (n := 100) surroundedType
    [surroundedMark] surroundedName hrest (by decide +kernel) (by decide +kernel)
  exact ⟨by decide +kernel, by decide +kernel, by decide +kernel, hread,
    hdeclared (start []) rfl (by decide +kernel) rfl⟩

/-- A storage class before the name of a type. -/
def storedFirst : List UInt8 := Utf8.encode "void f()\x7b static size_t x; \x7d"

set_option maxRecDepth 100000 in
/-- After a storage class the name of a type is taken for the declared name, and what follows is turned down. -/
theorem not_specifier_storedFirst :
    (trace storedFirst).stop? = some (.rejected (.unexpectedToken (.punct ";") "x" 24)) ∧
    (trace storedFirst).events.toList.drop 4 =
      [mark .typeWord 16 "static",
        { kind := .declaratorName, offset := 23, literal := "size_t", start? := some 17 }] := by
  decide +kernel

end Grammar

end Deferral
