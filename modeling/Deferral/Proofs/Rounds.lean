import Deferral.Proofs.Ledger
import Deferral.Proofs.Spelling

/-!
# Recognizers keep a cursor sound

At a sound cursor (`Cursor.Sound`) the tokens passed and the events so far are known. The ledger has followed the
events, these come in the order of the source, and each leaf is the text of tokens that were passed since the event
before it. `Tokenized.Ends x c Q` says that `x`, started at `c`, gives a cursor with `Q` or turns the source down at a
place inside it, and then also the events so far are in order. There is one rule for each small recognizer. `At` adds
where a cursor has come from, and whether a token has been passed on the way.
-/

namespace Deferral

open List

/-- Kinds of leaves that are reported without a start. -/
def Event.Kind.isWord : Event.Kind → Bool
  | .typeWord | .tagKeyword | .pointer | .reference | .unaryOperator => true
  | _ => false

/-- Kinds of events that are no leaves and may have any literal. -/
def Event.Kind.isPlain : Event.Kind → Bool
  | .typeWord | .tagKeyword | .pointer | .reference | .declaratorName | .identifier | .constant | .unaryOperator
  | .assignment | .relational | .binaryOperator | .caseLabel | .postfixCall | .initializerList | .postfixMember
  | .postfixIncrement | .jump => false
  | _ => true

/-- Leaves with text: those that say where they start, and words that are not empty. -/
def Event.isText (e : Event) : Bool := e.start?.isSome || e.kind.isWord && !e.literal.isEmpty

namespace Grammar

/-- A source and its tokens. -/
structure Tokenized where
  source : List UInt8
  tokens : List Token
  scanned : Token.scan source = .ok tokens

variable {S : Tokenized} {c₀ c c' : Cursor} {b : Bool} {l m : Ledger} {t u : Token} {ts us : List Token} {e : Event}
  {es : List Event} {α β : Type} {x : Recognizer α} {f : α → Recognizer β}

/-! ## Events in order -/

/-- An event that is reported after the events `es`. A leaf is the text from the token `t` to the token `u`. -/
structure Fair (S : Tokenized) (es : List Event) (e : Event) : Prop where
  after : ∀ e' ∈ es, e'.offset ≤ e.offset
  le : e.offset ≤ S.source.length
  spelled : S.source.length < UInt64.size → Spelled e
  text : e.isText = true → ∃ t ∈ S.tokens, ∃ u ∈ S.tokens, t.start < u.stop ∧ e.offset = u.stop ∧
    (∀ e' ∈ es, e'.offset ≤ t.start) ∧ (e.start? = some t.start ∧ e.literal = sliceOf S.source t.start u.stop ∨
      e.start? = none ∧ u = t ∧ e.literal = t.text)

/-- Each of the events is fair after those before it. -/
inductive Told (S : Tokenized) : List Event → Prop
  | nil : Told S []
  | push {es : List Event} {e : Event} (h : Told S es) (he : Fair S es e) : Told S (es ++ [e])

theorem Told.fair (h : Told S es) : ∀ {es₁ e es₂}, es = es₁ ++ e :: es₂ → Fair S es₁ e := by
  induction h with
  | nil => simp
  | push _ he ih =>
    intro es₁ e es₂ heq
    rcases eq_nil_or_concat es₂ with rfl | ⟨es₂, e', rfl⟩
    · obtain ⟨rfl, hlast⟩ := append_inj' heq rfl
      exact singleton_inj.1 hlast ▸ he
    · rw [concat_eq_append, ← cons_append, ← append_assoc] at heq
      exact ih (append_inj_left' heq rfl)

/-! ## Sound cursors -/

/-- The tokens `ts` have been passed, and the events `es` reported in order. -/
structure Cursor.Kept (S : Tokenized) (c : Cursor) (l : Ledger) (ts : List Token) (es : List Event) : Prop where
  source : c.source = S.source
  tokens : S.tokens = ts ++ c.rest
  lastEnd : c.lastEnd = lastStop 0 ts
  events : c.events.toList = es
  ledger : Ledger.run {} es = some l
  told : Told S es

/-- The same, and no event ends later than the last token passed. -/
structure Cursor.Sound (S : Tokenized) (c : Cursor) (l : Ledger) (ts : List Token) (es : List Event) : Prop
    extends c.Kept S l ts es where
  past : ∀ e ∈ es, e.offset ≤ c.lastEnd

/-- From `c`, `x` gives a cursor with `Q`, or turns the source down and keeps the events in order. -/
def Tokenized.Ends (S : Tokenized) (x : Recognizer α) (c : Cursor) (Q : α → Cursor → Prop) : Prop :=
  match x c with
  | .ok a c' => Q a c'
  | .error stop c' => (∃ e, stop = .rejected e ∧ e.offset ≤ S.source.length) ∧ ∃ l ts es, c'.Kept S l ts es

/-- `c'` is reached from `c`, if `b` past a token at least. -/
def Cursor.Comes (c c' : Cursor) (b : Bool) : Prop := ∃ ts, c.rest = ts ++ c'.rest ∧ b.toNat ≤ ts.length

/-- A sound cursor with the ledger `l`, reached from `c₀` with no type declared on the way. -/
structure At (S : Tokenized) (c₀ : Cursor) (b : Bool) (l : Ledger) (ts : List Token) (es : List Event) (c : Cursor) :
    Prop where
  sound : c.Sound S l ts es
  comes : c₀.Comes c b
  types : c.typeNames = c₀.typeNames

/-- None of the events since the token `t` began. -/
structure Since (S : Tokenized) (es : List Event) (c : Cursor) (t : Token) : Prop where
  mem : t ∈ S.tokens
  after : ∀ e ∈ es, e.offset ≤ t.start
  ahead : ∀ u ∈ c.rest, t.start < u.stop

/-- None of the events since the token `t` began, and `u` is the last token passed. -/
structure Fresh (S : Tokenized) (es : List Event) (c : Cursor) (t u : Token) : Prop extends Since S es c t where
  last : u ∈ S.tokens
  lt : t.start < u.stop
  stop : u.stop = c.lastEnd

theorem Ordered.lt_stop : ∀ {p : Nat} {ts : List Token}, Ordered p ts → ∀ u ∈ ts, p < u.stop
  | _, t :: ts, ⟨hp, ht, ho⟩, u, hu => by
    rcases mem_cons.1 hu with rfl | hu
    · exact hp.trans_lt ht
    · exact hp.trans_lt (ht.trans (ho.lt_stop u hu))

theorem Tokenized.ordered (S : Tokenized) : Ordered 0 S.tokens := (Token.scan_ordered S.scanned).1

theorem Tokenized.slice (ht : t ∈ S.tokens) :
    t.stop ≤ S.source.length ∧ sliceOf S.source t.start t.stop = t.literal := by
  obtain ⟨before, after, hsource, hstart⟩ := (Token.cut_of_scan S.scanned).mem t ht
  rw [Nat.zero_add] at hstart
  constructor
  · rw [hsource, Token.stop, hstart]
    simp
  · rw [sliceOf, hsource, Token.stop, hstart, Nat.add_sub_cancel_left, append_assoc, drop_left, take_left,
      Token.literal]

namespace Cursor

theorem Comes.refl (c : Cursor) : c.Comes c false := ⟨[], rfl, Nat.le_refl 0⟩

theorem Comes.trans {c₁ c₂ : Cursor} {b₁ b₂ : Bool} (h : c.Comes c₁ b₁) (h' : c₁.Comes c₂ b₂) :
    c.Comes c₂ (b₁ || b₂) := by
  obtain ⟨ts, hr, hb⟩ := h
  obtain ⟨us, hr', hb'⟩ := h'
  refine ⟨ts ++ us, by rw [hr, hr', append_assoc], ?_⟩
  rw [length_append]
  cases b₁ <;> cases b₂ <;> simp at hb hb' ⊢ <;> omega

theorem Kept.ordered (h : c.Kept S l ts es) : Ordered c.lastEnd c.rest := by
  have ho := S.ordered
  rw [h.tokens, ordered_append] at ho
  exact h.lastEnd ▸ ho.2

theorem Kept.mem (h : c.Kept S l ts es) (hf : c.front? = some t) : t ∈ S.tokens := by
  obtain ⟨rest, hr⟩ := front?_eq_some.1 hf
  rw [h.tokens, hr]
  simp

theorem Kept.lastEnd_le (h : c.Kept S l ts es) : c.lastEnd ≤ S.source.length := by
  have hle := (Token.scan_ordered S.scanned).2
  rw [h.tokens, lastStop_append, ← h.lastEnd] at hle
  exact h.ordered.le_lastStop.trans hle

theorem Sound.moves (h : c.Sound S l ts es) (hm : Moves c c' us []) : c'.Sound S l (ts ++ us) es where
  source := hm.source.trans h.source
  tokens := by rw [h.tokens, hm.rest, append_assoc]
  lastEnd := by rw [hm.lastEnd, h.lastEnd, lastStop_append]
  events := by rw [hm.events, h.events, append_nil]
  ledger := h.ledger
  told := h.told
  past e he := by
    have ho := h.ordered
    rw [hm.rest, ordered_append] at ho
    rw [hm.lastEnd]
    exact (h.past e he).trans ho.1.le_lastStop

theorem Kept.push (h : c.Kept S l ts es) (he : l.step e = some m) (hf : Fair S es e) :
    (c.push e).Kept S m ts (es ++ [e]) where
  source := h.source
  tokens := h.tokens
  lastEnd := h.lastEnd
  events := by rw [← h.events]; exact Array.toList_push
  ledger := by
    rw [Ledger.run_append, h.ledger, Option.bind_some, Ledger.run_cons he]
    rfl
  told := h.told.push hf

theorem Sound.push (h : c.Sound S l ts es) (he : l.step e = some m) (hf : Fair S es e) (hle : e.offset ≤ c.lastEnd) :
    (c.push e).Sound S m ts (es ++ [e]) := by
  refine ⟨h.toKept.push he hf, fun e' he' => ?_⟩
  rcases mem_append.1 he' with he' | he'
  · exact h.past e' he'
  · exact mem_singleton.1 he' ▸ hle

/-- Nothing changes but what a sound cursor does not depend on. -/
theorem Sound.congr (h : c.Sound S l ts es) (hsource : c'.source = c.source) (hrest : c'.rest = c.rest)
    (hend : c'.lastEnd = c.lastEnd) (hevents : c'.events = c.events) : c'.Sound S l ts es where
  source := hsource.trans h.source
  tokens := hrest ▸ h.tokens
  lastEnd := hend.trans h.lastEnd
  events := hevents ▸ h.events
  ledger := h.ledger
  told := h.told
  past := hend ▸ h.past

end Cursor

theorem At.here (h : c.Sound S l ts es) : At S c false l ts es c := ⟨h, .refl c, rfl⟩

theorem At.of_eq {ts' : List Token} {es' : List Event} (h : At S c₀ b l ts es c) (heq : ts = ts' ∧ es = es') :
    At S c₀ b l ts' es' c := heq.1 ▸ heq.2 ▸ h

theorem At.trans {b' : Bool} {ts' : List Token} {es' : List Event} (h : At S c₀ b l ts es c)
    (h' : At S c b' m ts' es' c') : At S c₀ (b || b') m ts' es' c' :=
  ⟨h'.sound, h.comes.trans h'.comes, h'.types.trans h.types⟩

theorem Cursor.Comes.length_lt (h : c₀.Comes c true) : c.rest.length < c₀.rest.length := by
  obtain ⟨ts, hr, hb⟩ := h
  rw [hr, length_append]
  exact Nat.lt_add_of_pos_left hb

theorem At.weaken (h : At S c₀ b l ts es c) : At S c₀ false l ts es c := by
  obtain ⟨us, hr, -⟩ := h.comes
  exact ⟨h.sound, ⟨us, hr, Nat.zero_le _⟩, h.types⟩

theorem At.since (h : At S c₀ b l ts es c) (hf : c.front? = some t) : Since S es c t := by
  obtain ⟨rest, hr⟩ := front?_eq_some.1 hf
  have ho := h.sound.ordered
  rw [hr, ordered_cons] at ho
  refine ⟨h.sound.mem hf, fun e he => (h.sound.past e he).trans ho.1, fun u hu => ?_⟩
  rw [hr] at hu
  rcases mem_cons.1 hu with rfl | hu
  · exact ho.2.1
  · exact ho.2.1.trans (ho.2.2.lt_stop u hu)

theorem At.any (h : At S c₀ true l ts es c) : At S c₀ b l ts es c := by
  cases b
  · exact h.weaken
  · exact h

section

variable (h : At S c₀ b l ts es c)
include h

theorem At.regroup (p? : Option Nat) : At S c₀ b l ts es { c with groupEnd? := p? } :=
  ⟨h.sound.congr rfl rfl rfl rfl, h.comes, h.types⟩

theorem At.goes (hm : Moves c c' us []) {d : Bool} (hb : d.toNat ≤ us.length) :
    At S c₀ (b || d) l (ts ++ us) es c' :=
  ⟨h.sound.moves hm, h.comes.trans ⟨us, hm.rest, hb⟩, hm.typeNames.trans h.types⟩

theorem At.pass (hm : Moves c c' us []) (hne : us ≠ []) : At S c₀ true l (ts ++ us) es c' := by
  have hgoes := h.goes (d := true) hm (length_pos_iff.2 hne)
  rwa [Bool.or_true] at hgoes

/-- Tokens are passed, with `u` as the last. -/
theorem At.moves (hs : Since S es c t) (hm : Moves c c' us []) (hu : us.getLast? = some u) :
    At S c₀ true l (ts ++ us) es c' ∧ Fresh S es c' t u := by
  obtain ⟨us, rfl⟩ := getLast?_eq_some_iff.1 hu
  have hmem : u ∈ c.rest := by rw [hm.rest]; simp
  refine ⟨h.pass hm (by simp), ⟨hs.mem, hs.after, fun v hv => ?_⟩, ?_, hs.ahead u hmem, ?_⟩
  · exact hs.ahead v (by rw [hm.rest]; exact mem_append_right _ hv)
  · rw [h.sound.tokens]
    exact mem_append_right _ hmem
  · simp [hm.lastEnd]

end

/-! ## Rules -/

namespace Tokenized

variable {Q : α → Cursor → Prop} {R : β → Cursor → Prop}

theorem Ends.bind (hx : S.Ends x c Q) (hf : ∀ a c', Q a c' → S.Ends (f a) c' R) : S.Ends (x >>= f) c R := by
  unfold Ends at hx
  change match EStateM.bind x f c with
    | .ok a c' => R a c'
    | .error stop c' => (∃ e, stop = .rejected e ∧ e.offset ≤ S.source.length) ∧ ∃ l ts es, c'.Kept S l ts es
  rw [EStateM.bind]
  cases hxc : x c with
  | ok a c' =>
    rw [hxc] at hx
    exact hf a c' hx
  | error stop c' =>
    rw [hxc] at hx
    exact hx

theorem Ends.imp {P : α → Cursor → Prop} (hx : S.Ends x c Q) (h : ∀ a c', Q a c' → P a c') : S.Ends x c P := by
  unfold Ends at *
  cases hxc : x c with
  | ok a c' =>
    rw [hxc] at hx
    exact h a c' hx
  | error stop c' =>
    rw [hxc] at hx
    exact hx

theorem Ends.get {g : Cursor → Recognizer α} (h : S.Ends (g c) c Q) : S.Ends (get >>= g) c Q := h

theorem Ends.set {g : PUnit → Recognizer α} (h : S.Ends (g ⟨⟩) c' Q) : S.Ends (set c' >>= g) c Q := h

theorem Ends.throw {e : SyntaxError} (h : c.Kept S l ts es) (he : e.offset ≤ S.source.length) :
    S.Ends (throw (.rejected e) : Recognizer α) c Q := ⟨⟨e, rfl, he⟩, l, ts, es, h⟩

end Tokenized

open Tokenized

variable {Q : α → Cursor → Prop} {R : β → Cursor → Prop}

theorem Cursor.Kept.start_le (h : c.Kept S l ts es) (hf : c.front? = some t) : t.start ≤ S.source.length := by
  have := (S.slice (h.mem hf)).1
  have : t.start ≤ t.stop := Nat.le_add_right _ _
  omega

theorem At.unexpected (h : At S c₀ b l ts es c) (e : Expected) : S.Ends (unexpected e : Recognizer α) c Q := by
  refine Ends.get ?_
  cases hf : c.front? with
  | none => exact Ends.throw h.sound.toKept (by simp [SyntaxError.offset, h.sound.source])
  | some t => exact Ends.throw h.sound.toKept (h.sound.start_le hf)

theorem At.unsupported (h : At S c₀ b l ts es c) (k : Construct) {n : Nat} (hn : n ≤ S.source.length) :
    S.Ends (unsupported k n : Recognizer α) c Q := Ends.throw h.sound.toKept hn

/-- Turning down what is next, before anything else is done. -/
theorem At.guard {p : Token → Bool} {k : Construct} {g : Unit → Recognizer β} (h : At S c₀ b l ts es c)
    (hg : S.Ends (g ()) c R) : S.Ends (match c.front? with
      | some t => if p t = true then Grammar.unsupported k t.start >>= g else g ()
      | none => g ()) c R := by
  cases hf : c.front? with
  | none => exact hg
  | some t =>
    dsimp only
    split
    · exact (h.unsupported (Q := fun _ _ => False) k (h.sound.start_le hf)).bind fun _ _ h => h.elim
    · exact hg

section Passing

variable {g : Unit → Recognizer β} {p : Token → Bool}

section

variable (h : At S c₀ b l ts es c)
include h

theorem At.advance (hf : c.front? = some t)
    (hk : ∀ c', At S c₀ true l (ts ++ [t]) es c' → Fresh S es c' t t → S.Ends (g ()) c' R) :
    S.Ends (advance >>= g) c R :=
  have hm := h.moves (h.since hf) (moves_advance hf) rfl
  hk c.advance hm.1 hm.2

theorem At.advanceWhile
    (hk : ∀ c', At S c₀ b l (ts ++ c.rest.takeWhile p) es c' → S.Ends (g ()) c' R) :
    S.Ends (modify (Cursor.advanceWhile p) >>= g) c R := by
  have hgoes := h.goes (d := false) (moves_advanceWhile p) (Nat.zero_le _)
  rw [Bool.or_false] at hgoes
  exact hk _ hgoes

theorem At.eatPunct {q : String} {g : Bool → Recognizer β}
    (hyes : ∀ c' (t : Punct q), At S c₀ true l (ts ++ [t.1]) es c' → Fresh S es c' t.1 t.1 → S.Ends (g true) c' R)
    (hno : S.Ends (g false) c R) : S.Ends (eatPunct q >>= g) c R := by
  refine Ends.bind (Q := fun a c' => S.Ends (g a) c' R) (Ends.get ?_) fun _ _ h => h
  cases hq : c.atPunct q with
  | false => exact hno
  | true =>
    obtain ⟨t, hf⟩ := exists_front_of_atPunct hq
    exact h.advance hf fun c' => hyes c' t

theorem At.expect {e : Expected} {g : Token → Recognizer β}
    (hk : ∀ t c', At S c₀ true l (ts ++ [t]) es c' → Fresh S es c' t t → p t = true → S.Ends (g t) c' R) :
    S.Ends (expect p e >>= g) c R := by
  refine Ends.bind (Q := fun a c' => S.Ends (g a) c' R) (Ends.get ?_) fun _ _ h => h
  cases hf : c.front? with
  | none => exact h.unexpected e
  | some t =>
    dsimp only
    split
    · exact h.advance hf fun c' h' ht => hk t c' h' ht ‹_›
    · exact h.unexpected e

theorem At.expectPunct {q : String} {g : Token → Recognizer β}
    (hk : ∀ (t : Punct q) c', At S c₀ true l (ts ++ [t.1]) es c' → Fresh S es c' t.1 t.1 → S.Ends (g t.1) c' R) :
    S.Ends (expectPunct q >>= g) c R :=
  h.expect fun t c' h' ht hp => hk ⟨t, hp⟩ c' h' ht

theorem At.close {rest : List Token} (hs : Since S es c t)
    (hc : Token.close? c.rest = some (u, rest)) : ∃ grp : Enclosed, c.front? = some grp.opening ∧ grp.closing = u ∧
      At S c₀ true l (ts ++ grp.tokens) es (c.moveTo u rest) ∧ Fresh S es (c.moveTo u rest) t u ∧
      (c.atTypeGroup = true → ∃ type : TypeGroup, type.toEnclosed = grp) := by
  obtain ⟨grp, hf, rfl, hm, htype⟩ := moves_close hc
  obtain ⟨h', ht⟩ := h.moves hs hm (getLast?_eq_some_iff.2 ⟨grp.opening :: grp.inside, rfl⟩)
  exact ⟨grp, hf, rfl, h', ht, htype⟩

theorem At.expectGroup {q : String} {g : Token → Recognizer β} (hs : Since S es c t)
    (hk : ∀ (grp : Enclosed) c', c.front? = some grp.opening → At S c₀ true l (ts ++ grp.tokens) es c' →
      Fresh S es c' t grp.closing → (c.atTypeGroup = true → ∃ type : TypeGroup, type.toEnclosed = grp) →
        S.Ends (g grp.closing) c' R) : S.Ends (expectGroup q >>= g) c R := by
  refine Ends.bind (Q := fun a c' => S.Ends (g a) c' R) (Ends.get ?_) fun _ _ h => h
  cases hc : Token.close? c.rest with
  | none => exact h.unexpected _
  | some found =>
    obtain ⟨u, rest⟩ := found
    obtain ⟨grp, hf, rfl, h', ht, htype⟩ := h.close hs hc
    exact hk grp _ hf h' ht htype

theorem At.expectCast {g : Token → Recognizer β} (hs : Since S es c t)
    (hg : c.atTypeGroup = true)
    (hk : ∀ (type : TypeGroup) c', c.front? = some type.opening → At S c₀ true l (ts ++ type.tokens) es c' →
      Fresh S es c' t type.closing → S.Ends (g type.closing) c' R) : S.Ends (expectCast t >>= g) c R := by
  refine Ends.bind (Q := fun a c' => S.Ends (g a) c' R) (Ends.get ?_) fun _ _ h => h
  cases hc : Token.close? c.rest with
  | none => exact h.unexpected _
  | some found =>
    obtain ⟨u, rest⟩ := found
    obtain ⟨_, hf, rfl, h', ht, htype⟩ := h.close hs hc
    obtain ⟨type, rfl⟩ := htype hg
    dsimp only
    split
    · refine h.unsupported _ (Nat.le_trans ?_ (S.slice hs.mem).1)
      exact Nat.le_add_right _ _
    · exact hk type _ hf h' ht

end

end Passing

/-! ## Reports -/

section Reports

variable {kind : Event.Kind} {n : Nat} {literal : String}

/-- An event that is no leaf, at the end of the last token passed. -/
theorem At.mark (h : At S c₀ b l ts es c) (hn : n = c.lastEnd) (hk : kind.isWord = false)
    (hstep : l.step (mark kind n literal) = some m)
    (hs : S.source.length < UInt64.size → Spelled (Grammar.mark kind n literal)) :
    S.Ends (report kind n literal) c fun _ => At S c₀ b m ts (es ++ [Grammar.mark kind n literal]) := by
  subst hn
  have htext : (Grammar.mark kind c.lastEnd literal).isText = false := by simp [Event.isText, Grammar.mark, hk]
  refine ⟨h.sound.push hstep ⟨h.sound.past, h.sound.lastEnd_le, hs, fun h => ?_⟩ le_rfl, h.comes, h.types⟩
  exact absurd (htext.symm.trans h) Bool.false_ne_true

theorem Event.Kind.isPlain_spec (h : kind.isPlain = true) (n : Nat) (literal : String) :
    kind.isWord = false ∧ Spelled (mark kind n literal) := by
  cases kind <;> first | exact absurd h Bool.false_ne_true | exact ⟨rfl, .inr rfl⟩

section

variable (h : At S c₀ b l ts es c)
include h

theorem At.report (hn : n = c.lastEnd) (hk : kind.isPlain = true)
    (hstep : l.step (Grammar.mark kind n literal) = some m) :
    S.Ends (report kind n literal) c fun _ => At S c₀ b m ts (es ++ [Grammar.mark kind n literal]) :=
  have hplain := Event.Kind.isPlain_spec hk n literal
  h.mark hn hplain.1 hstep fun _ => hplain.2

section

variable (hk : kind.isPlain = true) (hstep : ∀ n, l.step (Grammar.mark kind n literal) = some m)
include hk hstep

theorem At.reportHere :
    S.Ends (reportHere kind literal) c fun _ => At S c₀ b m ts (es ++ [Grammar.mark kind (lastStop 0 ts) literal]) :=
  Ends.get (h.sound.lastEnd ▸ h.report rfl hk (hstep _))

theorem At.endWith {p : String} : S.Ends (endWith p kind literal) c
      fun _ c' => ∃ u : Punct p, At S c₀ true m (ts ++ [u.1]) (es ++ [Grammar.mark kind u.1.stop literal]) c' :=
  h.expectPunct fun u _ h₁ ht => (h₁.report ht.stop hk (hstep _)).imp fun _ _ h₂ => ⟨u, h₂⟩

end

/-- A leaf from the token `t` to the last token passed. -/
theorem At.reportText (ht : Fresh S es c t u)
    (hstep : l.step (textLeaf S.source kind t.start u.stop) = some m)
    (hl : (textLeaf S.source kind t.start u.stop).placed = true →
      (textLeaf S.source kind t.start u.stop).legible = true) :
    S.Ends (reportText kind t.start u.stop) c
      fun _ => At S c₀ b m ts (es ++ [textLeaf S.source kind t.start u.stop]) := by
  have hu : u.stop ≤ S.source.length := ht.stop ▸ h.sound.lastEnd_le
  have hevent : c.push (textLeaf S.source kind t.start u.stop) =
      c.push { kind, offset := u.stop, literal := c.slice t.start u.stop, start? := some t.start } := by
    rw [Cursor.slice, h.sound.source]
    rfl
  change At S c₀ b m ts _ (c.push _)
  rw [← hevent]
  refine ⟨h.sound.push hstep ⟨fun e he => ?_, hu, fun _ => .inr (hl (placed_textLeaf ht.lt hu)), fun _ => ?_⟩
    ht.stop.le, h.comes, h.types⟩
  · exact (ht.after e he).trans ht.lt.le
  · exact ⟨t, ht.mem, u, ht.last, ht.lt, rfl, ht.after, .inl ⟨rfl, rfl⟩⟩

theorem At.reportToken (ht : Fresh S es c t t) (hstep : l.step (tokenLeaf kind t) = some m)
    (hl : (tokenLeaf kind t).placed = true → (tokenLeaf kind t).legible = true) :
    S.Ends (reportToken kind t) c fun _ => At S c₀ b m ts (es ++ [tokenLeaf kind t]) := by
  have hleaf : textLeaf S.source kind t.start t.stop = tokenLeaf kind t := by
    rw [textLeaf, (S.slice ht.mem).2]
    rfl
  have htext : S.Ends (Grammar.reportText kind t.start t.stop) c _ := h.reportText ht (by rwa [hleaf]) (by rwa [hleaf])
  change At S c₀ b m ts _ (c.push _) at htext
  rw [Cursor.slice, h.sound.source] at htext
  change At S c₀ b m ts _ (c.push (textLeaf S.source kind t.start t.stop)) at htext
  rwa [hleaf] at htext

/-- A word, reported with its text. -/
theorem At.reportWord (ht : Fresh S es c t t) (hn : n = c.lastEnd) (hliteral : t.text = literal)
    (hw : kind.isWord = true) (hne : kind = .typeWord ∨ literal.isEmpty = false)
    (hstep : l.step (Grammar.mark kind n literal) = some m) : S.Ends (Grammar.report kind n literal) c
      fun _ => At S c₀ b m ts (es ++ [Grammar.mark kind t.stop literal]) := by
  obtain rfl := hn.trans ht.stop.symm
  subst hliteral
  have hspelled : Spelled (Grammar.mark kind t.stop t.text) := by
    cases hempty : t.text.isEmpty with
    | true => exact .inl ⟨.inl (hne.resolve_right (by simp [hempty])), hempty⟩
    | false =>
      have hplaced : (Grammar.mark kind t.stop t.text).placed = true := placed_text hempty
      exact .inr (by cases kind <;> first | exact absurd hw Bool.false_ne_true | exact hplaced)
  refine ⟨h.sound.push hstep ⟨fun e he => ?_, (S.slice ht.mem).1, fun _ => hspelled, fun _ => ?_⟩
    ht.stop.le, h.comes, h.types⟩
  · exact (ht.after e he).trans ht.lt.le
  · exact ⟨t, ht.mem, t, ht.mem, ht.lt, rfl, ht.after, .inr ⟨rfl, rfl, rfl⟩⟩

end

end Reports

end Grammar

end Deferral
