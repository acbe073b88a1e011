import Deferral.Proofs.Recognition
import Mathlib.Logic.Relation

/-!
# Recognition goes on

A recognizer that calls others stands further on in the source when it is called again, so that recognition comes to an
end whatever the source (`Grammar.descends`). Which calls a recognizer makes is told by leaving one out (`Task.Asks`).
The loops of the grammar are recognizers that call themselves.
-/

namespace Deferral

/-- Counts brackets from the first token on, until they are closed. There is no answer if one is closed where none is
open. -/
def Token.countFrom? (left right : String) : (depth : Nat) → List Token → Option (Option (Token × List Token))
  | _, [] => some none
  | depth, t :: rest =>
    if t.isPunct left then countFrom? left right (depth + 1) rest
    else if t.isPunct right then
      if depth = 0 then none else if depth = 1 then some (some (t, rest)) else countFrom? left right (depth - 1) rest
    else countFrom? left right depth rest

theorem Token.countFrom?_eq (left right : String) : ∀ (depth : Nat) (ts : List Token),
    countFrom? left right (depth + 1) ts = some (closeFrom left right (depth + 1) ts)
  | _, [] => rfl
  | depth, t :: rest => by
    rw [countFrom?, closeFrom]
    split
    · exact countFrom?_eq left right (depth + 1) rest
    split
    · cases depth with
      | zero => rfl
      | succ depth => exact countFrom?_eq left right depth rest
    · exact countFrom?_eq left right depth rest

namespace Grammar

/-- Hands the events of a source to a sink, until one is turned down. -/
def drive {σ ε : Type} (take : σ → Event → σ × Option ε) (source : List UInt8) (state : σ) : σ × Option (ε ⊕ Stop) :=
  go (trace source).events.toList state
where
  go : List Event → σ → σ × Option (ε ⊕ Stop)
    | [], state => (state, (trace source).stop?.map .inr)
    | e :: es, state =>
      match take state e with
      | (state, none) => go es state
      | (state, some error) => (state, some (.inl error))

theorem feed_eq_drive (source : List UInt8) (a : Assembly) : a.feed source =
    (drive Assembly.handle source a).map id (Option.map (Sum.elim .assembly .grammar)) := by
  simp only [Assembly.feed, drive]
  generalize (trace source).events.toList = es
  induction es generalizing a with
  | nil => cases h : (trace source).stop? <;> simp [Assembly.handleAll, drive.go, h]
  | cons e es ih =>
    rw [Assembly.handleAll, drive.go]
    rcases a.handle e with ⟨a, _ | halt⟩
    · exact ih a
    · rfl

/-- A job to be done at a cursor in so many steps. -/
structure Task where
  steps : Nat
  job : Job
  cursor : Cursor

deriving instance DecidableEq for Job, Cursor

/-- Makes all calls but one. -/
def Task.others (x : Task) : Calls := fun j c =>
  if j = x.job ∧ c = x.cursor then .error .outOfSteps c else Job.run x.steps j c

/-- Whether recognition was given up. -/
def gaveUp {α : Type} : EStateM.Result Stop Cursor α → Bool
  | .error .outOfSteps _ => true
  | _ => false

/-- The round of `x` makes the call `y`: it gives up without it. -/
def Task.Asks (x y : Task) : Prop := x.steps = y.steps + 1 ∧ gaveUp (x.job.round y.others x.cursor) = true

instance (x y : Task) : Decidable (x.Asks y) := inferInstanceAs (Decidable (_ ∧ _))

variable {S : Tokenized} {x y : Task}

/-- What is needed to do a job at a cursor. -/
def Job.Fits (S : Tokenized) (j : Job) (c : Cursor) : Prop :=
  ∀ call, Lower S call j.rank c → S.Ends (j.round call) c fun _ _ => True

theorem not_gaveUp {α : Type} {f : Recognizer α} {c : Cursor} {Q : α → Cursor → Prop} (h : S.Ends f c Q) :
    gaveUp (f c) = false := by
  unfold Tokenized.Ends at h
  split at h
  case h_1 heq => rw [heq]; rfl
  case h_2 heq =>
    obtain ⟨⟨e, rfl, -⟩, -⟩ := h
    rw [heq]
    rfl

open Classical in
/-- Makes the calls that can be made. -/
noncomputable def Job.fitting (S : Tokenized) (j : Job) (c₀ : Cursor) : Calls := fun j' c =>
  if j'.Below c j c₀ ∧ j'.Fits S c then j'.recognize c else .error .outOfSteps c

theorem lower_fitting (j : Job) (c₀ : Cursor) : Lower S (j.fitting S c₀) j.rank c₀ := by
  refine lower_of_makes j c₀ _ fun {_ c} j' _ h hr hends => ?_
  rw [Tokenized.Ends, Job.fitting, if_pos ⟨h.below hr, fun call ih => (hends call ih).imp fun _ _ _ => trivial⟩,
    Job.recognize_eq]
  exact hends _ (lower_guarded j' c)

/-- A task that can be done in its steps. -/
structure Task.Good (S : Tokenized) (x : Task) : Prop where
  enough : 8 * x.cursor.rest.length + x.job.rank < x.steps
  fits : x.job.Fits S x.cursor

theorem Task.Good.asks (h : x.Good S) (hxy : x.Asks y) : y.Good S ∧ y.job.Below y.cursor x.job x.cursor := by
  obtain ⟨hsteps, hgave⟩ := hxy
  have enough {j : Job} {c : Cursor} (hb : j.Below c x.job x.cursor) : 8 * c.rest.length + j.rank < y.steps := by
    have hlen := hb.1.length_le
    have hlt := hb.2
    have := j.rank_le
    have := h.enough
    omega
  suffices hy : y.job.Below y.cursor x.job x.cursor ∧ y.job.Fits S y.cursor from ⟨⟨enough hy.1, hy.2⟩, hy.1⟩
  -- Otherwise the calls that can be made are among the others, which then do all that is needed.
  by_contra hnot
  have hwithin (j : Job) : Recognizer.Within (x.job.fitting S x.cursor j) (y.others j) := fun c => by
    rw [Job.fitting, Task.others]
    split
    case isTrue hj =>
      have hne : ¬(j = y.job ∧ c = y.cursor) := fun heq => hnot (heq.1 ▸ heq.2 ▸ hj)
      rw [if_neg hne]
      exact within_run y.steps j c (enough hj.1)
    case isFalse => exact .inr ⟨c, rfl⟩
  have hends := not_gaveUp (h.fits _ (lower_fitting x.job x.cursor))
  rcases within_round hwithin x.job x.cursor with heq | ⟨c', heq⟩
  · rw [heq, hgave] at hends
    cases hends
  · rw [heq] at hends
    cases hends

theorem Job.Below.trans {j₁ j₂ j₃ : Job} {c₁ c₂ c₃ : Cursor} (h : j₁.Below c₁ j₂ c₂) (h' : j₂.Below c₂ j₃ c₃) :
    j₁.Below c₁ j₃ c₃ := by
  have hle := h.1.length_le
  have hle' := h'.1.length_le
  refine ⟨h.1.trans h'.1, ?_⟩
  have := h.2
  have := h'.2
  omega

theorem Task.Good.chain (h : x.Good S) (hxy : Relation.TransGen Task.Asks x y) :
    y.Good S ∧ y.job.Below y.cursor x.job x.cursor := by
  induction hxy with
  | single hxy => exact h.asks hxy
  | tail _ hyz ih =>
    obtain ⟨hz, hbelow⟩ := ih.1.asks hyz
    exact ⟨hz, hbelow.trans ih.2⟩

theorem Job.rank_eq_of_ctorIdx {j j' : Job} (h : j.ctorIdx = j'.ctorIdx) : j.rank = j'.rank := by
  cases j <;> cases j' <;> first | rfl | cases h

theorem partner?_of_wordByte : ∀ n : Fin 256, (Token.isWordStart (.ofFin n) || Token.isDigitByte (.ofFin n)) = true →
    Token.partner? ((Utf8.strict? [.ofFin n]).getD "") = none := by decide +kernel

/-- Only punctuators are spelled like brackets. -/
theorem Tokenized.isPunct_of_partner {t : Token} (ht : t ∈ S.tokens) {right : String}
    (h : Token.partner? t.text = some right) : t.isPunct t.text = true := by
  have htext : t.text.utf8ByteSize = 1 ∧ t.text ≠ "" := by
    unfold Token.partner? at h
    split at h <;> first | exact ⟨by simp [*]; rfl, by simp [*]⟩ | cases h
  have hlen := (Token.size_text htext.2).symm.trans htext.1
  obtain ⟨b, hb⟩ := List.length_eq_one_iff.1 hlen
  have hword (hw : (Token.isWordStart b || Token.isDigitByte b) = true) : False := by
    have := partner?_of_wordByte b.toFin hw
    rw [Token.text, hb] at h
    cases this.symm.trans h
  obtain ⟨_, after, -, -, hlexeme, -⟩ := (Token.cut_of_scan S.scanned).lexeme Token.sharp_nil t ht
  suffices hk : t.kind = .punct by simp [Token.isPunct, hk]
  rw [hb] at hlexeme
  generalize t.kind = kind at hlexeme
  generalize hl : [b] = lexeme at hlexeme
  cases hlexeme with
  | word hw =>
    obtain ⟨rfl, -⟩ := List.cons.inj hl
    exact (hword (by simp [hw])).elim
  | number hd =>
    obtain ⟨rfl, rfl⟩ := List.cons.inj hl
    exact (hword (by simp [hd.resolve_right (by simp)])).elim
  | literal =>
    have := congrArg List.length hl
    simp at this
    omega
  | longPunctuator | punctuator => rfl

theorem count_close {t : Token} {rest : List Token} (h : t :: rest <:+ S.tokens) {right : String}
    (hr : Token.partner? t.text = some right) :
    Token.countFrom? t.text right 0 (t :: rest) = some (Token.close? (t :: rest)) := by
  rw [Token.countFrom?, if_pos (S.isPunct_of_partner (h.subset List.mem_cons_self) hr),
    Token.countFrom?_eq, Token.close?, hr]
  rfl

theorem good_start : Task.Good S ⟨stepBound S.tokens.length, .unit, S.start⟩ where
  enough := Nat.add_lt_add_left (show Job.unit.rank < 8 by decide) _
  fits _ ih := (ends_unit ih sound_start).imp fun _ _ _ => trivial

theorem stop_ne_outOfSteps (source : List UInt8) : (trace source).stop? ≠ some .outOfSteps := by
  intro h
  obtain ⟨e, he, -⟩ := rejected_of_trace h
  cases he

/-- Two declarations, of which the second one is read by another call. -/
def declarations : Tokenized where
  source := Utf8.encode "a;b;"
  tokens := [⟨.word, 0, [97]⟩, ⟨.punct, 1, [59]⟩, ⟨.word, 2, [98]⟩, ⟨.punct, 3, [59]⟩]
  scanned := by decide +kernel

/-- Before the second declaration. -/
def declarations.second : Cursor :=
  { declarations.start with rest := declarations.tokens.drop 2, lastEnd := 2 }

end Grammar

end Deferral
