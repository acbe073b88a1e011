import Deferral.Proofs.Bounds
import Deferral.Proofs.Declaring
import Deferral.Proofs.Fitting

/-!
# Events that come in their place

`Reaches` is for a list of events that is taken if it fits, and in which deferred statements are completed where they
can be; it says what holds of the assembly then. Expressions and declarations leave operands of which one, or all, can
be taken from the stage.
-/

namespace Deferral.Assembly

open Forest Grammar Term

variable {a b b' c n : Assembly} {e : Event} {es es' : List Event} {p : Nat}
  {source : List UInt8} {P Q : Assembly → Prop}

/-! ## Taking events -/

theorem Act.failure {may : Special → Prop} {w w' : Work} (h : Act may w w') :
    w'.assembly.failure? = w.assembly.failure? := by
  cases h with
  | note h => exact (core_eq h).2.2.2.2.2
  | _ => rfl

theorem Acts.failure {may : Special → Prop} {w w' : Work} (h : Acts may w w') :
    w'.assembly.failure? = w.assembly.failure? := by
  induction h with
  | refl => rfl
  | tail _ hact ih => exact hact.failure.trans ih

theorem failure_of_dispatch (h : dispatch e a = .ok () b) : b.failure? = a.failure? := by
  by_cases hk : e.kind = .deferred
  · simp only [dispatch, hk] at h
    rcases onDeferred_cases e a with ⟨f, hf⟩ | ⟨waiting, rest, -, hgoes, -⟩
    · rw [hf] at h
      cases h
    · rw [h] at hgoes
      exact Acts.failure hgoes
  · have hgoes := proper_dispatch hk [] [] a
    rw [h] at hgoes
    exact Acts.failure hgoes

theorem Takes.failure : ∀ {es : List Event} {a : Assembly}, Takes a es b → b.failure? = a.failure?
  | [], a, h => by rw [takes_nil.1 h]
  | e :: es, a, h => by
    obtain ⟨a₁, h₁, h₂⟩ := h.cons
    exact h₂.failure.trans (failure_of_dispatch h₁)

theorem Takes.after_eq : ∀ {es : List Event} {a : Assembly}, Takes a es b → a.after (es.map .event) = b
  | [], a, h => (takes_nil.1 h).symm
  | e :: es, a, h => by
    simp only [Takes, handleAll] at h
    cases he : a.handle e with
    | mk a₁ halt? =>
      cases halt? with
      | some halt => simp [he] at h
      | none =>
        simp only [he] at h
        simp only [List.map_cons, after, Assembly.call, he]
        exact Takes.after_eq h

theorem balanced_append : ∀ (cs ds : List Call) (a : Assembly),
    a.balanced (cs ++ ds) = (a.balanced cs && (a.after cs).balanced ds)
  | [], ds, a => by simp [balanced, after]
  | .event e :: cs, ds, a => by
    rw [List.cons_append, balanced, balanced, balanced_append cs ds, after, Bool.and_assoc]
  | .startUnit path :: cs, ds, a | .take :: cs, ds, a => by
    rw [List.cons_append, balanced, balanced, balanced_append cs ds, after]
    all_goals exact fun _ h => by cases h

/-- From `a`, events that fit are taken, and deferred statements are completed only where they can be. Then `P` holds.
-/
def Reaches (a : Assembly) (es : List Event) (P : Assembly → Prop) : Prop :=
  a.failure? = none → Fitting es → ∃ b, Takes a es b ∧ a.balanced (es.map .event) = true ∧ P b

namespace Reaches

theorem nil (h : P a) : Reaches a [] P := fun _ _ => ⟨a, takes_nil.2 rfl, rfl, h⟩

theorem append (h : Reaches a es P) (h' : ∀ b, P b → Reaches b es' Q) : Reaches a (es ++ es') Q := by
  intro hf hfit
  obtain ⟨b, hb, hbal, hP⟩ := h hf hfit.append.1
  obtain ⟨c, hc, hbal', hQ⟩ := h' b hP (hb.failure.trans hf) hfit.append.2
  refine ⟨c, hb.trans hc, ?_, hQ⟩
  rw [List.map_append, balanced_append, hbal, hb.after_eq, hbal']
  rfl

theorem one (hc : e.kind = .deferred → a.completable = true) (h : ∃ b, dispatch e a = .ok () b ∧ P b) :
    Reaches a [e] P := by
  intro hf _
  obtain ⟨b, hb, hP⟩ := h
  refine ⟨b, .of_dispatch hf hb, ?_, hP⟩
  by_cases hk : e.kind = .deferred
  · simp [Assembly.balanced, hc hk]
  · simp [Assembly.balanced, hk]

theorem step (hk : (e.kind != .deferred) = true) (h : ∃ b, dispatch e a = .ok () b ∧ P b) : Reaches a [e] P :=
  .one (fun he => by simp [he] at hk) h

theorem cons (hk : (e.kind != .deferred) = true) (hb : dispatch e a = .ok () b) (h : Reaches b es P) :
    Reaches a (e :: es) P :=
  (step (P := (· = b)) hk ⟨b, hb, rfl⟩).append fun _ hb => hb ▸ h

theorem mono (h : Reaches a es P) (h' : ∀ b, P b → Q b) : Reaches a es Q := by
  intro hf hfit
  obtain ⟨b, hb, hbal, hP⟩ := h hf hfit
  exact ⟨b, hb, hbal, h' b hP⟩

theorem inner (hk : ∀ e ∈ es, e.kind.isInner = true)
    (h : a.failure? = none → (∀ e ∈ es, e.legible = true) → ∃ b, Takes a es b ∧ P b) : Reaches a es P := by
  intro hf hfit
  obtain ⟨b, hb, hP⟩ := h hf hfit.legible
  refine ⟨b, hb, ?_, hP⟩
  clear h hf hfit hb hP
  induction es generalizing a with
  | nil => rfl
  | cons e es ih =>
    rw [List.forall_mem_cons] at hk
    have he := ne_deferred_of_inner hk.1
    simp [Assembly.balanced, he, ih hk.2]

theorem of_takes (h : Reaches a es P) (hf : a.failure? = none) (ht : Takes a es b) : P b := by
  obtain ⟨c, hc, -, hP⟩ := h hf ht.fitting
  exact ht.unique hc ▸ hP

end Reaches

/-! ## Operands in their place -/

theorem Ready.reads (ha : Ready a) (hf : a.failure? = none) (p : Nat) : Reads a a p p .nil :=
  .intro (ha.holding p) hf ha.mode ha.fragments

theorem Ready.expression (hn : Ready n) {y : Expr} {lo : Nat} (hlo : lo ≤ p) (ho : Ordered p y.tokens) :
    Reaches n (y.events source) fun b => ∃ f, Holding n b lo y.stop f .nil ∧ f.hull = some y.core ∧
      Topped [] f.terms := by
  refine .inner y.inner fun hf hl => ?_
  obtain ⟨t, l, f, ht, H, hterms, hhull⟩ :=
    (hn.holding lo).run hf ((Expr.rising ho).mono_left hlo) (y.pushes hl : Pushes _ [] _)
  rw [hull_nil, Expr.widen_events, Span.none_over] at hhull
  exact ⟨_, ht, f, H, hhull, hterms ▸ y.topped source []⟩

theorem Ready.declaration (hn : Ready n) {d : Declaration} (ho : Ordered p d.tokens) :
    Reaches n (d.events source) fun b => ∃ f xs, Holding n b p (lastStop p d.tokens) f .nil ∧ Topped xs f.terms := by
  refine .inner d.inner fun hf hl => ?_
  obtain ⟨b, f, xs, ht, H, htop⟩ := (hn.reads hf p).declaration d ho hl
  exact ⟨b, ht, f, xs, H, htop⟩

/-- Since `n`, operands have been read, and all can be taken from the stage. -/
def Operable (n b : Assembly) (lo hi : Nat) : Prop := ∃ f, Holding n b lo hi f .nil ∧ Settled f.terms

theorem Ready.optional (hn : Ready n) (y? : Option Expr) (ho : Ordered p (optionTokens y?)) (source : List UInt8) :
    Reaches n (optionEvents source y?) fun b => Operable n b p (lastStop p (optionTokens y?)) := by
  cases y? with
  | none => exact .nil ⟨.nil, hn.holding p, by simp [Settled]⟩
  | some y =>
    refine (hn.expression le_rfl ho).mono ?_
    rintro b ⟨f, H, -, ht⟩
    exact ⟨f, by simpa [optionTokens] using H, ht.settled⟩

theorem Ready.forInit (hn : Ready n) {i : ForInit} (ho : Ordered p i.tokens) :
    Reaches n (i.events source) fun b => Operable n b p (lastStop p i.tokens) := by
  cases i with
  | none => exact hn.optional none ho source
  | expression y => exact hn.optional (some y) ho source
  | declaration d =>
    refine (hn.declaration ho).mono ?_
    rintro b ⟨f, xs, H, ht⟩
    exact ⟨f, H, ht.settled⟩

end Deferral.Assembly
