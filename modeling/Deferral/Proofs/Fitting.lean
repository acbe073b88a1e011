import Deferral.Proofs.Acts

/-!
# Events that fit

A list of events fits if the literals are as the assembly asks and no label is all there is in a body without braces.
Events that do not fit are not all taken, whatever the assembly has taken before (`Takes.fitting`).
-/

namespace Deferral

open List

/-- Kinds of events in the middle of a statement. -/
def Event.Kind.isInner (kind : Event.Kind) : Bool :=
  match kind with
  | .typeWord | .tagKeyword | .pointer | .reference | .declaratorName => true
  | _ => kind.isLeaf || kind.isCompound

def Event.Kind.isLabel : Event.Kind → Bool
  | .caseLabel | .defaultLabel => true
  | _ => false

namespace Grammar

variable {p q : Nat} {e : Event} {es es' : List Event} {source : List UInt8}

/-! ## Events inside a statement -/

mutual

theorem Expr.inner : ∀ (y : Expr), ∀ e ∈ y.events source, e.kind.isInner = true
  | .name _ | .constant _ | .strings _ _ _ | .measure _ _ => forall_mem_singleton.2 rfl
  | .sign _ y | .sizeOf _ y | .cast _ y => forall_mem_cons.2 ⟨rfl, y.inner⟩
  | .group _ y _ => y.inner
  | .binary l op r => by
    simp only [Expr.events, forall_mem_append, forall_mem_singleton]
    refine ⟨l.inner, r.inner, ?_⟩
    rcases kind_of_operator? op.known with h | h | h <;> (rw [mark, h]; rfl)
  | .conditional c _ y _ n => by
    simp only [Expr.events, forall_mem_append, forall_mem_cons]
    exact ⟨c.inner, y.inner, n.inner, rfl, rfl, nofun⟩
  | .call b _ y _ | .index b _ y _ => by
    simp only [Expr.events, forall_mem_append, forall_mem_singleton]
    exact ⟨b.inner, y.inner, rfl⟩
  | .member b _ _ | .increment b _ => forall_mem_append.2 ⟨b.inner, forall_mem_singleton.2 rfl⟩

theorem Args.inner : ∀ (as : Args), ∀ e ∈ as.events source, e.kind.isInner = true
  | .none => nofun
  | .last y => y.inner
  | .more y _ rest => forall_mem_append.2 ⟨y.inner, rest.inner⟩

end

mutual

theorem Init.inner : ∀ (i : Init), ∀ e ∈ i.events source, e.kind.isInner = true
  | .value y => y.inner
  | .list _ ms _ => forall_mem_append.2 ⟨ms.inner, forall_mem_singleton.2 rfl⟩

theorem Inits.inner : ∀ (is : Inits), ∀ e ∈ is.events source, e.kind.isInner = true
  | .none => nofun
  | .last i => i.inner
  | .more i _ rest => forall_mem_append.2 ⟨i.inner, rest.inner⟩

end

theorem Specifier.inner (s : Specifier) : ∀ e ∈ s.events, e.kind.isInner = true := by
  cases s <;> simp [Specifier.events, mark, tokenLeaf, Event.Kind.isInner]

theorem markEvents_inner (t : Token) : ∀ e ∈ markEvents t, e.kind.isInner = true := by
  unfold markEvents
  split
  · simp [mark, Event.Kind.isInner]
  · split <;> simp [mark, Event.Kind.isInner]

theorem suffixEvents_inner (gs : List Enclosed) : ∀ e ∈ suffixEvents source gs, e.kind.isInner = true := by
  simp [suffixEvents, textLeaf, Event.Kind.isInner, Event.Kind.isCompound]

theorem Declarator.inner (d : Declarator) : ∀ e ∈ d.events source, e.kind.isInner = true := by
  simp only [Declarator.events, forall_mem_append, forall_mem_cons, forall_mem_flatMap]
  exact ⟨fun t _ => markEvents_inner t, rfl, suffixEvents_inner _⟩

theorem InitDeclarator.inner (d : InitDeclarator) : ∀ e ∈ d.events source, e.kind.isInner = true := by
  obtain ⟨declarator, init?⟩ := d
  cases init? with
  | none => simpa [InitDeclarator.events] using declarator.inner
  | some i =>
    simp only [InitDeclarator.events, forall_mem_append, forall_mem_singleton]
    exact ⟨declarator.inner, i.2.inner, rfl⟩

theorem InitDeclarators.inner : ∀ (ds : InitDeclarators), ∀ e ∈ ds.events source, e.kind.isInner = true
  | .last d => d.inner
  | .more d _ rest => forall_mem_append.2 ⟨d.inner, rest.inner⟩

theorem Declaration.inner (d : Declaration) : ∀ e ∈ d.events source, e.kind.isInner = true := by
  simp only [Declaration.events, forall_mem_append, forall_mem_flatMap]
  exact ⟨fun s _ => s.inner, d.declarators.inner⟩

theorem Param.inner (x : Param) : ∀ e ∈ x.events source p, e.kind.isInner = true := by
  cases x with
  | named ss d =>
    simp only [Param.events, forall_mem_append, forall_mem_flatMap]
    exact ⟨fun s _ => s.inner, d.inner⟩
  | nameless ss marks suffixes =>
    simp only [Param.events, forall_mem_append, forall_mem_flatMap, forall_mem_cons]
    exact ⟨fun s _ => s.inner, fun t _ => markEvents_inner t, rfl, suffixEvents_inner _⟩

theorem Params.inner : ∀ (ps : Params) (p : Nat), ∀ e ∈ ps.events source p, e.kind.isInner = true
  | .none, _ | .word _, _ => by simp [Params.events]
  | .last x, _ => x.inner
  | .more x _ rest, _ => forall_mem_append.2 ⟨x.inner, rest.inner _⟩

theorem ne_deferred_of_inner {e : Event} (h : e.kind.isInner = true) : e.kind ≠ .deferred := by
  intro hk
  rw [hk] at h
  cases h

/-! ## Events that fit -/

/-- No label is directly followed by the end of a body without braces. -/
def labelsStand : List Event → Bool
  | [] => true
  | e :: es => !(e.kind.isLabel && es.head?.any (·.kind == .implicitScopeEnd)) && labelsStand es

/-- Literals are as the assembly asks, and no label is a body. -/
structure Fitting (es : List Event) : Prop where
  legible : ∀ e ∈ es, e.legible = true
  labels : labelsStand es = true

theorem labelsStand_append : ∀ {es : List Event}, labelsStand (es ++ es') = true →
    labelsStand es = true ∧ labelsStand es' = true
  | [], h => ⟨rfl, h⟩
  | e :: es, h => by
    rw [cons_append, labelsStand, Bool.and_eq_true] at h
    obtain ⟨hes, hes'⟩ := labelsStand_append h.2
    refine ⟨?_, hes'⟩
    rw [labelsStand, hes, Bool.and_true]
    cases es with
    | nil => simp
    | cons => exact h.1

theorem Fitting.append (h : Fitting (es ++ es')) : Fitting es ∧ Fitting es' := by
  obtain ⟨hl, hl'⟩ := forall_mem_append.1 h.legible
  obtain ⟨hs, hs'⟩ := labelsStand_append h.labels
  exact ⟨⟨hl, hs⟩, hl', hs'⟩

theorem Fitting.cons (h : Fitting (e :: es)) : e.legible = true ∧ Fitting es := by
  obtain ⟨h, h'⟩ : Fitting [e] ∧ Fitting es := Fitting.append h
  exact ⟨h.legible e mem_cons_self, h'⟩

theorem labelsStand_body (l : Label) (n : Nat) : labelsStand [l.event, mark .implicitScopeEnd n] = false := by
  cases l <;> rfl

end Grammar

namespace Assembly

open Grammar

variable {a b b' : Assembly} {e : Event} {es : List Event}

theorem Takes.unique (h : Takes a es b) (h' : Takes a es b') : b' = b := by
  rw [Takes, h, Prod.mk.injEq] at h'
  exact h'.1.symm

/-! ## What does not fit is turned down -/

theorem placed_of_leafSpan {span : Span} (h : leafSpan e a = .ok span b) : e.placed = true := by
  unfold leafSpan at h
  unfold Event.placed
  split at h
  case isTrue => cases h
  case isFalse hne =>
    have hno : invalidLiteral e a ≠ .ok span b := nofun
    have hne : e.literal.isEmpty = false := by simpa using hne
    cases hs : e.start? with
    | none | some =>
      simp only [hs] at h ⊢
      split at h
      case isTrue hlt => simp [hne, hlt]
      case isFalse => exact absurd h hno

theorem count_of_countOf {k : Nat} (h : countOf e a = .ok k b) : (count? e.literal).isSome = true := by
  unfold countOf at h
  cases hc : count? e.literal with
  | none => simp [hc, invalidLiteral, fail, throw_apply] at h
  | some => rfl

theorem legible_of_dispatch (h : dispatch e a = .ok () b) : e.legible = true := by
  cases hk : e.kind with
  | typeWord | tagKeyword | pointer | reference | declaratorName | identifier | constant | unaryOperator =>
    simp only [dispatch, hk] at h
    obtain ⟨span, b₁, h₁, -⟩ := bind_ok.1 h
    simp only [Event.legible, hk, placed_of_leafSpan h₁]
  | assignment | relational | binaryOperator | caseLabel =>
    simp only [dispatch, hk, onBinary, onCaseLabel] at h
    split at h
    case isTrue => cases h
    case isFalse hne => simp [Event.legible, hk, hne]
  | postfixCall | initializerList =>
    simp only [dispatch, hk] at h
    obtain ⟨k, b₁, h₁, -⟩ := bind_ok.1 h
    simp only [Event.legible, hk, count_of_countOf h₁]
  | postfixMember | postfixIncrement | jump =>
    refine (Bool.not_eq_false _).mp fun hno => ?_
    simp only [Event.legible, hk, Option.isSome_eq_false_iff, Option.isNone_iff_eq_none] at hno
    simp only [dispatch, hk, onMember, onIncrement, onJump, hno] at h
    cases h
  | _ => simp [Event.legible, hk]

theorem topTag_of_onLabel {text : String} (h : onLabel e text a = .ok () b) : topTag? b = some .caseLabel := by
  obtain ⟨a₁, h₁⟩ : ∃ a₁, (do
      let _ ← openScope (.caseLabel text false)
      setLastEnd e.offset
      report .caseLabel e.offset s!"label `{text}`" : Step Unit) a₁ = .ok () b := by
    rw [onLabel, get_bind] at h
    split at h
    · obtain ⟨previous, a₁, -, h₁⟩ := bind_ok.1 h
      exact ⟨_, h₁⟩
    · exact ⟨a, h⟩
  rw [openScope_bind] at h₁
  obtain ⟨-, rfl⟩ := EStateM.Result.ok.inj h₁
  simp [topTag?, opened, Tree.tag_eq, Tree.construct_push, Construct.tag]

theorem topTag_of_label (hk : e.kind.isLabel = true) (h : dispatch e a = .ok () b) : topTag? b = some .caseLabel := by
  unfold Event.Kind.isLabel at hk
  split at hk
  case h_1 hcase =>
    simp only [dispatch, hcase, onCaseLabel] at h
    split at h
    · cases h
    · exact topTag_of_onLabel h
  case h_2 hdefault =>
    simp only [dispatch, hdefault] at h
    exact topTag_of_onLabel h
  case h_3 => cases hk

theorem not_implicitScopeEnd (ht : topTag? a = some .caseLabel) : onImplicitScopeEnd e a ≠ .ok () b := by
  intro h
  obtain ⟨s, a₁, h₁, -⟩ := bind_ok.1 h
  obtain ⟨rfl, htag, frame, frames, hs, rfl⟩ := expectTop_ok h₁
  simp [topTag?, hs, htag] at ht

theorem Takes.labelsStand : ∀ {es : List Event} {a : Assembly}, Takes a es b → Grammar.labelsStand es = true
  | [], _, _ => rfl
  | e :: es, a, h => by
    obtain ⟨a₁, h₁, h₂⟩ := h.cons
    rw [Grammar.labelsStand, Takes.labelsStand h₂, Bool.and_true]
    cases hk : e.kind.isLabel with
    | false => rfl
    | true =>
      cases es with
      | nil => rfl
      | cons e' es =>
        obtain ⟨a₂, h₃, -⟩ := h₂.cons
        have hne : e'.kind ≠ .implicitScopeEnd := fun hk' => by
          simp only [dispatch, hk'] at h₃
          exact not_implicitScopeEnd (topTag_of_label hk h₁) h₃
        simp [hne]

theorem Takes.legible : ∀ {es : List Event} {a : Assembly}, Takes a es b → ∀ e ∈ es, e.legible = true
  | [], _, _, _, hm => by simp at hm
  | e :: es, a, h, e', hm => by
    obtain ⟨a₁, h₁, h₂⟩ := h.cons
    rcases mem_cons.1 hm with rfl | hm
    · exact legible_of_dispatch h₁
    · exact Takes.legible h₂ e' hm

theorem Takes.fitting (h : Takes a es b) : Fitting es := ⟨h.legible, h.labelsStand⟩

end Assembly

end Deferral
