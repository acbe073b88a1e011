import Deferral.Assembly.Build

/-!
# What a step looks at

Steps write to the log of an assembly and never look at it, and what they say of the source is about the event they take
or about the place where the last construct ended. `Tame` says so of one step: whatever was logged before, it gives the
same answer and leaves the same assembly, the log apart, and it neither finds a fault nor ends a construct past a place
that the event and the last construct are before. `tame_dispatch` says it of the step of every event.
-/

namespace Deferral.Assembly

variable {α β : Type} {n : Nat}

/-- An assembly without its log. -/
def unlogged (a : Assembly) : Assembly := { a with log := #[] }

/-- What comes of a step, the log apart. -/
def seen : EStateM.Result Halt Assembly α → EStateM.Result Halt Assembly α
  | .ok v a => .ok v a.unlogged
  | .error halt a => .error halt a.unlogged

/-- Nothing has ended past `n`, and a fault is not found there. -/
def Before (n : Nat) : EStateM.Result Halt Assembly α → Prop
  | .ok _ a => a.lastEnd ≤ n
  | .error (.fault f) _ => f.offset ≤ n
  | .error (.outOfRange _ _) _ => True

/-- The step stays before `n` where everything has ended before, and what comes of it does not depend on the log. -/
def Tame (n : Nat) (x : Step α) : Prop :=
  ∀ a log, a.lastEnd ≤ n → Before n (x a) ∧ seen (x { a with log }) = seen (x a)

theorem eq_of_unlogged {a b : Assembly} (h : a.unlogged = b.unlogged) : a = { b with log := a.log } := by
  cases a
  cases b
  cases h
  rfl

namespace Tame

variable {x : Step α} {f : α → Step β}

theorem bind (hx : Tame n x) (hf : ∀ v, Tame n (f v)) : Tame n (x >>= f) := by
  intro a log ha
  obtain ⟨hn, h⟩ := hx a log ha
  simp only [Bind.bind, EStateM.bind]
  generalize x { a with log } = r, x a = q at hn h ⊢
  cases r with
  | ok v b =>
    cases q with
    | ok w c =>
      -- One of the assemblies that `x` leaves is the other with another log.
      obtain ⟨rfl, hbc⟩ := EStateM.Result.ok.inj h
      rw [eq_of_unlogged hbc]
      exact hf v c b.log hn
    | error halt c => cases h
  | error halt b =>
    cases q with
    | ok w c => cases h
    | error halt' c =>
      obtain ⟨rfl, hbc⟩ := EStateM.Result.error.inj h
      refine ⟨?_, congrArg (EStateM.Result.error halt) hbc⟩
      cases halt with
      | fault g => exact hn
      | outOfRange base staged => trivial

theorem pure (v : α) : Tame n (Pure.pure v : Step α) := fun _ _ h => ⟨h, rfl⟩

theorem fail {g : Fault} (hg : g.offset ≤ n) : Tame n (fail g : Step α) := fun _ _ _ => ⟨hg, rfl⟩

theorem outOfRange {base staged : Nat} : Tame n (throw (.outOfRange base staged) : Step α) :=
  fun _ _ _ => ⟨trivial, rfl⟩

/-- What is done next may depend on the assembly, though not on its log. -/
theorem reads {f : Assembly → Step β} (hf : ∀ a log, f { a with log } = f a) (h : ∀ a, a.lastEnd ≤ n → Tame n (f a)) :
    Tame n (get >>= f) := fun a log ha => by
  change Before n (f a a) ∧ seen (f { a with log } { a with log }) = seen (f a a)
  rw [hf a log]
  exact h a ha a log ha

theorem here {f : Assembly → Step β} (h : ∀ a log, a.lastEnd ≤ n →
    Before n (f a a) ∧ seen (f { a with log } { a with log }) = seen (f a a)) : Tame n (get >>= f) := h

theorem ite {c : Prop} {_ : Decidable c} {y : Step α} (hx : Tame n x) (hy : Tame n y) :
    Tame n (if c then x else y) := by
  split
  · exact hx
  · exact hy

theorem replaced {k : Unit → Step β} (hk : ∀ v, Tame n (k v)) {b : Assembly} (hb : b.lastEnd ≤ n) (a a' : Assembly)
    (log : Array Log.Entry) :
    Before n ((set b >>= k) a) ∧ seen ((set { b with log } >>= k) a') = seen ((set b >>= k) a) :=
  hk () b log hb

theorem forM {f : α → Step Unit} (h : ∀ v, Tame n (f v)) : ∀ vs : List α, Tame n (vs.forM f)
  | [] => .pure ()
  | v :: vs => (h v).bind fun _ => forM h vs

end Tame

/-! ## Elementary steps -/

section

variable {e : Event} (he : e.offset ≤ n)

theorem tame_newNode (c : Construct) (span : Span) : Tame n (newNode c span) := fun _ _ h => ⟨h, rfl⟩

theorem tame_attach (parent child : Slot) : Tame n (attach parent child) := fun _ _ h => ⟨h, rfl⟩

theorem tame_stage (s : Slot) : Tame n (stage s) := fun _ _ h => ⟨h, rfl⟩

include he

theorem tame_unexpected : Tame n (unexpected e : Step α) := fun _ _ _ => ⟨he, rfl⟩

theorem tame_expectNoOperands : Tame n (expectNoOperands e) :=
  .reads (fun _ _ => rfl) fun _ _ => .ite (tame_unexpected he) (.pure ())

theorem tame_getOrUnexpected : ∀ v? : Option α, Tame n (getOrUnexpected e v?)
  | some v => .pure v
  | none => tame_unexpected he

theorem tame_leafSpan : Tame n (leafSpan e) := by
  refine .ite (.fail he) ?_
  split
  · exact .ite (.pure _) (.fail he)
  · exact .ite (.pure _) (.fail he)

theorem tame_countOf : Tame n (countOf e) := by
  unfold countOf
  split
  · exact .pure _
  · exact .fail he

/-! ## Operands -/

omit he in
theorem topOperand?_log (a : Assembly) (log : Array Log.Entry) : topOperand? { a with log } = topOperand? a := rfl

theorem tame_popRaw : Tame n (popRaw e) := by
  refine .here fun a log ha => ?_
  simp only [topOperand?_log]
  cases topOperand? a with
  | none => exact ⟨he, rfl⟩
  | some s =>
    refine Tame.replaced (fun _ => ?_) (by exact ha) _ _ log
    split
    · exact .fail he
    · exact .pure s

omit he in
theorem tame_applyWaiting : ∀ (k : Nat) (operand : Slot), Tame n (applyWaiting k operand)
  | 0, operand => .pure operand
  | k + 1, operand => by
    refine .here fun a log ha => ?_
    simp only [topOperand?_log]
    cases topOperand? a with
    | none => exact ⟨ha, rfl⟩
    | some op =>
      by_cases hw : isWaiting a.tree op = true
      · simp only [hw, if_true]
        refine Tame.replaced (fun _ => ?_) (by exact ha) _ _ log
        exact .bind (fun _ _ h => ⟨h, rfl⟩) fun _ => tame_applyWaiting k op
      · simp only [hw]
        exact ⟨ha, rfl⟩

theorem tame_popOperand : Tame n (popOperand e) :=
  (tame_popRaw he).bind fun s => .reads (fun _ _ => rfl) fun a _ => tame_applyWaiting a.height s

theorem tame_popSingle : Tame n (popSingle e) :=
  (tame_popOperand he).bind fun s => (tame_expectNoOperands he).bind fun _ => .pure s

theorem tame_popAll : ∀ (k : Nat) (later : List Slot), Tame n (popAll e k later)
  | 0, later => .pure later
  | k + 1, later =>
    .reads (fun _ _ => rfl) fun _ _ =>
      .ite ((tame_popOperand he).bind fun s => tame_popAll k (s :: later)) (.pure later)

theorem tame_popStatement : Tame n (popStatement e) := .reads (fun _ _ => rfl) fun a _ => tame_popAll he a.height []

theorem tame_popOperands : ∀ (k : Nat) (later : List Slot), Tame n (popOperands e k later)
  | 0, later => .pure later
  | k + 1, later => (tame_popOperand he).bind fun s => tame_popOperands k (s :: later)

omit he in
theorem tame_stageSuffixed (suffix : Suffix) (base : Slot) (operands : List Slot) :
    Tame n (stageSuffixed e suffix base operands) :=
  .reads (fun _ _ => rfl) fun _ _ => (tame_newNode _ _).bind fun s => (tame_attach s base).bind fun _ =>
    (Tame.forM (tame_attach s) operands).bind fun _ => tame_stage s

/-! ## Scopes -/

theorem tame_expectTop (tag : Construct.Tag) : Tame n (expectTop e tag) :=
  .reads (fun _ _ => rfl) fun a _ => by
    cases a.scopes with
    | nil => exact .fail he
    | cons frame rest => exact .ite (.pure _) (.fail he)

omit he in
theorem tame_closeScope {stop : Nat} (hstop : stop ≤ n) : Tame n (closeScope e stop) := by
  refine (tame_expectNoOperands hstop).bind fun _ => .here fun a log ha => ?_
  rcases a with ⟨_, _, _, _, _ | ⟨frame, _ | ⟨outer, rest⟩⟩, _⟩
  · exact ⟨hstop, rfl⟩
  · exact ⟨hstop, rfl⟩
  · refine Tame.replaced (fun _ => .ite (.bind .outOfRange fun _ => ?_) ?_) (by exact ha) _ _ log
    all_goals
      refine .bind (fun _ _ h => ⟨h, rfl⟩) fun statements =>
        .bind (.forM (tame_attach frame.slot) statements) fun _ => ?_
      exact fun _ _ _ => ⟨hstop, rfl⟩

theorem tame_closeConstruct (tag : Construct.Tag) : Tame n (closeConstruct e tag) := by
  refine (tame_expectTop he tag).bind fun _ => .reads (fun _ _ => rfl) fun _ _ => ?_
  refine .ite (.bind (tame_unexpected he) fun _ => ?_) ?_
  all_goals exact (tame_closeScope he).bind fun _ => fun _ _ h => ⟨h, rfl⟩

omit he in
theorem tame_closeLabel : Tame n (closeLabel e) :=
  .reads (fun _ _ => rfl) fun _ ha => (tame_closeScope ha).bind fun _ => fun _ _ h => ⟨h, rfl⟩

omit he in
theorem tame_closeOpenLabel : Tame n (closeOpenLabel e) :=
  .reads (fun _ _ => rfl) fun _ _ => .ite (tame_closeLabel.bind fun _ => .pure ()) (.pure ())

theorem tame_onTypeWord : Tame n (onTypeWord e) := by
  refine (tame_leafSpan he).bind fun span => .here fun a log ha => ?_
  by_cases hm : a.mode = .tagName
  · have hm' : mode { a with log } = .tagName := hm
    simp only [if_pos hm, if_pos hm']
    refine Tame.replaced (fun _ => ?_) (by exact ha) _ _ log
    split
    · exact .fail he
    · exact fun _ _ h => ⟨h, rfl⟩
  · have hm' : mode { a with log } ≠ .tagName := hm
    simp only [if_neg hm, if_neg hm']
    exact ⟨ha, rfl⟩

theorem tame_stageNew (c : Construct) (children : List Slot) : Tame n (stageNew e c children) :=
  .reads (fun _ _ => rfl) fun _ _ => (tame_newNode _ _).bind fun s =>
    (Tame.forM (tame_attach s) children).bind fun _ => fun _ _ _ => ⟨he, rfl⟩

theorem tame_onDeferred : Tame n (onDeferred e) := by
  refine .here fun a log ha => ?_
  by_cases hm : a.mode = .deferredOperation
  · have hm' : mode { a with log } = .deferredOperation := hm
    simp only [if_pos hm, if_pos hm']
    rcases a with ⟨_, _, _, _, _, _, _, _ | ⟨waiting, rest⟩, _⟩
    · exact ⟨he, rfl⟩
    · refine Tame.replaced (fun _ => ?_) (by exact ha) _ _ log
      exact (tame_popSingle he).bind fun _ => fun _ _ _ => ⟨he, rfl⟩
  · have hm' : mode { a with log } ≠ .deferredOperation := hm
    simp only [if_neg hm, if_neg hm']
    exact ⟨he, rfl⟩

/-! ## Events -/

omit he in
theorem Tame.readsTree {f : Tree → Step β} (h : ∀ t, Tame n (f t)) : Tame n (getTree >>= f) :=
  .reads (fun _ _ => rfl) fun a _ => h a.tree

/-- Every step is put together from the steps above and from some that only write. -/
theorem tame_dispatch : Tame n (dispatch e) := by
  unfold dispatch
  cases e.kind
  case typeWord => exact tame_onTypeWord he
  case deferred => exact tame_onDeferred he
  all_goals
    simp only [onTagKeyword, onFragment, onArraySuffix, onDeclaratorName, onFunctionHeader, onScopeStart, onScopeEnd,
      onImplicitScopeStart, onImplicitScopeEnd, onIfHeader, onElse, onForHeader, onForPart, openLoop, onCondition,
      onDoHeader, onDoCondition, onSwitchHeader, onCaseLabel, onLabel, onSwitchEnd, onStatementEnd, onEmptyStatement,
      onReturn, onJump, onDeferHeader, onLeaf, onBinary, onCall, onIndex, onMember, onIncrement, onInitializerList,
      onUnitEnd]
  -- a step that is known, a rule for what a step begins with, or a step that only writes
  all_goals repeat' first
    | with_reducible first
      | refine .ite ?_ ?_
      | exact tame_popRaw he
      | exact tame_popOperand he
      | exact tame_popSingle he
      | exact tame_popStatement he
      | exact tame_popOperands he _ _
      | exact tame_expectNoOperands he
      | exact tame_expectTop he _
      | exact tame_leafSpan he
      | exact tame_countOf he
      | exact tame_closeScope he
      | exact tame_closeConstruct he _
      | exact tame_closeOpenLabel
      | exact tame_closeLabel
      | exact tame_stageSuffixed _ _ _
      | exact tame_stageNew he _ _
      | exact tame_getOrUnexpected he _
      | exact tame_unexpected he
      | exact .fail he
      | exact .pure _
      | refine .forM (fun _ => ?_) _
      | refine .readsTree fun _ => ?_
      | refine .reads (fun a log => ?_) fun _ _ => ?_
      | refine .bind ?_ fun _ => ?_
    | rfl
    | split
    | exact fun _ _ h => ⟨h, rfl⟩
    | exact fun _ _ _ => ⟨he, rfl⟩

end

/-! ## Whole sources -/

variable {a b : Assembly}

theorem handle_unlogged (h : a.unlogged = b.unlogged) (e : Event) :
    (a.handle e).1.unlogged = (b.handle e).1.unlogged ∧ (a.handle e).2 = (b.handle e).2 := by
  have hd := (tame_dispatch (Nat.le_max_right b.lastEnd e.offset) b a.log (Nat.le_max_left ..)).2
  rw [← eq_of_unlogged h] at hd
  have hf : a.unlogged.failure? = b.unlogged.failure? := congrArg failure? h
  change a.failure? = b.failure? at hf
  simp only [handle, hf]
  cases b.failure? with
  | some f => exact ⟨h, rfl⟩
  | none =>
    generalize dispatch e a = r, dispatch e b = q at hd ⊢
    cases r with
    | ok v a' =>
      cases q with
      | ok w b' => exact ⟨(EStateM.Result.ok.inj hd).2, rfl⟩
      | error halt b' => cases hd
    | error halt a' =>
      cases q with
      | ok w b' => cases hd
      | error halt' b' =>
        obtain ⟨rfl, hab⟩ := EStateM.Result.error.inj hd
        cases halt with
        | fault f => exact ⟨congrArg (fun c : Assembly => { c with failure? := some f }) hab, rfl⟩
        | outOfRange base staged => exact ⟨hab, rfl⟩

theorem handleAll_unlogged : ∀ (es : List Event) {a b : Assembly}, a.unlogged = b.unlogged →
    (a.handleAll es).1.unlogged = (b.handleAll es).1.unlogged ∧ (a.handleAll es).2 = (b.handleAll es).2
  | [], _, _, h => ⟨h, rfl⟩
  | e :: es, a, b, h => by
    obtain ⟨hab, hanswer⟩ := handle_unlogged h e
    simp only [handleAll]
    generalize a.handle e = r, b.handle e = q at hab hanswer ⊢
    obtain ⟨a', answer⟩ := r
    obtain ⟨b', _⟩ := q
    obtain rfl : answer = _ := hanswer
    cases answer with
    | none => exact handleAll_unlogged es hab
    | some halt => exact ⟨hab, rfl⟩

theorem unlogged_startUnit (a : Assembly) (path : Path) : (a.startUnit path).unlogged = (start path).unlogged := rfl

theorem build_startUnit (a : Assembly) (path : Path) (source : List UInt8) :
    ((a.startUnit path).build source).1 = ((start path).build source).1 := by
  obtain ⟨hab, hanswer⟩ := handleAll_unlogged (Grammar.trace source).events.toList (unlogged_startUnit a path)
  simp only [build, feed]
  generalize (a.startUnit path).handleAll _ = r, (start path).handleAll _ = q at hab hanswer ⊢
  obtain ⟨a', answer⟩ := r
  obtain ⟨b', _⟩ := q
  obtain rfl : answer = _ := hanswer
  cases answer with
  | some halt => rfl
  | none =>
    cases (Grammar.trace source).stop? with
    | some stop => rfl
    | none => exact congrArg (Except.ok ·.tree) hab

end Deferral.Assembly
