import Deferral.Proofs.Parents
import Deferral.Proofs.Scopes

/-!
# What a step can do

Every step of an assembly is a sequence of a few kinds of acts (`Act`). In the middle of a step some nodes are nowhere:
the step has made them or taken them from the stage. Ordinary nodes, which were operands, are in its hand; whole
statements, scopes and deferred statements are held apart (`Work`). `goes_dispatch` and `goes_onDeferred` say for every
event that its step is such a sequence, whether it succeeds or fails, so that what each act keeps is kept by every
event.
-/

namespace Deferral

open List

variable {b : Assembly} {c : Construct}

namespace Construct

/-- The slots in a construct that name children of its node. -/
def operands : Construct → List Slot
  | .loop l => l.group?.toList
  | .branch g _ => g.toList
  | .switch g _ => g.toList
  | .returned v => v.toList
  | .suffixed _ base => [base]
  | .binary _ l r => [l, r]
  | .unary _ operand => operand.toList
  | _ => []

/-- The slots in a construct that name expressions in the header of a loop. -/
def parts : Construct → List Slot
  | .loop l => l.init?.toList ++ l.condition?.toList ++ l.change?.toList
  | _ => []

/-- The header group of a construct. -/
def group? : Construct → Option Slot
  | .branch g _ => g
  | .loop l => l.group?
  | .switch g _ => g
  | _ => none

theorem mem_parts {l : LoopParts} {x : Slot} :
    x ∈ (Construct.loop l).parts ↔ l.init? = some x ∨ l.condition? = some x ∨ l.change? = some x := by
  simp [parts]

theorem exists_loop (h : c.tag = .loop) : ∃ l, c = .loop l := by
  cases c <;> first | exact ⟨_, rfl⟩ | cases h

/-- A new node with this construct can stand over the nodes in `cs`: it names some of them and has no header. -/
structure Fits (c : Construct) (cs : List Slot) : Prop where
  operands : ∀ x ∈ c.operands, x ∈ cs
  parts : c.parts = []
  group? : c.group? = none
  tag : c.tag ≠ .group

end Construct

namespace Assembly

theorem group?_eq (t : Tree) (s : Slot) : group? t s = (t.construct s).group? := by
  unfold group? Construct.group?
  cases t.construct s <;> rfl

/-- What is in an assembly, apart from what is noted for the next events. -/
def core (a : Assembly) : Tree × List Slot × List Frame × Nat × List Frame × Option Fault :=
  (a.tree, a.staged, a.scopes, a.statementBase, a.waitingDefers, a.failure?)

theorem core_eq {a a' : Assembly} (h : a'.core = a.core) :
    a'.tree = a.tree ∧ a'.staged = a.staged ∧ a'.scopes = a.scopes ∧ a'.statementBase = a.statementBase ∧
      a'.waitingDefers = a.waitingDefers ∧ a'.failure? = a.failure? := by simpa [core] using h

/-- An assembly in the middle of a step. -/
structure Work where
  hand : List Slot
  held : List Slot
  assembly : Assembly

/-- The acts that only some events ask for: filling a header, a condition behind the body of a loop, and dissolving
scopes that add nothing. -/
inductive Special where
  | fill
  | trail
  | fold
  deriving DecidableEq

/-- One act of a step, special acts as far as `may` goes. -/
inductive Act (may : Special → Prop) : Work → Work → Prop
  /-- Anything that touches neither the tree, the stage nor the open scopes, and is no fault. -/
  | note {a a' : Assembly} {hand held} (h : a'.core = a.core) : Act may ⟨hand, held, a⟩ ⟨hand, held, a'⟩
  | measure {a hand held} (s : Slot) (span : Span) :
      Act may ⟨hand, held, a⟩ ⟨hand, held, { a with tree := a.tree.setSpan s span }⟩
  | shuffle {a held} {hand hand' : List Slot} (h : hand.Perm hand') :
      Act may ⟨hand, held, a⟩ ⟨hand', held, a⟩
  | spare {a hand held s} : Act may ⟨s :: hand, held, a⟩ ⟨hand, held, a⟩
  | aside {a hand held s} : Act may ⟨s :: hand, held, a⟩ ⟨hand, s :: held, a⟩
  /-- A new node over some of those in hand. -/
  | make {a hand held} (c : Construct) (span : Span) (cs : List Slot) (h : c.Fits cs) :
      Act may ⟨cs ++ hand, held, a⟩ ⟨⟨a.tree.size⟩ :: hand, held,
        { a with tree := (a.tree.push c span).2.attachAll ⟨a.tree.size⟩ cs }⟩
  /-- The top operand of the current statement leaves the stage. -/
  | take {a : Assembly} {hand held rest s} (hb : a.statementBase < a.height)
      (hs : a.staged = s :: rest) : Act may ⟨hand, held, a⟩ ⟨s :: hand, held, { a with staged := rest }⟩
  /-- A prefix operator gets its operand. -/
  | apply {a : Assembly} {hand held op x} (text : String)
      (hop : a.tree.construct op = .unary text none) :
      Act may ⟨x :: op :: hand, held, a⟩ ⟨op :: hand, held,
        { a with tree := (a.tree.attach op x).setConstruct op (.unary text (some x)) }⟩
  | stage {a : Assembly} {hand held s} :
      Act may ⟨s :: hand, held, a⟩ ⟨hand, held, { a with staged := s :: a.staged }⟩
  | settle {a hand held s} : Act may ⟨hand, s :: held, a⟩
      ⟨hand, held, { a with staged := s :: a.staged, statementBase := a.height + 1 }⟩
  | finish {a hand held} :
      Act may ⟨hand, held, a⟩ ⟨hand, held, { a with statementBase := a.height }⟩
  | enter {a hand held s} : Act may ⟨hand, s :: held, a⟩
      ⟨hand, held, { a with scopes := ⟨s, a.height⟩ :: a.scopes, statementBase := a.height }⟩
  /-- The innermost open scope gets a header group. -/
  | lead {a : Assembly} {hand held} (c : Construct) {frame frames}
      (hs : a.scopes = frame :: frames) (htag : c.tag = a.tree.tag frame.slot)
      (hparams : c.params = (a.tree.construct frame.slot).params) (hg : c.group? = some ⟨a.tree.size⟩)
      (ho : c.operands = [⟨a.tree.size⟩]) (hp : c.parts = []) :
      Act may ⟨hand, held, a⟩ ⟨hand, held, { a with
        tree := ((a.tree.push .group .absent).2.attach frame.slot ⟨a.tree.size⟩).setConstruct frame.slot c }⟩
  /-- The innermost scope closes and takes what was staged since it was opened. -/
  | leave {a : Assembly} {hand held frame outer frames}
      (hs : a.scopes = frame :: outer :: frames) (hle : frame.base ≤ a.height) :
      Act may ⟨hand, held, a⟩ ⟨hand, frame.slot :: held, { a with
        scopes := outer :: frames
        staged := a.staged.drop (a.height - frame.base)
        tree := a.tree.attachAll frame.slot (a.staged.take (a.height - frame.base)).reverse
        statementBase := (a.staged.drop (a.height - frame.base)).length }⟩
  | absorb {a : Assembly} {hand held s} (hm : may .fold) (hs : s ∈ held) :
      Act may ⟨hand, held, a⟩ ⟨hand, held, { a with tree := (a.tree.absorb s).2 }⟩
  /-- A construct changes: what it names besides is in its header group. -/
  | recast {a : Assembly} {hand held} (s : Slot) (c : Construct) (htag : c.tag = a.tree.tag s)
      (hparams : c.params = (a.tree.construct s).params) (hg : c.group? = (a.tree.construct s).group?)
      (ho : c.operands = (a.tree.construct s).operands)
      (hp : ∀ x ∈ c.parts, x ∈ (a.tree.construct s).parts ∨
        ∃ g, (a.tree.construct s).group? = some g ∧ (g.index < a.tree.size → x ∈ a.tree.children g)) :
      Act may ⟨hand, held, a⟩ ⟨hand, held, { a with tree := a.tree.setConstruct s c }⟩
  /-- A header group gets an expression. -/
  | adopt {a : Assembly} {hand held s g x} (hm : may .fill)
      (hg : (a.tree.construct s).group? = some g) :
      Act may ⟨x :: hand, held, a⟩ ⟨hand, held, { a with tree := a.tree.attach g x }⟩
  /-- The innermost loop gets its condition behind the body, in a group of its own. -/
  | trail {a : Assembly} {hand held x frame frames l}
      (hm : may .trail) (span : Span) (hs : a.scopes = frame :: frames) (hl : a.tree.construct frame.slot = .loop l) :
      Act may ⟨x :: hand, held, a⟩ ⟨hand, held, { a with
        tree := (((a.tree.push .group .absent).2.attach ⟨a.tree.size⟩ x).setSpan ⟨a.tree.size⟩ span).setConstruct
          frame.slot (.loop { l with condition? := some x, group? := some ⟨a.tree.size⟩ })
        staged := ⟨a.tree.size⟩ :: a.staged
        statementBase := a.height + 1 }⟩
  /-- A node that is held apart gets a child. -/
  | give {a hand held s x} :
      Act may ⟨x :: hand, s :: held, a⟩ ⟨hand, s :: held, { a with tree := a.tree.attach s x }⟩
  /-- A parameter of the innermost scope, which is a function, is tied to it. -/
  | param {a : Assembly} {hand held p frame frames}
      (hs : a.scopes = frame :: frames) (hp : p ∈ (a.tree.construct frame.slot).params) :
      Act may ⟨p :: hand, held, a⟩
        ⟨hand, held, { a with tree := a.tree.modify p ({ · with parent? := some frame.slot }) }⟩
  | wait {a : Assembly} {hand held s} :
      Act may ⟨hand, s :: held, a⟩ ⟨hand, held, { a with waitingDefers := ⟨s, a.height⟩ :: a.waitingDefers }⟩
  /-- The source file takes everything. -/
  | complete {a : Assembly} {hand held} (hs : a.scopes.length = 1) :
      Act may ⟨hand, held, a⟩ ⟨hand, held, { a with
        staged := []
        tree := a.tree.attachAll .root a.staged.reverse
        statementBase := 0 }⟩

variable {may : Special → Prop} {a a' : Assembly} {hand hand' held rest : List Slot} {s op x p g : Slot} {e : Event}

/-- A sequence of acts. -/
abbrev Acts (may : Special → Prop) : Work → Work → Prop := Relation.ReflTransGen (Act may)

/-- The step with outcome `r` is a sequence of acts from `w`. On success it leaves what `after` says. A scope whose base
is above the stage is what it takes to run out of range. -/
def Goes {α : Type} (may : Special → Prop) (w : Work) (r : EStateM.Result Halt Assembly α)
    (after : α → Assembly → Work) : Prop :=
  match r with
  | .ok v b => Acts may w (after v b)
  | .error (.fault _) b => ∃ hand held, Acts may w ⟨hand, held, b⟩
  | .error (.outOfRange _ _) _ =>
    ∃ w' frame, Acts may w w' ∧ w'.assembly.scopes.head? = some frame ∧ w'.assembly.height < frame.base

/-- From any assembly, the step is a sequence of acts from `hand` to what `after` says of its value. -/
def Proper {α : Type} (may : Special → Prop) (hand : List Slot) (x : Step α) (after : α → List Slot) : Prop :=
  ∀ held a, Goes may ⟨hand, held, a⟩ (x a) fun v b => ⟨after v, held, b⟩

section Rules

variable {α β : Type} {w w' : Work} {done : α → Assembly → Work} {r : EStateM.Result Halt Assembly α} {x : Step α}

namespace Goes

theorem after (h : Acts may w w') (hg : Goes may w' r done) : Goes may w r done := by
  match r with
  | .ok v b => exact h.trans hg
  | .error (.fault _) b =>
    obtain ⟨hand, held, hb⟩ := hg
    exact ⟨hand, held, h.trans hb⟩
  | .error (.outOfRange _ _) b =>
    obtain ⟨w₁, frame, hw, hf⟩ := hg
    exact ⟨w₁, frame, h.trans hw, hf⟩

theorem act (h : Act may w w') (hg : Goes may w' r done) : Goes may w r done := hg.after (.single h)

theorem note (hg : Goes may ⟨hand, held, a'⟩ r done) (h : a'.core = a.core) : Goes may ⟨hand, held, a⟩ r done :=
  hg.act (.note h)

theorem ok {v : α} (h : Act may w (done v b)) : Goes may w (.ok v b) done := .single h

theorem refl {v : α} (h : w = done v b) : Goes may w (.ok v b) done := by
  rw [h]
  exact Relation.ReflTransGen.refl

theorem fail {f : Fault} : Goes may ⟨hand, held, b⟩ (.error (.fault f) b) done := ⟨hand, held, .refl⟩

theorem bind {f : α → Step β} {mid : α → Assembly → Work} {last : β → Assembly → Work}
    (hx : Goes may w (x a) mid) (hf : ∀ v b, x a = .ok v b → Goes may (mid v b) (f v b) last) :
    Goes may w ((x >>= f) a) last := by
  change Goes may w (EStateM.bind x f a) last
  unfold EStateM.bind
  cases h : x a with
  | ok v b =>
    rw [h] at hx
    exact Goes.after hx (hf v b h)
  | error halt b =>
    rw [h] at hx
    cases halt <;> exact hx

end Goes

namespace Proper

variable {mid : α → List Slot} {last : β → List Slot}

theorem bind {f : α → Step β} (hx : Proper may hand x mid) (hf : ∀ v, Proper may (mid v) (f v) last) :
    Proper may hand (x >>= f) last := fun held a => (hx held a).bind fun v b _ => hf v held b

theorem reads {f : Assembly → Step β} (hf : ∀ a, Proper may hand (f a) last) : Proper may hand (get >>= f) last :=
  fun held a => hf a held a

theorem readsTree {f : Tree → Step β} (hf : ∀ t, Proper may hand (f t) last) : Proper may hand (getTree >>= f) last :=
  fun held a => hf a.tree held a

theorem ite {c : Prop} [Decidable c] {y : Step α} (hx : Proper may hand x mid) (hy : Proper may hand y mid) :
    Proper may hand (if c then x else y) mid := by
  split
  · exact hx
  · exact hy

theorem pure (v : α) : Proper may hand (pure v) fun _ => hand := fun _ _ => .refl rfl

end Proper

end Rules

theorem proper_modify {change : Assembly → Assembly} (h : ∀ a, (change a).core = a.core) :
    Proper may hand (modify change) fun _ => hand := fun _ a => .ok (.note (h a))

theorem proper_setLastEnd (n : Nat) : Proper may hand (setLastEnd n) fun _ => hand := proper_modify fun _ => rfl

theorem proper_report (tag : Construct.Tag) (n : Nat) (note : String) :
    Proper may hand (report tag n note) fun _ => hand := proper_modify fun _ => rfl

theorem proper_pushFragment (fragment : Fragment) : Proper may hand (pushFragment fragment) fun _ => hand :=
  proper_modify fun _ => rfl

theorem proper_expectNoOperands (e : Event) : Proper may hand (expectNoOperands e) fun _ => hand :=
  .reads fun _ => .ite (fun _ _ => .fail) (.pure ())

theorem proper_leafSpan (e : Event) : Proper may hand (leafSpan e) fun _ => hand := by
  refine .ite (fun _ _ => .fail) ?_
  cases e.start? with
  | some start => exact .ite (.pure _) fun _ _ => .fail
  | none => exact .ite (.pure _) fun _ _ => .fail

theorem proper_countOf (e : Event) : Proper may hand (countOf e) fun _ => hand := by
  unfold countOf
  cases count? e.literal with
  | some n => exact .pure n
  | none => exact fun _ _ => .fail

/-! ## Taking operands -/

theorem exists_of_topOperand? (h : topOperand? a = some s) :
    a.statementBase < a.height ∧ ∃ rest, a.staged = s :: rest := by
  unfold topOperand? at h
  split at h
  case isTrue ho => exact ⟨of_decide_eq_true ho, head?_eq_some_iff.1 h⟩
  case isFalse => cases h

theorem exists_of_isWaiting {t : Tree} (h : isWaiting t s = true) : ∃ text, t.construct s = .unary text none := by
  unfold isWaiting at h
  split at h
  case h_1 text hc => exact ⟨text, hc⟩
  case h_2 => cases h

/-- What taking operands leaves alone, besides nodes and finished statements. -/
structure Fixed (a b : Assembly) : Prop where
  scopes : b.scopes = a.scopes
  tag : ∀ s, b.tree.tag s = a.tree.tag s
  group : ∀ s, (b.tree.construct s).group? = (a.tree.construct s).group?

theorem Fixed.refl (a : Assembly) : Fixed a a := ⟨rfl, fun _ => rfl, fun _ => rfl⟩

theorem Fixed.trans {c : Assembly} (h : Fixed a a') (h' : Fixed a' c) : Fixed a c :=
  ⟨h'.scopes.trans h.scopes, fun s => (h'.tag s).trans (h.tag s), fun s => (h'.group s).trans (h.group s)⟩

/-- A step that takes operands is a sequence of acts, and leaves with `hand` what it is to leave alone. -/
structure Gets {α : Type} (may : Special → Prop) (w : Work) (r : EStateM.Result Halt Assembly α)
    (hand : α → List Slot) : Prop where
  goes : Goes may w r fun v b => ⟨hand v, w.held, b⟩
  fixed : ∀ {v b}, r = .ok v b → Fixed w.assembly b

namespace Gets

variable {α β : Type} {mid : α → List Slot} {last : β → List Slot} {r : EStateM.Result Halt Assembly α}

theorem act (h : Act may ⟨hand, held, a⟩ ⟨hand', held, a'⟩) (hf : Fixed a a') (hg : Gets may ⟨hand', held, a'⟩ r mid) :
    Gets may ⟨hand, held, a⟩ r mid := ⟨.act h hg.goes, fun hr => hf.trans (hg.fixed hr)⟩

theorem refl {v : α} (h : hand = mid v) : Gets may ⟨hand, held, a⟩ (.ok v a) mid :=
  ⟨.refl (h ▸ rfl), fun hr => (EStateM.Result.ok.inj hr).2 ▸ .refl _⟩

theorem fail {f : Fault} : Gets may ⟨hand, held, a⟩ (.error (.fault f) a) mid := ⟨.fail, nofun⟩

theorem bind {f : α → Step β} {x : Step α} (hx : Gets may ⟨hand, held, a⟩ (x a) mid)
    (hf : ∀ v b, Gets may ⟨mid v, held, b⟩ (f v b) last) : Gets may ⟨hand, held, a⟩ ((x >>= f) a) last := by
  refine ⟨hx.goes.bind fun v b _ => (hf v b).goes, fun hr => ?_⟩
  obtain ⟨v, b, hv, hr⟩ := bind_ok.1 hr
  exact (hx.fixed hv).trans ((hf v b).fixed hr)

end Gets

theorem gets_popRaw (e : Event) (hand held : List Slot) (a : Assembly) :
    Gets may ⟨hand, held, a⟩ (popRaw e a) (· :: hand) := by
  unfold popRaw
  rw [get_bind]
  cases hs : topOperand? a with
  | none => exact .fail
  | some s =>
    obtain ⟨hb, rest, hstaged⟩ := exists_of_topOperand? hs
    dsimp only
    rw [set_bind, hstaged, tail_cons]
    refine .act (.take hb hstaged) ⟨rfl, fun _ => rfl, fun _ => rfl⟩ ?_
    cases a.tree.construct s with
    | unary text operand? =>
      cases operand? with
      | none => exact .fail
      | some _ => exact .refl rfl
    | _ => exact .refl rfl

theorem gets_applyOperator {text : String} (hop : a.tree.construct op = .unary text none) :
    Gets may ⟨x :: op :: hand, held, a⟩ (applyOperator op x a) fun _ => op :: hand := by
  have hc : (a.tree.attach op x).construct op = .unary text none := Tree.construct_attach.trans hop
  unfold applyOperator
  rw [attach_bind, modifyTree_apply]
  dsimp only
  rw [hc]
  refine .act (.apply text hop) ⟨rfl, fun s => ?_, fun s => ?_⟩ ⟨.ok (.measure _ _), fun hr => ?_⟩
  case refine_3 =>
    obtain ⟨-, rfl⟩ := EStateM.Result.ok.inj hr
    exact ⟨rfl, fun _ => Tree.tag_setSpan, fun _ => by simp⟩
  all_goals
    simp only [Tree.tag_eq, Tree.construct_setConstruct, Tree.construct_attach]
    split
    case isTrue hs => rw [hs.1, hop]; rfl
    case isFalse => rfl

theorem gets_applyWaiting : ∀ (n : Nat) (x : Slot) (a : Assembly),
    Gets may ⟨x :: hand, held, a⟩ (applyWaiting n x a) (· :: hand)
  | 0, _, _ => .refl rfl
  | n + 1, x, a => by
    unfold applyWaiting
    rw [get_bind]
    cases hop : topOperand? a with
    | none => exact .refl rfl
    | some op =>
      dsimp only
      split
      case isFalse => exact .refl rfl
      case isTrue hw =>
        obtain ⟨hb, rest, hstaged⟩ := exists_of_topOperand? hop
        obtain ⟨text, hc⟩ := exists_of_isWaiting hw
        rw [set_bind, hstaged, tail_cons]
        refine .act (.take hb hstaged) ⟨rfl, fun _ => rfl, fun _ => rfl⟩
          (.act (.shuffle (.swap x op hand)) (.refl _) ?_)
        exact (gets_applyOperator (a := { a with staged := rest }) hc).bind fun _ b =>
          gets_applyWaiting n op b

theorem gets_popOperand (e : Event) (hand held : List Slot) (a : Assembly) :
    Gets may ⟨hand, held, a⟩ (popOperand e a) (· :: hand) :=
  (gets_popRaw e hand held a).bind fun s b => by
    rw [get_bind]
    exact gets_applyWaiting _ s b

theorem gets_popSingle (e : Event) (hand held : List Slot) (a : Assembly) :
    Gets may ⟨hand, held, a⟩ (popSingle e a) (· :: hand) :=
  (gets_popOperand e hand held a).bind fun s b => by
    unfold expectNoOperands
    rw [bind_assoc, get_bind]
    split
    · exact .fail
    · exact .refl rfl

theorem gets_popAll (e : Event) : ∀ (n : Nat) (later : List Slot) (a : Assembly),
    Gets may ⟨later ++ hand, held, a⟩ (popAll e n later a) (· ++ hand)
  | 0, _, _ => .refl rfl
  | n + 1, later, a => by
    unfold popAll
    rw [get_bind]
    split
    · exact (gets_popOperand e (later ++ hand) held a).bind fun s b => gets_popAll e n (s :: later) b
    · exact .refl rfl

theorem gets_popStatement (e : Event) (hand held : List Slot) (a : Assembly) :
    Gets may ⟨hand, held, a⟩ (popStatement e a) (· ++ hand) := by
  unfold popStatement
  rw [get_bind]
  exact gets_popAll e _ [] a

theorem proper_popRaw (e : Event) : Proper may hand (popRaw e) (· :: hand) := fun held a =>
  (gets_popRaw e hand held a).goes

theorem proper_popOperand (e : Event) : Proper may hand (popOperand e) (· :: hand) := fun held a =>
  (gets_popOperand e hand held a).goes

theorem proper_popOperands (e : Event) : ∀ (n : Nat) (later : List Slot),
    Proper may (later ++ hand) (popOperands e n later) (· ++ hand)
  | 0, _ => fun _ _ => .refl rfl
  | n + 1, later => (proper_popOperand e).bind fun s => proper_popOperands e n (s :: later)

/-! ## Expressions -/

theorem proper_onLeaf (e : Event) (h : c.Fits []) : Proper may hand (onLeaf e c) fun _ => hand :=
  (proper_leafSpan e).bind fun span _ _ => .act (.make c span [] h) (.ok .stage)

theorem proper_onBinary (e : Event) : Proper may hand (onBinary e) fun _ => hand := by
  refine .ite (fun _ _ => .fail) ((proper_popOperand e).bind fun right => (proper_popOperand e).bind fun left => ?_)
  intro held a
  rw [getTree_bind, newNode_bind, attach_bind, attach_bind, stage_apply]
  exact .act (.make (.binary e.literal left right) _ [left, right] ⟨by simp [Construct.operands], rfl, rfl, nofun⟩)
    (.ok .stage)

theorem proper_stageSuffixed (e : Event) (suffix : Suffix) (base : Slot) (operands : List Slot) :
    Proper may (base :: operands ++ hand) (stageSuffixed e suffix base operands) fun _ => hand := by
  intro held a
  unfold stageSuffixed
  rw [getTree_bind, newNode_bind, attach_bind, forM_attach_bind, stage_apply]
  exact .act (.make (.suffixed suffix base) _ (base :: operands) ⟨by simp [Construct.operands], rfl, rfl, nofun⟩)
    (.ok .stage)

theorem proper_onCall (e : Event) : Proper may hand (onCall e) fun _ => hand :=
  (proper_countOf e).bind fun n => (proper_popOperands e n []).bind fun operands =>
    (proper_popRaw e).bind fun base => proper_stageSuffixed e .call base operands

theorem proper_onIndex (e : Event) : Proper may hand (onIndex e) fun _ => hand :=
  (proper_popOperand e).bind fun operand => (proper_popRaw e).bind fun base =>
    proper_stageSuffixed e .index base [operand]

theorem proper_onSuffix (e : Event) (suffix? : Option Suffix) : Proper may hand (match suffix? with
    | none => invalidLiteral e
    | some suffix => popRaw e >>= fun base => stageSuffixed e suffix base []) fun _ => hand := by
  cases suffix? with
  | none => exact fun _ _ => .fail
  | some suffix => exact (proper_popRaw e).bind fun base => proper_stageSuffixed e suffix base []

theorem proper_onInitializerList (e : Event) : Proper may hand (onInitializerList e) fun _ => hand :=
  (proper_countOf e).bind fun n => (proper_popOperands e n []).bind fun members held a => by
    rw [getTree_bind, newNode_bind, forM_attach_bind, stage_apply]
    exact .act (.make .initializerList _ members ⟨by simp [Construct.operands], rfl, rfl, nofun⟩) (.ok .stage)

/-! ## Opening and closing -/

theorem proper_openScope (h : c.Fits []) : Proper may hand (openScope c) fun _ => hand := fun _ a =>
  .act (.make c ⟨a.lastEnd, a.lastEnd⟩ [] h) (.act .aside (.ok .enter))

theorem proper_expectTop (e : Event) (tag : Construct.Tag) : Proper may hand (expectTop e tag) fun _ => hand := by
  refine .reads fun a => ?_
  cases a.scopes with
  | nil => exact fun _ _ => .fail
  | cons frame frames => exact .ite (.pure _) fun _ _ => .fail

theorem expectTop_ok {tag : Construct.Tag} (h : expectTop e tag a = .ok s b) :
    b = a ∧ a.tree.tag s = tag ∧ ∃ frame frames, a.scopes = frame :: frames ∧ frame.slot = s := by
  unfold expectTop at h
  rw [get_bind] at h
  cases hs : a.scopes with
  | nil => simp [hs, fail, throw_apply] at h
  | cons frame frames =>
    rw [hs] at h
    dsimp only at h
    split at h
    case isTrue ht =>
      cases h
      exact ⟨rfl, ht, frame, frames, rfl, rfl⟩
    case isFalse => cases h

theorem expectNoOperands_ok {u : Unit} (h : expectNoOperands e a = .ok u b) :
    b = a ∧ a.hasOperands = false := by
  unfold expectNoOperands at h
  rw [get_bind] at h
  split at h
  case isTrue => cases h
  case isFalse ho =>
    obtain ⟨-, rfl⟩ := EStateM.Result.ok.inj h
    exact ⟨rfl, by simpa using ho⟩

/-- The assembly that is left when the innermost scope has closed at `stop`. -/
def left (a : Assembly) (frame : Frame) (frames : List Frame) (stop : Nat) : Assembly :=
  let tree := a.tree.attachAll frame.slot (a.staged.take (a.height - frame.base)).reverse
  { a with
    scopes := frames
    staged := a.staged.drop (a.height - frame.base)
    tree := tree.setSpan frame.slot ⟨(tree.span frame.slot).start, stop⟩
    lastEnd := stop
    statementBase := (a.staged.drop (a.height - frame.base)).length }

theorem unstage_bind_eq {β : Type} (base : Nat) (k : List Slot → Step β) : (unstage base >>= k) a =
    k (a.staged.take (a.height - base)).reverse { a with staged := a.staged.drop (a.height - base) } := rfl

theorem closeScope_eq {frame outer : Frame} {frames : List Frame} {stop : Nat} (hb : a.hasOperands = false)
    (hs : a.scopes = frame :: outer :: frames) (hle : frame.base ≤ a.height) :
    closeScope e stop a = .ok frame.slot (a.left frame (outer :: frames) stop) := by
  have h₁ : expectNoOperands { e with offset := stop } a = .ok () a := by
    unfold expectNoOperands
    rw [get_bind, hb]
    rfl
  unfold closeScope
  change EStateM.bind _ _ _ = _
  rw [EStateM.bind, h₁]
  dsimp only
  rw [get_bind, hs]
  dsimp only
  rw [set_bind, if_neg (Nat.not_lt.2 hle)]
  rw [unstage_bind_eq, forM_attach_bind]
  rfl

theorem goes_closeScope (e : Event) (stop : Nat) (hand held : List Slot) (a : Assembly) :
    Goes may ⟨hand, held, a⟩ (closeScope e stop a) fun s b => ⟨hand, s :: held, b⟩ := by
  unfold closeScope
  refine (proper_expectNoOperands _ held a).bind fun _ b h => ?_
  obtain ⟨rfl, hb⟩ := expectNoOperands_ok h
  rw [get_bind]
  rcases hs : b.scopes with - | ⟨frame, - | ⟨outer, frames⟩⟩
  case cons.cons =>
    dsimp only
    by_cases hle : frame.base ≤ b.height
    · rw [set_bind, if_neg (Nat.not_lt.2 hle), unstage_bind_eq, forM_attach_bind]
      exact .act (.leave hs hle) (.act (.measure frame.slot _) (.ok (.note rfl)))
    · rw [set_bind, if_pos (Nat.lt_of_not_le hle)]
      exact ⟨_, frame, .refl, by simp [hs], Nat.lt_of_not_le hle⟩
  all_goals exact .fail

/-- A scope that closes is staged before anything else is done. -/
theorem proper_closeScope {α : Type} {k : Slot → Step α} {after : α → List Slot} (e : Event) (stop : Nat)
    (hk : ∀ s, Proper may hand (k s) after) : Proper may hand (do
      let s ← closeScope e stop
      stageStatement s
      k s) after := fun held a =>
  (goes_closeScope e stop hand held a).bind fun s _ _ => .act .settle (hk s held _)

/-- What a construct becomes when it is closed: its redundant bodies dissolve and it is staged. -/
def stageClosed (e : Event) (tag : Construct.Tag) (s : Slot) : Step Unit := do
  modifyTree fun t => (t.absorb s).2
  stageStatement s
  report tag e.offset "close"

/-- The first part of closing a construct. -/
def closing (e : Event) (tag : Construct.Tag) : Step Slot := do
  let _ ← expectTop e tag
  if tag = .loop ∧ (← get).mode = .forHeader then unexpected e
  closeScope e e.offset

theorem closeConstruct_eq (e : Event) (tag : Construct.Tag) :
    closeConstruct e tag = closing e tag >>= stageClosed e tag := by
  simp only [closeConstruct, closing, bind_assoc]
  congr 1
  funext _
  congr 1
  funext a
  split
  · simp only [bind_assoc]
    rfl
  · rfl

theorem goes_closing (e : Event) (tag : Construct.Tag) (hand held : List Slot) (a : Assembly) :
    Goes may ⟨hand, held, a⟩ (closing e tag a) fun s b => ⟨hand, s :: held, b⟩ :=
  (proper_expectTop e tag held a).bind fun _ b _ => by
    rw [get_bind]
    split
    · exact .fail
    · exact goes_closeScope e e.offset hand held b

theorem goes_stageClosed (hm : may .fold) (e : Event) (tag : Construct.Tag) (s : Slot) (hand held : List Slot)
    (a : Assembly) : Goes may ⟨hand, s :: held, a⟩ (stageClosed e tag s a) fun _ b => ⟨hand, held, b⟩ :=
  .act (.absorb hm mem_cons_self) (.act .settle (proper_report tag e.offset "close" held _))

theorem proper_closeConstruct (hm : may .fold) (e : Event) (tag : Construct.Tag) :
    Proper may hand (closeConstruct e tag) fun _ => hand := by
  intro held a
  rw [closeConstruct_eq]
  exact (goes_closing e tag hand held a).bind fun s b _ => goes_stageClosed hm e tag s hand held b

theorem proper_closeLabel (e : Event) : Proper may hand (closeLabel e) fun _ => hand :=
  .reads fun a => proper_closeScope e a.lastEnd fun s => .pure s

theorem proper_closeOpenLabel (e : Event) : Proper may hand (closeOpenLabel e) fun _ => hand :=
  .reads fun _ => .ite ((proper_closeLabel e).bind fun _ => .pure ()) (.pure ())

theorem proper_onScopeStart (e : Event) : Proper may hand (onScopeStart e) fun _ => hand :=
  (proper_openScope (c := .scope true) ⟨nofun, rfl, rfl, nofun⟩).bind fun _ =>
    (proper_setLastEnd e.offset).bind fun _ =>
    proper_report .scope e.offset "open"

theorem proper_onScopeEnd (e : Event) : Proper may hand (onScopeEnd e) fun _ => hand :=
  (proper_closeOpenLabel e).bind fun _ => (proper_expectTop e .scope).bind fun _ => .readsTree fun _ =>
    .ite (proper_closeScope e e.offset fun _ => proper_report .scope e.offset "close") fun _ _ => .fail

theorem proper_onImplicitScopeStart : Proper may hand onImplicitScopeStart fun _ => hand :=
  (proper_openScope (c := .scope false) ⟨nofun, rfl, rfl, nofun⟩).bind fun _ => .pure ()

theorem proper_onImplicitScopeEnd (e : Event) : Proper may hand (onImplicitScopeEnd e) fun _ => hand :=
  (proper_expectTop e .scope).bind fun _ => .readsTree fun _ => .ite (fun _ _ => .fail) fun held a =>
    (goes_closeScope e e.offset hand held a).bind fun _ _ _ => .ok .settle

theorem proper_onLabel (e : Event) (text : String) : Proper may hand (onLabel e text) fun _ => hand := by
  have hopen : Proper may hand (do
      let _ ← openScope (.caseLabel text false)
      setLastEnd e.offset
      report .caseLabel e.offset s!"label `{text}`") fun _ => hand :=
    (proper_openScope (c := .caseLabel text false) ⟨nofun, rfl, rfl, nofun⟩).bind fun _ =>
      (proper_setLastEnd e.offset).bind fun _ =>
      proper_report .caseLabel e.offset _
  refine .reads fun _ => .ite ((proper_closeLabel e).bind fun previous held a => ?_) hopen
  rw [modifyTree_bind]
  split
  case h_1 text' through hc =>
    refine .act (.recast previous _ ?_ ?_ ?_ ?_ ?_) (hopen held _)
    · rw [Tree.tag_eq, hc]
      rfl
    all_goals simp [hc, Construct.params, Construct.group?, Construct.operands, Construct.parts]
  case h_2 => exact hopen held a

theorem proper_onCaseLabel (e : Event) : Proper may hand (onCaseLabel e) fun _ => hand :=
  .ite (fun _ _ => .fail) (proper_onLabel e e.literal)

/-! ## Headers -/

theorem acts_headed (hand held : List Slot) (a : Assembly) (c c' : Construct) (h : c.Fits [])
    (htag : c'.tag = c.tag) (hparams : c'.params = c.params) (hg : c'.group? = some (a.headSlot c))
    (ho : c'.operands = [a.headSlot c]) (hp : c'.parts = []) :
    Acts may ⟨hand, held, a⟩ ⟨hand, held, { a.headed c with
      tree := (a.headed c).tree.setConstruct ⟨a.tree.size⟩ c' }⟩ := by
  have hopen : Acts may ⟨hand, held, a⟩ ⟨hand, held, a.opened c⟩ :=
    (Relation.ReflTransGen.single (.make c ⟨a.lastEnd, a.lastEnd⟩ [] h)).tail .aside |>.tail .enter
  have hscopes : (a.opened c).scopes = ⟨⟨a.tree.size⟩, a.height⟩ :: a.scopes := rfl
  refine hopen.tail (.lead c' hscopes ?_ ?_ hg ho hp)
  · simp [opened, Tree.tag, Tree.node_push_self, htag, Node.tag]
  · simp [opened, Tree.construct, Tree.node_push_self, hparams]

theorem proper_onIfHeader (e : Event) : Proper may hand (onIfHeader e) fun _ => hand := fun held a =>
  .after (acts_headed hand held a (.branch none true) (.branch (some _) true) ⟨nofun, rfl, rfl, nofun⟩
    rfl rfl rfl rfl rfl) (proper_report .branch e.offset "open" held _)

theorem proper_onSwitchHeader (e : Event) : Proper may hand (onSwitchHeader e) fun _ => hand := fun held a =>
  .after (acts_headed hand held a (.switch none true) (.switch (some _) true) ⟨nofun, rfl, rfl, nofun⟩
    rfl rfl rfl rfl rfl) (proper_report .switch e.offset "open" held _)

theorem modifyLoop_bind {β : Type} {l : LoopParts} (change : LoopParts → LoopParts) (hc : a.tree.construct s = .loop l)
    (k : Unit → Step β) :
    (modifyLoop s change >>= k) a = k () { a with tree := a.tree.setConstruct s (.loop (change l)) } := by
  change EStateM.bind _ _ _ = _
  rw [EStateM.bind, modifyLoop_apply change hc]

theorem proper_openLoop (e : Event) (form : LoopForm) : Proper may hand (openLoop e form) fun _ => hand := by
  have hfits : (Construct.loop { form, braced := true }).Fits [] := ⟨nofun, rfl, rfl, nofun⟩
  intro held a
  unfold openLoop
  rw [openScope_bind]
  split
  · have hc : (a.headed (.loop { form, braced := true })).tree.construct ⟨a.tree.size⟩ =
        .loop { form, braced := true } := by
      simp [headed, headSlot, opened, Tree.construct_push]
    rw [newGroup_bind, modifyLoop_bind _ hc]
    exact .after
      (acts_headed hand held a _ (.loop { form, group? := some _, braced := true }) hfits rfl rfl rfl rfl rfl)
      (proper_report .loop e.offset "open" held _)
  · exact .act (.make _ ⟨a.lastEnd, a.lastEnd⟩ [] hfits)
      (.act .aside (.act .enter (proper_report .loop e.offset "open" held _)))

theorem proper_onForHeader (e : Event) : Proper may hand (onForHeader e) fun _ => hand :=
  (proper_openLoop e .forLoop).bind fun _ => proper_modify fun _ => rfl

theorem proper_onDoHeader (e : Event) : Proper may hand (onDoHeader e) fun _ => hand :=
  (proper_openLoop e .doLoop).bind fun _ => proper_setLastEnd e.offset

theorem getOrUnexpected_bind {α β : Type} (v : α) (k : α → Step β) : (getOrUnexpected e (some v) >>= k) a = k v a := rfl

theorem attachToGroup_bind {β : Type} (k : Unit → Step β) : (attachToGroup g x >>= k) a = k ()
    { a with
      tree := (a.tree.attach g x).setSpan g (((a.tree.attach g x).span g).merge ((a.tree.attach g x).span x)) } := rfl

theorem acts_attachToGroup (hm : may .fill) (hg : (a.tree.construct s).group? = some g) :
    Goes may ⟨x :: hand, held, a⟩ (attachToGroup g x a) fun _ b => ⟨hand, held, b⟩ :=
  .act (.adopt hm hg) (.ok (.measure g _))

theorem attachToGroup_ok {u : Unit} (h : attachToGroup g x a = .ok u a') :
    a'.tree.size = a.tree.size ∧ (∀ v, a'.tree.construct v = a.tree.construct v) ∧
      (g.index < a.tree.size → a'.tree.children g = a.tree.children g ++ [x]) := by
  obtain ⟨-, rfl⟩ := EStateM.Result.ok.inj h
  exact ⟨by simp [Tree.size_attach], fun v => by simp, fun hg => by simp [Tree.children_attach hg]⟩

theorem goes_forM_attachToGroup (hm : may .fill) : ∀ (ss : List Slot) (a : Assembly),
    (a.tree.construct s).group? = some g →
      Goes may ⟨ss ++ hand, held, a⟩ (ss.forM (attachToGroup g) a) fun _ b => ⟨hand, held, b⟩
  | [], _, _ => .refl rfl
  | x :: ss, a, hg => by
    change Goes may _ ((attachToGroup g x >>= fun _ => ss.forM (attachToGroup g)) a) _
    refine (acts_attachToGroup hm hg).bind fun _ b hb => goes_forM_attachToGroup hm ss b ?_
    rw [(attachToGroup_ok hb).2.1, hg]

theorem forM_attachToGroup_ok : ∀ {ss : List Slot} {a : Assembly} {u : Unit}, ss.forM (attachToGroup g) a = .ok u a' →
    a'.tree.size = a.tree.size ∧ (∀ v, a'.tree.construct v = a.tree.construct v) ∧
      (g.index < a.tree.size → a'.tree.children g = a.tree.children g ++ ss)
  | [], _, _, h => by
    obtain ⟨-, rfl⟩ := EStateM.Result.ok.inj h
    simp
  | x :: ss, a, u, h => by
    change (attachToGroup g x >>= fun _ => ss.forM (attachToGroup g)) a = _ at h
    obtain ⟨_, b, hb, h⟩ := bind_ok.1 h
    obtain ⟨hs, hc, hch⟩ := attachToGroup_ok hb
    obtain ⟨hs', hc', hch'⟩ := forM_attachToGroup_ok h
    exact ⟨hs'.trans hs, fun v => (hc' v).trans (hc v), fun hg => by rw [hch' (hs ▸ hg), hch hg]; simp⟩

theorem goes_modifyLoop {change : LoopParts → LoopParts} (hg : (a.tree.construct s).group? = some g)
    (hkeep : ∀ l, (change l).group? = l.group?)
    (hparts : ∀ l, ∀ x ∈ (Construct.loop (change l)).parts, x ∈ (Construct.loop l).parts ∨
      (g.index < a.tree.size → x ∈ a.tree.children g)) :
    Goes may ⟨hand, held, a⟩ (modifyLoop s change a) fun _ b => ⟨hand, held, b⟩ := by
  unfold modifyLoop
  rw [modifyTree_apply]
  split
  case h_1 l hc =>
    refine .ok (.recast s _ ?_ ?_ ?_ ?_ fun x hx => ?_)
    · rw [Tree.tag_eq, hc]
      rfl
    · rw [hc]
      rfl
    · rw [hc]
      exact hkeep l
    · rw [hc]
      exact congrArg Option.toList (hkeep l)
    · rw [hc]
      refine (hparts l x hx).imp_right fun h => ⟨g, ?_, h⟩
      rw [← hg, hc]
  case h_2 => exact .refl rfl

theorem proper_onCondition (hm : may .fill) (e : Event) (tag : Construct.Tag) :
    Proper may hand (onCondition e tag) fun _ => hand := by
  intro held a
  refine (proper_expectTop e tag held a).bind fun s b _ => (gets_popSingle e hand held b).goes.bind fun x c _ => ?_
  rw [getTree_bind, group?_eq]
  cases hg : (c.tree.construct s).group? with
  | none => exact .fail
  | some g =>
    rw [getOrUnexpected_bind]
    refine (acts_attachToGroup hm hg).bind fun _ d hd => ?_
    obtain ⟨hsize, hc, hch⟩ := attachToGroup_ok hd
    refine (goes_modifyLoop (g := g) ?_ ?_ fun l u hu => ?_).bind fun _ d _ => proper_setLastEnd e.offset held d
    · rw [hc, hg]
    · exact fun _ => rfl
    · have hu : u ∈ l.init?.toList ∨ u = x ∨ u ∈ l.change?.toList := by simpa [Construct.parts] using hu
      rcases hu with hu | rfl | hu
      · exact .inl (by simp [Construct.parts, hu])
      · exact .inr fun hlt => by simp [hch (hsize ▸ hlt)]
      · exact .inl (by simp [Construct.parts, hu])

theorem proper_onDoCondition (hm : may .trail) (e : Event) : Proper may hand (onDoCondition e) fun _ => hand := by
  intro held a
  refine (proper_expectTop e .loop held a).bind fun s b hb => (gets_popSingle e hand held b).goes.bind fun x c hc => ?_
  obtain ⟨rfl, htag, frame, frames, hs, rfl⟩ := expectTop_ok hb
  have hfixed := (gets_popSingle e hand held b : Gets may _ _ _).fixed hc
  obtain ⟨l, hl⟩ : ∃ l, c.tree.construct frame.slot = .loop l :=
    Construct.exists_loop ((hfixed.tag frame.slot).trans htag)
  have hs' : c.scopes = frame :: frames := hfixed.scopes.trans hs
  rw [newNode_bind, attachToGroup_bind, modifyLoop_bind _ (l := l)]
  · exact .act (.trail hm _ hs' hl) (.ok (.note rfl))
  · have hlt : frame.slot ≠ ⟨c.tree.size⟩ := by
      intro h
      have := Tree.lt_size_of_tag (t := c.tree) (s := frame.slot) (by rw [Tree.tag_eq, hl]; exact nofun)
      simp [h] at this
    simp [Tree.construct_push, hlt, hl]

theorem proper_onForPart (hm : may .fill) (e : Event) (record : Option Slot → LoopParts → LoopParts)
    (isLast : Bool) (hkeep : ∀ x? l, (record x? l).group? = l.group?)
    (hparts : ∀ x? l, ∀ x ∈ (Construct.loop (record x? l)).parts, x ∈ (Construct.loop l).parts ∨ x? = some x) :
    Proper may hand (onForPart e record isLast) fun _ => hand := by
  intro held a
  unfold onForPart
  rw [get_bind]
  split
  case isFalse => exact .fail
  case isTrue =>
    refine (proper_expectTop e .loop held a).bind fun s b _ => ?_
    rw [getTree_bind, group?_eq]
    cases hg : (b.tree.construct s).group? with
    | none => exact .fail
    | some g =>
      rw [getOrUnexpected_bind]
      refine (gets_popStatement e hand held b).goes.bind fun ss c hc => ?_
      have hfixed := (gets_popStatement e hand held b : Gets may _ _ _).fixed hc
      have hg' : (c.tree.construct s).group? = some g := (hfixed.group s).trans hg
      refine (goes_forM_attachToGroup hm ss c hg').bind fun _ d hd => ?_
      obtain ⟨hsize, hcs, hch⟩ := forM_attachToGroup_ok hd
      refine (goes_modifyLoop (g := g) ?_ (hkeep _) fun l u hu => ?_).bind fun _ f _ => ?_
      · rw [hcs, hg']
      · refine (hparts _ l u hu).imp_right fun hu hlt => ?_
        rw [hch (hsize ▸ hlt)]
        exact mem_append_right _ (mem_of_mem_head? hu)
      · rw [modify_bind, finishStatement_bind]
        refine .act .finish ?_
        split
        · rw [modify_bind]
          exact .note (proper_setLastEnd e.offset held _) rfl
        · exact .ok (.note rfl)

theorem proper_onElse (e : Event) : Proper may hand (onElse e) fun _ => hand :=
  (proper_expectTop e .branch).bind fun _ => proper_setLastEnd e.offset

theorem proper_onSwitchEnd (hm : may .fold) (e : Event) : Proper may hand (onSwitchEnd e) fun _ => hand :=
  (proper_closeOpenLabel e).bind fun _ => proper_closeConstruct hm e .switch

/-! ## Declarators -/

theorem proper_onFragment (e : Event) (kind : FragmentKind) : Proper may hand (onFragment e kind) fun _ => hand :=
  (proper_leafSpan e).bind fun _ => proper_pushFragment _

theorem proper_onTagKeyword (e : Event) : Proper may hand (onTagKeyword e) fun _ => hand :=
  (proper_leafSpan e).bind fun _ => proper_modify fun _ => rfl

theorem proper_onTypeWord (e : Event) : Proper may hand (onTypeWord e) fun _ => hand := by
  refine (proper_leafSpan e).bind fun span held a => ?_
  rw [get_bind]
  split
  · rw [set_bind]
    cases a.waitingTag? with
    | none => exact .note .fail rfl
    | some keyword => exact .note (proper_pushFragment _ held _) rfl
  · exact proper_pushFragment _ held a

theorem proper_onDeclaratorName (e : Event) : Proper may hand (onDeclaratorName e) fun _ => hand := by
  have hend (type : String) (isReference : Bool) (entry : Log.Entry) (span : Span) : Proper may hand (do
      if isReference then write entry
      stage (← newNode (.declaration type e.literal isReference) span)) fun _ => hand := by
    have hnew : Proper may hand (do stage (← newNode (.declaration type e.literal isReference) span)) fun _ => hand :=
      fun _ _ => .act (.make (.declaration ..) span [] ⟨nofun, rfl, rfl, nofun⟩) (.ok .stage)
    exact .ite (.bind (x := write entry) (proper_modify fun _ => rfl) fun _ => hnew) hnew
  refine (proper_leafSpan e).bind fun span held a => ?_
  rw [get_bind, modify_bind]
  cases typeText? a.fragments with
  | some type => exact .note (hend _ _ _ _ held _) rfl
  | none =>
    dsimp only
    rw [get_bind]
    cases a.sharedType? with
    | some type => exact .note (hend _ _ _ _ held _) rfl
    | none => exact .note .fail rfl

theorem proper_onArraySuffix (e : Event) : Proper may hand (onArraySuffix e) fun _ => hand := by
  intro held a
  unfold onArraySuffix
  rw [get_bind]
  cases topOperand? a with
  | none => exact .fail
  | some s =>
    dsimp only
    cases hc : a.tree.construct s with
    | declaration type name isReference =>
      refine .act (.recast s (.declaration (type ++ e.literal) name isReference) ?_ ?_ ?_ ?_ ?_) (.ok (.measure s _))
      · rw [Tree.tag_eq, hc]
        rfl
      all_goals simp [hc, Construct.params, Construct.group?, Construct.operands, Construct.parts]
    | _ => exact .fail

/-- The operands of the current statement are taken one after the other. -/
theorem acts_take : ∀ (n : Nat) (hand : List Slot) (a : Assembly), a.statementBase + n ≤ a.height →
    Acts may ⟨hand, held, a⟩ ⟨(a.staged.take n).reverse ++ hand, held, { a with staged := a.staged.drop n }⟩
  | 0, _, _, _ => by simpa using Relation.ReflTransGen.refl
  | n + 1, hand, a, h => by
    cases hs : a.staged with
    | nil => simp [height, hs] at h
    | cons s rest =>
      have hn : a.statementBase + n ≤ ({ a with staged := rest } : Assembly).height := by
        simp only [height, hs, length_cons] at h ⊢
        omega
      have hacts := acts_take n (s :: hand) { a with staged := rest } hn
      simpa using Relation.ReflTransGen.head (.take (by omega) hs) hacts

theorem goes_forM_param {frame : Frame} {frames : List Frame} : ∀ (ps : List Slot) (a : Assembly),
    a.scopes = frame :: frames → (∀ p ∈ ps, p ∈ (a.tree.construct frame.slot).params) →
      Goes may ⟨ps ++ hand, held, a⟩
        (ps.forM (fun p => modifyTree (·.modify p ({ · with parent? := some frame.slot }))) a)
        fun _ b => ⟨hand, held, b⟩
  | [], _, _, _ => .refl rfl
  | p :: ps, a, hs, hp => by
    refine .act (.param hs (hp p mem_cons_self)) (goes_forM_param ps _ hs fun q hq => ?_)
    have hc : (a.tree.modify p ({ · with parent? := some frame.slot })).construct frame.slot =
        a.tree.construct frame.slot := by
      rw [Tree.construct, Tree.node_modify]
      split <;> rfl
    rw [hc]
    exact hp q (mem_cons_of_mem _ hq)

theorem goes_openFunction (e : Event) (note : String) (form : FunctionForm) (hand held : List Slot) (a : Assembly) :
    Goes may ⟨form.params ++ hand, held, a⟩ ((do
      let s ← openScope (.function form)
      form.params.forM fun p => modifyTree (·.modify p ({ · with parent? := some s }))
      setLastEnd e.offset
      report .function e.offset note) a) fun _ b => ⟨hand, held, b⟩ := by
  have hopen : Acts may ⟨form.params ++ hand, held, a⟩ ⟨form.params ++ hand, held, a.opened (.function form)⟩ :=
    (Relation.ReflTransGen.single (.make (.function form) ⟨a.lastEnd, a.lastEnd⟩ [] ⟨nofun, rfl, rfl, nofun⟩))
      |>.tail .aside
      |>.tail .enter
  rw [openScope_bind]
  refine .after hopen ((goes_forM_param form.params (a.opened (.function form)) rfl fun p hp => ?_).bind fun _ b _ =>
    ((proper_setLastEnd e.offset).bind fun _ => proper_report .function e.offset note) held b)
  simpa [opened, Tree.construct_push, Construct.params] using hp

theorem proper_onFunctionHeader (e : Event) : Proper may hand (onFunctionHeader e) fun _ => hand := by
  intro held a
  unfold onFunctionHeader
  rw [get_bind]
  split
  case isFalse => exact .fail
  case isTrue ho =>
    have hlt : a.statementBase < a.height := of_decide_eq_true ho
    dsimp only
    rw [unstage_bind_eq]
    refine .after (acts_take (a.height - a.statementBase) hand a (by omega)) ?_
    generalize (a.staged.take (a.height - a.statementBase)).reverse = declarations
    split
    · exact .fail
    · rcases declarations with - | ⟨first, params⟩
      · exact .fail
      · have hmap : (params.map fun s => (s, a.tree.construct s)).map Prod.fst = params := by
          rw [map_map]
          exact map_id params
        rw [map_cons]
        cases a.tree.construct first with
        | declaration type name isReference =>
          dsimp only
          rw [modify_bind, hmap]
          exact .act .spare
            (.note (goes_openFunction e _ { name, returnType := type, params, braced := true } hand held _) rfl)
        | _ => exact .fail

/-! ## Statements -/

theorem acts_tile (stop : Nat) : ∀ (ss : List Slot) (start : Nat) (a : Assembly),
    Acts may ⟨hand, held, a⟩ ⟨hand, held, { a with tree := tile a.tree start stop ss }⟩
  | [], _, _ => .refl
  | [s], _, _ => .single (.measure s _)
  | s :: u :: rest, _, _ => .head (.measure s _) (acts_tile stop (u :: rest) _ _)

theorem acts_stageAll : ∀ (ss : List Slot) (a : Assembly),
    Acts may ⟨ss ++ hand, held, a⟩ ⟨hand, held, { a with staged := ss.reverse ++ a.staged }⟩
  | [], _ => .refl
  | s :: ss, a => by
    have h := acts_stageAll ss { a with staged := s :: a.staged }
    simpa using Relation.ReflTransGen.head .stage h

theorem proper_onStatementEnd (e : Event) : Proper may hand (onStatementEnd e) fun _ => hand := fun held a =>
  (gets_popStatement e hand held a).goes.bind fun nodes b _ => by
    split
    · exact .fail
    · dsimp only
      rw [get_bind, modifyTree_bind, forM_stage_bind, setLastEnd_bind, finishStatement_bind]
      refine .after (acts_tile e.offset nodes b.lastEnd b) (.after (acts_stageAll nodes _) ?_)
      exact .act .finish (.ok (.note rfl))

theorem proper_stageNew (e : Event) (c : Construct) (cs : List Slot) (h : c.Fits cs) :
    Proper may (cs ++ hand) (stageNew e c cs) fun _ => hand := by
  intro held a
  unfold stageNew
  rw [get_bind, newNode_bind, forM_attach_bind, stageStatement_bind]
  exact .act (.make c _ cs h) (.act .aside (.act .settle (proper_setLastEnd e.offset held _)))

theorem proper_onEmptyStatement (e : Event) : Proper may hand (onEmptyStatement e) fun _ => hand :=
  (proper_expectNoOperands e).bind fun _ => proper_stageNew e .emptyStatement [] ⟨nofun, rfl, rfl, nofun⟩

theorem proper_onReturn (e : Event) : Proper may hand (onReturn e) fun _ => hand := by
  have hpop : Proper may hand (popSingle e) (· :: hand) := fun held a => (gets_popSingle e hand held a).goes
  refine .reads fun _ => .ite (hpop.bind fun x => ?_) ?_
  · exact (proper_stageNew e (.returned (some x)) [x] ⟨by simp [Construct.operands], rfl, rfl, nofun⟩).bind fun _ =>
      proper_report .returned e.offset _
  · exact (proper_stageNew e (.returned none) [] ⟨nofun, rfl, rfl, nofun⟩).bind fun _ =>
      proper_report .returned e.offset _

theorem proper_onJump (e : Event) : Proper may hand (onJump e) fun _ => hand := by
  unfold onJump
  cases Jump.ofKeyword? e.literal with
  | none => exact fun _ _ => .fail
  | some j =>
    exact (proper_expectNoOperands e).bind fun _ =>
      (proper_stageNew e (.jump j) [] ⟨nofun, rfl, rfl, nofun⟩).bind fun _ => proper_report .jump e.offset _

theorem proper_onDeferHeader (e : Event) : Proper may hand (onDeferHeader e) fun _ => hand :=
  (proper_expectNoOperands e).bind fun _ _ a =>
    .act (.make .deferred ⟨a.lastEnd, a.lastEnd⟩ [] ⟨nofun, rfl, rfl, nofun⟩)
      (.act .aside (.act .wait (.ok (.note rfl))))

theorem proper_onUnitEnd (e : Event) : Proper may hand (onUnitEnd e) fun _ => hand := by
  intro held a
  unfold onUnitEnd
  rw [get_bind]
  split
  case isFalse => exact .fail
  case isTrue hs =>
    split
    case isFalse => exact .fail
    case isTrue =>
      have htake : (a.staged.take (a.height - 0)).reverse = a.staged.reverse := by simp [height]
      have hdrop : a.staged.drop (a.height - 0) = [] := by simp [height]
      dsimp only
      rw [unstage_bind_eq, htake, hdrop, forM_attach_bind]
      exact .act (.complete hs) (.act (.measure .root _)
        (.note (proper_report .unit e.offset "complete" held _) rfl))

/-! ## Events -/

/-- The special acts that an event asks for. -/
def specials : Event.Kind → Special → Prop
  | .functionEnd, s | .ifEnd, s | .loopEnd, s | .switchEnd, s => s = .fold
  | .ifCondition, s | .whileCondition, s | .switchCondition, s => s = .fill
  | .forInit, s | .forCondition, s | .forChange, s => s = .fill
  | .doWhileCondition, s => s = .trail
  | _, _ => False

/-- The step of every event but the operation of a deferred statement is a sequence of acts. -/
theorem proper_dispatch (hk : e.kind ≠ .deferred) (hand : List Slot) :
    Proper (specials e.kind) hand (dispatch e) fun _ => hand := by
  unfold dispatch
  cases hkind : e.kind with
  | deferred => exact absurd hkind hk
  | typeWord => exact proper_onTypeWord e
  | tagKeyword => exact proper_onTagKeyword e
  | pointer | reference => exact proper_onFragment e _
  | declaratorName => exact proper_onDeclaratorName e
  | arraySuffix => exact proper_onArraySuffix e
  | functionHeader => exact proper_onFunctionHeader e
  | functionEnd | ifEnd | loopEnd => exact proper_closeConstruct (by exact rfl) e _
  | scopeStart => exact proper_onScopeStart e
  | scopeEnd => exact proper_onScopeEnd e
  | implicitScopeStart => exact proper_onImplicitScopeStart
  | implicitScopeEnd => exact proper_onImplicitScopeEnd e
  | ifHeader => exact proper_onIfHeader e
  | ifCondition | whileCondition | switchCondition => exact proper_onCondition (by exact rfl) e _
  | elseMark => exact proper_onElse e
  | forHeader => exact proper_onForHeader e
  | forInit | forCondition | forChange =>
    refine proper_onForPart (by exact rfl) e _ _ (fun _ _ => rfl) fun _ _ x hx => ?_
    rw [Construct.mem_parts] at hx ⊢
    tauto
  | whileHeader => exact proper_openLoop e .whileLoop
  | doHeader => exact proper_onDoHeader e
  | doWhileCondition => exact proper_onDoCondition (by exact rfl) e
  | switchHeader => exact proper_onSwitchHeader e
  | caseLabel => exact proper_onCaseLabel e
  | defaultLabel => exact proper_onLabel e "default"
  | switchEnd => exact proper_onSwitchEnd (by exact rfl) e
  | statementEnd => exact proper_onStatementEnd e
  | emptyStatement => exact proper_onEmptyStatement e
  | returned => exact proper_onReturn e
  | jump => exact proper_onJump e
  | deferHeader => exact proper_onDeferHeader e
  | identifier | constant | unaryOperator => exact proper_onLeaf e ⟨nofun, rfl, rfl, nofun⟩
  | assignment | relational | binaryOperator => exact proper_onBinary e
  | postfixCall => exact proper_onCall e
  | postfixIndex => exact proper_onIndex e
  | postfixMember => exact proper_onSuffix e (member? e.literal)
  | postfixIncrement => exact proper_onSuffix e (increment? e.literal)
  | initializerList => exact proper_onInitializerList e
  | unitEnd => exact proper_onUnitEnd e

/-- The assembly when the innermost deferred statement gets its operation: what was staged since its header counts as
operands again. -/
def resumed (a : Assembly) (waiting : Frame) (rest : List Frame) : Assembly :=
  { a with waitingDefers := rest, modes := a.modes.tail, statementBase := waiting.base }

/-- The operation of a deferred statement: turned down at once, or the deferred statement is taken up again and the rest
is a sequence of acts without special ones. Nothing at all is left to take where the stage is not above its base. -/
theorem onDeferred_cases (e : Event) (a : Assembly) :
    (∃ f, onDeferred e a = .error (.fault f) a) ∨ ∃ waiting rest, a.waitingDefers = waiting :: rest ∧
      Goes (fun _ => False) ⟨[], [waiting.slot], a.resumed waiting rest⟩ (onDeferred e a) (fun _ b => ⟨[], [], b⟩) ∧
      (a.height ≤ waiting.base → ∃ f b, onDeferred e a = .error (.fault f) b) := by
  unfold onDeferred
  rw [get_bind]
  split
  case isFalse => exact .inl ⟨_, rfl⟩
  case isTrue =>
    cases hw : a.waitingDefers with
    | nil => exact .inl ⟨_, rfl⟩
    | cons waiting rest =>
      refine .inr ⟨waiting, rest, rfl, ?_, fun hle => ?_⟩
      · dsimp only
        rw [set_bind]
        refine (gets_popSingle e [] [waiting.slot] (a.resumed waiting rest)).goes.bind fun x b _ => ?_
        rw [attach_bind, modifyTree_bind, stageStatement_bind, setLastEnd_bind]
        exact .act .give (.act (.measure waiting.slot _) (.act .settle
          (.note (proper_report .deferred e.offset _ [] _) rfl)))
      · have hnone : topOperand? (a.resumed waiting rest) = none := by
          have hno : (a.resumed waiting rest).hasOperands = false := decide_eq_false (Nat.not_lt.2 hle)
          rw [topOperand?, hno]
          rfl
        have hpop : popSingle e (a.resumed waiting rest) =
            .error (.fault (.missingOperand e.kind e.offset)) (a.resumed waiting rest) := by
          change EStateM.bind (EStateM.bind (popRaw e) _) _ _ = _
          have hraw : popRaw e (a.resumed waiting rest) =
              .error (.fault (.missingOperand e.kind e.offset)) (a.resumed waiting rest) := by
            unfold popRaw
            rw [get_bind, hnone]
            rfl
          rw [EStateM.bind, EStateM.bind, hraw]
        refine ⟨.missingOperand e.kind e.offset, a.resumed waiting rest, ?_⟩
        dsimp only
        rw [set_bind]
        change EStateM.bind (popSingle e) _ (a.resumed waiting rest) = _
        rw [EStateM.bind, hpop]

end Assembly

end Deferral
