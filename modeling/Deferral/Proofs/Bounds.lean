import Deferral.Assembly.Calls
import Deferral.Proofs.Acts

/-!
# Scopes and the height of the stage

A scope that closes takes what was staged above its base, so its base has to be on the stage. It is, as long as a
deferred statement gets its operation only when no scope opened after its header reaches above that header
(`answered_of_balanced`). Otherwise completing the deferred statement takes away what an open scope stands on.
-/

namespace Deferral.Assembly

open List

variable {may : Special → Prop} {a : Assembly} {w w' : Work} {n m : Nat} {frames : List Frame} {e : Event}

/-! ## Bases of open scopes -/

/-- The bases of open scopes, innermost first, are at most `top` and do not rise outward. -/
def Nested : (top : Nat) → List Frame → Prop
  | _, [] => True
  | top, frame :: frames => frame.base ≤ top ∧ Nested frame.base frames

theorem Nested.base_le : ∀ {frames : List Frame} {n : Nat}, Nested n frames → ∀ frame ∈ frames, frame.base ≤ n
  | [], _, _, _, hm => by simp at hm
  | frame :: frames, n, h, other, hm => by
    rcases mem_cons.1 hm with rfl | hm
    · exact h.1
    · exact (base_le h.2 other hm).trans h.1

theorem Nested.mono (h : Nested n frames) (hle : n ≤ m) : Nested m frames := by
  cases frames with
  | nil => trivial
  | cons frame frames => exact ⟨h.1.trans hle, h.2⟩

/-- The open scopes stand on the stage, and so does the current statement. -/
structure Bounded (a : Assembly) : Prop where
  scopes : Nested a.statementBase a.scopes
  base : a.statementBase ≤ a.height
  /-- Everything is above the base of the source file. -/
  bottom : ∃ s, a.scopes.getLast? = some ⟨s, 0⟩

theorem bounded_start (path : Path) : Bounded (start path) :=
  ⟨⟨le_rfl, trivial⟩, le_rfl, .root, rfl⟩

theorem Act.based (h : Act may w w') (hle : w.assembly.statementBase ≤ w.assembly.height) :
    w'.assembly.statementBase ≤ w'.assembly.height := by
  cases h with
  | note h =>
    obtain ⟨-, hstaged, -, hbase, -⟩ := core_eq h
    rwa [hbase, height, hstaged]
  | take hb hstaged =>
    simp only [height, hstaged, length_cons] at hb ⊢
    omega
  | stage => exact Nat.le_succ_of_le hle
  | settle | finish | trail | enter | leave | complete => exact le_rfl
  | _ => exact hle

theorem Acts.based (h : Acts may w w') (hle : w.assembly.statementBase ≤ w.assembly.height) :
    w'.assembly.statementBase ≤ w'.assembly.height := by
  induction h with
  | refl => exact hle
  | tail _ hact ih => exact hact.based ih

theorem Act.bounded (h : Act may w w') (hb : w.assembly.Bounded) : w'.assembly.Bounded := by
  have hbased := h.based hb.base
  obtain ⟨hs, hle, hbot⟩ := hb
  cases h with
  | note h =>
    obtain ⟨-, -, hscopes, hbase, -⟩ := core_eq h
    exact ⟨by rwa [hscopes, hbase], hbased, by rwa [hscopes]⟩
  | settle | trail => exact ⟨hs.mono (Nat.le_succ_of_le hle), hbased, hbot⟩
  | finish => exact ⟨hs.mono hle, hbased, hbot⟩
  | enter =>
    obtain ⟨s, hs'⟩ := hbot
    exact ⟨⟨le_rfl, hs.mono hle⟩, hbased, s, by rw [getLast?_cons, hs']; rfl⟩
  | @leave a _ _ frame outer frames hscopes hbase =>
    have hlen : (a.staged.drop (a.height - frame.base)).length = frame.base := by
      rw [length_drop, ← height]
      omega
    rw [hscopes] at hs hbot
    refine ⟨?_, hbased, by simpa using hbot⟩
    dsimp only
    rw [hlen]
    exact hs.2
  | @complete a _ _ hone =>
    obtain ⟨frame, hframe⟩ := length_eq_one_iff.1 hone
    obtain ⟨s, hs'⟩ := hbot
    rw [hframe] at hs'
    obtain rfl : frame = ⟨s, 0⟩ := by simpa using hs'
    exact ⟨by dsimp only; rw [hframe]; exact ⟨Nat.le_refl 0, trivial⟩, hbased, s, by dsimp only; rw [hframe]; rfl⟩
  | _ => exact ⟨hs, hbased, hbot⟩

theorem Acts.bounded (h : Acts may w w') (hb : w.assembly.Bounded) : w'.assembly.Bounded := by
  induction h with
  | refl => exact hb
  | tail _ hact ih => exact hact.bounded ih

/-- A step that starts with all bases on the stage keeps them there and does not run out of range. -/
theorem Goes.bounded {after : Unit → Assembly → Work} {r : EStateM.Result Halt Assembly Unit}
    (h : Goes may w r after) (hb : w.assembly.Bounded) :
    (∃ u b, r = .ok u b ∧ (after u b).assembly.Bounded) ∨ ∃ f b, r = .error (.fault f) b := by
  match r with
  | .ok u b => exact .inl ⟨u, b, rfl, Acts.bounded h hb⟩
  | .error (.fault f) b => exact .inr ⟨f, b, rfl⟩
  | .error (.outOfRange _ _) b =>
    obtain ⟨w', frame, hacts, hframe, hlt⟩ := h
    have hb' := hacts.bounded hb
    obtain ⟨frames, hscopes⟩ := head?_eq_some_iff.1 hframe
    have hle := hb'.scopes
    rw [hscopes] at hle
    exact absurd hlt (Nat.not_lt.2 (hle.1.trans hb'.base))

/-! ## Calls -/

/-- What is left after a sequence of calls. -/
def after (a : Assembly) : List Call → Assembly
  | [] => a
  | c :: calls => after (a.call c).1 calls

/-- The answers to a sequence of calls. -/
def answers (a : Assembly) : List Call → List (Option Halt)
  | [] => []
  | c :: calls => (a.call c).2 :: answers (a.call c).1 calls

/-- Whether the innermost deferred statement can be completed: the innermost open scope has its base at or below the
height of the stage before the header of that statement. -/
def completable (a : Assembly) : Bool :=
  match a.waitingDefers, a.scopes with
  | waiting :: _, frame :: _ => frame.base ≤ waiting.base
  | _, _ => true

/-- Whether deferred statements are completed only where they can be. After a fault nothing is looked at any more. -/
def balanced (a : Assembly) : List Call → Bool
  | [] => true
  | .event e :: calls => (a.failure?.isSome || e.kind != .deferred || a.completable) &&
      balanced (a.call (.event e)).1 calls
  | c :: calls => balanced (a.call c).1 calls

theorem Bounded.onDeferred (hb : a.Bounded) (hc : a.completable = true) :
    (∃ u b, onDeferred e a = .ok u b ∧ b.Bounded) ∨ ∃ f b, onDeferred e a = .error (.fault f) b := by
  rcases onDeferred_cases e a with ⟨f, h⟩ | ⟨waiting, rest, hw, hgoes, hlow⟩
  · exact .inr ⟨f, a, h⟩
  · rcases Nat.lt_or_ge waiting.base a.height with hlt | hle
    · refine hgoes.bounded ⟨?_, hlt.le, hb.bottom⟩
      have hs := hb.scopes
      simp only [completable, hw] at hc
      change Nested waiting.base a.scopes
      cases hscopes : a.scopes with
      | nil => trivial
      | cons frame frames =>
        rw [hscopes] at hc hs
        exact ⟨of_decide_eq_true hc, hs.2⟩
    · exact .inr (hlow hle)

theorem Bounded.call (c : Call) (hb : a.failure? = none → a.Bounded)
    (hc : ∀ e, c = .event e → a.failure? = none → e.kind = .deferred → a.completable = true) :
    ((a.call c).1.failure? = none → (a.call c).1.Bounded) ∧
      ∀ halt, (a.call c).2 = some halt → ∃ f, halt = .fault f := by
  cases c with
  | startUnit path | take =>
    refine ⟨fun _ => ⟨⟨Nat.le_refl 0, trivial⟩, Nat.le_refl 0, .root, rfl⟩, fun halt h => ?_⟩
    cases h
  | event e =>
    have hcases : a.failure? = none → (∃ u b, dispatch e a = .ok u b ∧ b.Bounded) ∨
        ∃ f b, dispatch e a = .error (.fault f) b := by
      intro hf
      by_cases hk : e.kind = .deferred
      · rw [dispatch, hk]
        exact (hb hf).onDeferred (hc e rfl hf hk)
      · exact (proper_dispatch hk [] [] a).bounded (hb hf)
    simp only [Assembly.call, handle]
    cases hf : a.failure? with
    | some f => exact ⟨fun h => by simp [hf] at h, fun halt h => ⟨f, (Option.some.inj h).symm⟩⟩
    | none =>
      rcases hcases hf with ⟨u, b, h, hb'⟩ | ⟨f, b, h⟩
      · rw [h]
        refine ⟨fun _ => hb', fun halt hhalt => ?_⟩
        cases hhalt
      · rw [h]
        refine ⟨fun hfail => ?_, fun halt hhalt => ⟨f, (Option.some.inj hhalt).symm⟩⟩
        cases hfail

theorem Bounded.after : ∀ (calls : List Call) {a : Assembly}, (a.failure? = none → a.Bounded) →
    a.balanced calls = true →
    ((a.after calls).failure? = none → (a.after calls).Bounded) ∧
      ∀ halt, some halt ∈ a.answers calls → ∃ f, halt = .fault f
  | [], _, hb, _ => ⟨hb, fun _ h => by simp [answers] at h⟩
  | c :: calls, a, hb, hbal => by
    have hstep : (∀ e, c = .event e → a.failure? = none → e.kind = .deferred → a.completable = true) ∧
        (a.call c).1.balanced calls = true := by
      cases c with
      | event e =>
        rw [balanced, Bool.and_eq_true] at hbal
        refine ⟨fun e' he hf hk => ?_, hbal.2⟩
        obtain rfl := Call.event.inj he
        simpa [hf, hk] using hbal.1
      | startUnit path | take => exact ⟨nofun, hbal⟩
    obtain ⟨hb', hanswer⟩ := Bounded.call c hb hstep.1
    obtain ⟨hafter, hanswers⟩ := Bounded.after calls hb' hstep.2
    refine ⟨hafter, fun halt h => ?_⟩
    rw [answers, mem_cons] at h
    exact h.elim (fun h => hanswer halt h.symm) (hanswers halt)

theorem serveAll_eq {room : Nat} : ∀ (calls : List Call) {a : Assembly},
    (∀ halt, some halt ∈ a.answers calls → ∃ f, halt = .fault f) → (∀ c ∈ calls, demand c ≤ room) →
    ∃ answers, a.serveAll room calls = .ok (a.after calls, answers) ∧ answers.length = calls.length
  | [], _, _, _ => ⟨[], rfl, rfl⟩
  | c :: calls, a, h, hroom => by
    obtain ⟨hc, hcalls⟩ := forall_mem_cons.1 hroom
    obtain ⟨served, hserve, hlength⟩ := serveAll_eq calls (fun halt hm => h halt (mem_cons_of_mem _ hm)) hcalls
    have hanswer : ∀ halt, (a.call c).2 = some halt → ∃ f, halt = .fault f :=
      fun halt hh => h halt (by rw [answers, hh]; exact mem_cons_self)
    obtain ⟨answer, hone⟩ : ∃ answer, a.serve room c = .ok ((a.call c).1, answer) := by
      rw [serve, if_neg fun hlt => Nat.not_lt.2 hc hlt.2]
      revert hanswer
      cases a.call c with
      | mk b halt? =>
        intro hanswer
        cases halt? with
        | none => exact ⟨none, rfl⟩
        | some halt =>
          obtain ⟨f, rfl⟩ := hanswer halt rfl
          exact ⟨some f, rfl⟩
    refine ⟨answer :: served, ?_, congrArg Nat.succ hlength⟩
    simp only [serveAll, hone, hserve]
    rfl

/-- **Every call is answered.** Whatever is asked of a new assembly, each call is taken or turned down with a fault, as
long as there is room for the operands that are taken at once and no deferred statement is completed below the base of a
scope that is still open; and without a fault all open scopes stand on the stage. -/
theorem answered_of_balanced (room : Nat) (path : Path) (calls : List Call) (hroom : ∀ c ∈ calls, demand c ≤ room)
    (h : (start path).balanced calls = true) :
    ∃ a answers, (start path).serveAll room calls = .ok (a, answers) ∧ answers.length = calls.length ∧
      (a.failure? = none → ∀ frame ∈ a.scopes, frame.base ≤ a.height) := by
  obtain ⟨hb, hfaults⟩ := Bounded.after calls (fun _ => bounded_start path) h
  obtain ⟨answers, hserve, hlength⟩ := serveAll_eq calls hfaults hroom
  exact ⟨_, answers, hserve, hlength, fun hf frame hm => ((hb hf).scopes.base_le frame hm).trans (hb hf).base⟩

/-- A deferred block, a call of a function that takes more than was staged, and a scope that is closed twice. -/
def strayCalls : List Call :=
  [.event ⟨.deferHeader, 2, "", none⟩, .event ⟨.scopeStart, 3, "", none⟩, .event ⟨.scopeEnd, 4, "", none⟩,
    .event ⟨.deferred, 5, "", none⟩, .take, .event ⟨.postfixCall, 6, "7", none⟩, .event ⟨.scopeEnd, 7, "", none⟩]

theorem answered_strayCalls : (∀ c ∈ strayCalls, demand c ≤ 7) ∧ (start []).balanced strayCalls = true ∧
    ∃ a answers, (start []).serveAll 7 strayCalls = .ok (a, answers) ∧ answers.length = 7 ∧
      answers.getLast? = some (some (.missingOperand .postfixCall 6)) := by
  have hroom : ∀ c ∈ strayCalls, demand c ≤ 7 := by decide +kernel
  have hbalanced : (start []).balanced strayCalls = true := by decide +kernel
  obtain ⟨a, answers, hserve, hlength, -⟩ := answered_of_balanced 7 [] strayCalls hroom hbalanced
  refine ⟨hroom, hbalanced, a, answers, hserve, hlength, ?_⟩
  have hlast : ((start []).serveAll 7 strayCalls).toOption.map (·.2.getLast?) =
      some (some (some (.missingOperand .postfixCall 6))) := by decide +kernel
  rw [hserve] at hlast
  exact Option.some.inj hlast

/-- A deferred statement that is completed inside a scope opened after its header, which takes two waiting operators
from under that scope. -/
def undercut : List Call :=
  [.event ⟨.deferHeader, 2, "", none⟩, .event ⟨.unaryOperator, 3, "-", some 2⟩, .event ⟨.unaryOperator, 3, "-", some 2⟩,
    .event ⟨.scopeStart, 4, "", none⟩, .event ⟨.identifier, 5, "x", some 4⟩, .event ⟨.deferred, 7, "", none⟩,
    .event ⟨.scopeEnd, 8, "", none⟩]

/-- A scope can lose what it stands on, and then closing it crashes. No room is needed for that. -/
theorem outOfRange_undercut : (∀ c ∈ undercut, demand c = 0) ∧
    ((start []).serveAll 0 undercut).map (·.2) = .error (.outOfRange 2 1) := by decide +kernel

end Deferral.Assembly
