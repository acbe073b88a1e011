import Deferral.Proofs.Resolving
import Deferral.Proofs.Traces

/-!
# Runs side by side

A list of statements and the same list with deferred statements in place do not do the same at each point of time: what
is pending at the end is put after the list, and what a jump fires outside the list is put before the jump. `Follows`
relates two runs that differ in just this. It goes through sequences, loops and jumps that come to their target.
-/

namespace Deferral

open Firing (Exit)
open List

/-- The second run does what the first does. At a normal end, the first has also done the `ending`; before a jump, the
second has also done what lies `beyond`. -/
inductive Follows (ending : List Action) (beyond : Exit → List Action) : Run → Run → Prop
  | done (trace : List Action) (decisions : List Nat) :
    Follows ending beyond ⟨trace ++ ending, .done, decisions⟩ ⟨trace, .done, decisions⟩
  | left (trace : List Action) {exit : Exit} (h : exit ≠ .scopeEnd) (decisions : List Nat) :
    Follows ending beyond ⟨trace, .left exit, decisions⟩ ⟨trace ++ beyond exit, .left exit, decisions⟩
  | cut (trace : List Action) (decisions : List Nat) :
    Follows ending beyond ⟨trace, .cut, decisions⟩ ⟨trace, .cut, decisions⟩

namespace Follows

variable {ending pending : List Action} {beyond beyond' : Exit → List Action} {r r' : Run} {next next' : List Nat → Run}
  {exit : Exit}

theorem acts (actions : List Action) (decisions : List Nat) :
    Follows [] beyond (.acts actions decisions) (.acts actions decisions) := by
  have h := @done [] beyond actions decisions
  rwa [append_nil] at h

theorem leaves {actions actions' : List Action} (hexit : exit ≠ .scopeEnd) (h : actions' = actions ++ beyond exit)
    (decisions : List Nat) : Follows ending beyond (.leaves actions exit decisions)
    (.leaves actions' exit decisions) := by
  rw [h]
  exact left actions hexit decisions

theorem before (trace : List Action) (h : Follows ending beyond r r') :
    Follows ending beyond { r with trace := trace ++ r.trace } { r' with trace := trace ++ r'.trace } := by
  cases h with
  | done tr ds =>
    rw [← append_assoc]
    exact done (trace ++ tr) ds
  | left tr h ds =>
    rw [← append_assoc]
    exact left (trace ++ tr) h ds
  | cut tr ds => exact cut (trace ++ tr) ds

/-- Where a jump leaves the first list, what is pending there is the first part of what lies beyond the statement. -/
theorem andThen (h : Follows [] beyond' r r') (hb : ∀ exit, exit ≠ .scopeEnd → beyond' exit = pending ++ beyond exit)
    (hn : ∀ decisions, Follows ending beyond (next decisions) (next' decisions)) :
    Follows ending beyond (r.andThen pending next) (r'.andThen [] next') := by
  cases h with
  | done trace ds =>
    rw [append_nil]
    exact (hn ds).before trace
  | left trace hexit ds =>
    rename_i exit
    have heq : (⟨trace ++ beyond' exit, .left exit, ds⟩ : Run).andThen [] next' =
        ⟨trace ++ pending ++ beyond exit, .left exit, ds⟩ := by
      simp [Run.andThen, hb exit hexit]
    rw [heq]
    exact left (trace ++ pending) hexit ds
  | cut trace ds => exact cut trace ds

theorem catches (h : Follows [] beyond r r') (hexit : beyond exit = [])
    (hb : ∀ other, other ≠ exit → other ≠ .scopeEnd → beyond' other = beyond other) :
    Follows [] beyond' (r.catches exit) (r'.catches exit) := by
  cases h with
  | done trace ds => exact done trace ds
  | @left trace other hother ds =>
    by_cases he : other = exit
    · subst he
      simp only [Run.catches, if_true, hexit, append_nil]
      exact acts _ ds
    · simp only [Run.catches, Outcome.left.injEq, if_neg he, ← hb other he hother]
      exact left trace hother ds
  | cut trace ds => exact cut trace ds

theorem decides {decisions : List Nat} {next next' : Nat → List Nat → Run}
    (h : ∀ d ds, Follows ending beyond (next d ds) (next' d ds)) :
    Follows ending beyond (.decides decisions next) (.decides decisions next') := by
  cases decisions with
  | nil => exact cut [] []
  | cons d ds => exact h d ds

theorem iterate {body body' : List Nat → Run} (h : ∀ ds, Follows [] beyond (body ds) (body' ds))
    (hc : beyond .continue = [])
    (hb : ∀ other, other ≠ .continue → other ≠ .scopeEnd → beyond' other = beyond other) (rounds : Nat)
    (decisions : List Nat) :
    Follows [] beyond' (Run.iterate body rounds decisions) (Run.iterate body' rounds decisions) := by
  induction rounds generalizing decisions with
  | zero => exact cut [] decisions
  | succ n ih =>
    refine decides fun d ds => ?_
    split
    · exact acts [] ds
    · exact ((h ds).catches hc hb).andThen (fun _ _ => rfl) ih

theorem append (h : Follows ending beyond r r') :
    Follows [] beyond r (r'.andThen [] (Run.acts ending)) := by
  cases h with
  | done trace ds => exact acts (trace ++ ending) ds
  | @left trace exit hexit ds =>
    have heq : (⟨trace ++ beyond exit, .left exit, ds⟩ : Run).andThen [] (Run.acts ending) =
        ⟨trace ++ beyond exit, .left exit, ds⟩ := by simp [Run.andThen]
    rw [heq]
    exact left trace hexit ds
  | cut trace ds => exact cut trace ds

theorem of_not_done (h : Follows ending beyond r r') (hr : r.outcome ≠ .done) : Follows [] beyond r r' := by
  cases h with
  | done trace ds => exact absurd rfl hr
  | left trace hexit ds => exact left trace hexit ds
  | cut trace ds => exact cut trace ds

theorem congr (h : Follows ending beyond r r') (hb : ∀ exit, exit ≠ .scopeEnd → beyond' exit = beyond exit) :
    Follows ending beyond' r r' := by
  cases h with
  | done trace ds => exact done trace ds
  | left trace hexit ds =>
    rw [← hb _ hexit]
    exact left trace hexit ds
  | cut trace ds => exact cut trace ds

theorem eq (h : Follows [] beyond r r') (hb : ∀ exit, exit ≠ .scopeEnd → beyond exit = []) : r' = r := by
  cases h with
  | done trace ds => rw [append_nil]
  | left trace hexit ds => rw [hb _ hexit, append_nil]
  | cut trace ds => rfl

end Follows

/-! ## Lists of statements -/

/-- A node that is run where it stands. -/
def Node.IsRun (n : Node) : Prop := n.status = .clean ∨ n.status = .modified

/-- Runs the list of statements below a node. -/
def runBlock (plain : Bool) (below : Forest Node) (mode : Mode) (decisions : List Nat) : Run :=
  runList plain below mode [] decisions

section Lists

variable {plain : Bool} {n : Node} {b r f g : Forest Node} {mode : Mode} {pending : List Action}
  {decisions : List Nat} {k : Nat}

theorem runList_removed (h : n.status = .removed) :
    runList plain (.node n b r) mode pending decisions = runList plain r mode pending decisions := by
  obtain ⟨⟩ := n
  cases h
  rfl

theorem runList_added (h : n.status = .added) : runList plain (.node n b r) .all pending decisions =
    (Run.acts [n.action] decisions).andThen pending (runList plain r .all pending) := by
  obtain ⟨⟩ := n
  cases h
  rfl

theorem runList_added_skip (h : n.status = .added) (hm : mode ≠ .all) :
    runList plain (.node n b r) mode pending decisions = runList plain r mode pending decisions := by
  obtain ⟨⟩ := n
  cases h
  cases mode with
  | all => exact absurd rfl hm
  | _ => rfl

section

variable (h : n.IsRun)
include h

theorem runList_deferred (hd : n.tag = .deferred) : runList false (.node n b r) .all pending decisions =
    runList false r .all (b.roots.map (·.action) ++ pending) decisions := by
  obtain ⟨⟩ := n
  rcases h with h | h <;> cases h <;> exact if_pos hd

theorem runList_statement (hd : n.tag ≠ .deferred) : runList plain (.node n b r) .all pending decisions =
    (runStatement n b (runBlock plain b) decisions).andThen pending (runList plain r .all pending) := by
  obtain ⟨⟩ := n
  rcases h with h | h <;> cases h <;> exact if_neg hd

theorem runList_fromLabel_skip (hd : n.tag ≠ .caseLabel) :
    runList plain (.node n b r) (.fromLabel k) pending decisions =
    runList plain r (.fromLabel k) pending decisions := by
  obtain ⟨⟩ := n
  rcases h with h | h <;> cases h <;> exact if_pos hd

theorem runList_fromLabel_succ (hd : n.tag = .caseLabel) :
    runList plain (.node n b r) (.fromLabel (k + 1)) pending decisions =
    runList plain r (.fromLabel k) pending decisions := by
  obtain ⟨⟩ := n
  rcases h with h | h <;> cases h <;> exact if_neg (not_not.2 hd)

theorem runList_fromLabel_zero (hd : n.tag = .caseLabel) :
    runList plain (.node n b r) (.fromLabel 0) pending decisions =
      (runStatement n b (runBlock plain b) decisions).andThen pending (runList plain r .all pending) := by
  obtain ⟨⟩ := n
  rcases h with h | h <;> cases h <;> exact if_neg (not_not.2 hd)

theorem runList_oneScope_skip (hd : n.tag ≠ .scope) :
    runList plain (.node n b r) (.oneScope k) pending decisions = runList plain r (.oneScope k) pending decisions := by
  obtain ⟨⟩ := n
  rcases h with h | h <;> cases h <;> exact if_pos hd

theorem runList_oneScope_succ (hd : n.tag = .scope) :
    runList plain (.node n b r) (.oneScope (k + 1)) pending decisions =
    runList plain r (.oneScope k) pending decisions := by
  obtain ⟨⟩ := n
  rcases h with h | h <;> cases h <;> exact if_neg (not_not.2 hd)

theorem runList_oneScope_zero (hd : n.tag = .scope) :
    runList plain (.node n b r) (.oneScope 0) pending decisions = runStatement n b (runBlock plain b) decisions := by
  obtain ⟨⟩ := n
  rcases h with h | h <;> cases h <;> exact if_neg (not_not.2 hd)

end

theorem Run.andThen_assoc (x : Run) (next last : List Nat → Run) :
    (x.andThen [] next).andThen [] last = x.andThen [] fun decisions => (next decisions).andThen [] last := by
  obtain ⟨trace, outcome, ds⟩ := x
  cases outcome with
  | done =>
    cases hn : (next ds).outcome <;> simp [Run.andThen, hn]
  | left => simp [Run.andThen]
  | cut | stuck => rfl

theorem Run.acts_andThen_leaves (actions actions' : List Action) (exit : Exit) :
    (Run.acts actions decisions).andThen pending (Run.leaves actions' exit) =
    .leaves (actions ++ actions') exit decisions :=
  rfl

/-- No deferred statement is pending after the list. -/
def Unpending (f : Forest Node) : Prop := ∀ n ∈ f.roots, n.tag = .deferred → n.status = .removed ∨ n.status = .added

theorem unpending_node : Unpending (.node n b r) ↔
    (n.tag = .deferred → n.status = .removed ∨ n.status = .added) ∧ Unpending r := forall_mem_cons

theorem unpending_append : Unpending (f ++ g) ↔ Unpending f ∧ Unpending g := by
  simp only [Unpending, Forest.roots_append, forall_mem_append]

theorem unpending_added (hf : ∀ n ∈ f.roots, n.status = .added) : Unpending f := fun n hn _ => .inr (hf n hn)

theorem runList_append (hf : Unpending f) :
    runList plain (f ++ g) .all [] decisions =
    (runList plain f .all [] decisions).andThen [] (runList plain g .all []) := by
  induction f generalizing decisions with
  | nil => rfl
  | node n b r _ ihr =>
    obtain ⟨hn, hr⟩ := forall_mem_cons.1 hf
    have ih := fun decisions => @ihr decisions hr
    rw [Forest.node_append]
    cases hs : n.status with
    | removed => rw [runList_removed hs, runList_removed hs, ih]
    | added => rw [runList_added hs, runList_added hs, Run.andThen_assoc, funext ih]
    | clean | modified =>
      have hrun : n.IsRun := by simp [Node.IsRun, hs]
      have hd : n.tag ≠ .deferred := fun hd => by simp [hs] at hn; exact hn hd
      rw [runList_statement hrun hd, runList_statement hrun hd, Run.andThen_assoc, funext ih]

theorem runList_added_append (hf : ∀ n ∈ f.roots, n.status = .added) : runList plain (f ++ g) .all [] decisions =
    (Run.acts (f.roots.map (·.action)) decisions).andThen [] (runList plain g .all []) := by
  induction f with
  | nil => rfl
  | node n b r _ ihr =>
    obtain ⟨hn, hr⟩ := forall_mem_cons.1 hf
    rw [Forest.node_append, runList_added hn]
    have ih := ihr hr
    simp only [Run.andThen, Run.acts] at ih ⊢
    rw [ih]
    simp

theorem runList_added_append_skip (hf : ∀ n ∈ f.roots, n.status = .added) (hm : mode ≠ .all) :
    runList plain (f ++ g) mode pending decisions = runList plain g mode pending decisions := by
  induction f with
  | nil => rfl
  | node n b r _ ihr =>
    obtain ⟨hn, hr⟩ := forall_mem_cons.1 hf
    rw [Forest.node_append, runList_added_skip hn hm, ihr hr]

theorem ownRoots_append : ownRoots (f ++ g) = ownRoots f ++ ownRoots g := by simp [ownRoots]

theorem ownRoots_added (hf : ∀ n ∈ f.roots, n.status = .added) : ownRoots f = [] := by
  simpa [ownRoots, filter_eq_nil_iff] using hf

theorem ownRoots_node (h : n.status ≠ .added) : ownRoots (.node n b r) = (n.tag, n.span) :: ownRoots r := by
  simp [ownRoots, h]

theorem Run.outcome_andThen_ne {x : Run} {next : List Nat → Run} (h : ∀ decisions, (next decisions).outcome ≠ .done) :
    (x.andThen pending next).outcome ≠ .done := by
  obtain ⟨trace, outcome, ds⟩ := x
  cases outcome with
  | done => exact h ds
  | left | cut | stuck => simp [Run.andThen]

/-- A jump. -/
def Node.Jumps (n : Node) : Prop := n.IsRun ∧ (n.tag = .returned ∨ n.tag = .jump)

theorem Node.Jumps.outcome_ne (h : n.Jumps) (block : Mode → List Nat → Run) :
    (runStatement n b block decisions).outcome ≠ .done := by
  have htag := h.2
  unfold Node.tag at htag
  unfold runStatement
  cases hc : n.construct with
  | returned => simp [Run.leaves]
  | jump kind => cases kind <;> simp [Run.leaves]
  | _ => simp [hc, Construct.tag] at htag

theorem outcome_runList_ne (hf : ∃ n ∈ f.roots, n.Jumps) :
    (runList false f .all pending decisions).outcome ≠ .done := by
  induction f generalizing pending decisions with
  | nil => simp at hf
  | node n b r _ ihr =>
    obtain ⟨m, hm, hj⟩ := hf
    have hrest : m ≠ n → ∀ pending decisions, (runList false r .all pending decisions).outcome ≠ .done :=
      fun hne _ _ => ihr ⟨m, (mem_cons.1 hm).resolve_left hne, hj⟩
    cases hs : n.status with
    | removed =>
      rw [runList_removed hs]
      exact hrest (fun heq => by simpa [heq, Node.IsRun, hs] using hj.1) _ _
    | added =>
      rw [runList_added hs]
      exact Run.outcome_andThen_ne (hrest (fun heq => by simpa [heq, Node.IsRun, hs] using hj.1) _)
    | clean | modified =>
      have hrun : n.IsRun := by simp [Node.IsRun, hs]
      by_cases hd : n.tag = .deferred
      · rw [runList_deferred hrun hd]
        exact hrest (fun heq => by simpa [heq, hd] using hj.2) _ _
      · rw [runList_statement hrun hd]
        by_cases heq : m = n
        · have hne : (runStatement n b (runBlock false b) decisions).outcome ≠ .done := (heq ▸ hj).outcome_ne _
          revert hne
          cases runStatement n b (runBlock false b) decisions with
          | mk trace outcome ds =>
            cases outcome <;> simp [Run.andThen]
        · exact Run.outcome_andThen_ne (hrest heq _)

end Lists

end Deferral
