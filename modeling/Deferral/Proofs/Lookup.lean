import Deferral.Proofs.Owning

/-!
# Nodes that can be looked up

A node is found by its number until it is dissolved. Only the scopes that add nothing to a construct that closes are
dissolved (`Assembly.absorbs`), so that they are all that cannot be looked up in the end (`Kept.after`).
-/

namespace Deferral

namespace Assembly

open Tree

variable {may : Special → Prop} {a b : Assembly} {w w' : Work} {gone : List Slot} {e : Event}

/-! ## Acts -/

theorem Act.indexed (h : Act may w w') (hm : ¬may .fold) (hi : w.assembly.tree.Indexed gone) :
    w'.assembly.tree.Indexed gone := by
  cases h with
  | note h => rwa [(core_eq h).1]
  | measure s span => exact hi.setSpan s span
  | make c span cs => exact .attachAll _ cs (hi.push c span)
  | apply => exact (hi.attach _ _).setConstruct _ _
  | lead => exact ((hi.push _ _).attach _ _).setConstruct _ _
  | leave | complete => exact .attachAll _ _ hi
  | absorb hfold => exact absurd hfold hm
  | recast s c => exact hi.setConstruct s c
  | adopt => exact hi.attach _ _
  | give => exact hi.attach _ _
  | trail => exact (((hi.push _ _).attach _ _).setSpan _ _).setConstruct _ _
  | param => exact hi.modify (fun _ => by rfl) _
  | _ => exact hi

theorem Acts.indexed (h : Acts may w w') (hm : ¬may .fold) (hi : w.assembly.tree.Indexed gone) :
    w'.assembly.tree.Indexed gone := by
  induction h with
  | refl => exact hi
  | tail _ hact ih => exact hact.indexed hm ih

/-- Of what a step leaves, all is found that was found before, except for what is in `gone`. -/
def Dissolves {α : Type} (a : Assembly) (gone : List Slot) : EStateM.Result Halt Assembly α → Prop
  | .ok _ b | .error (.fault _) b => ∀ lost, a.tree.Indexed lost → b.tree.Indexed (lost ++ gone)
  | .error (.outOfRange _ _) _ => True

theorem Goes.dissolves {α : Type} {r : EStateM.Result Halt Assembly α} {after : α → Assembly → Work}
    (h : Goes may w r after) (hafter : ∀ v b, (after v b).assembly = b) (hm : ¬may .fold) :
    Dissolves w.assembly [] r := by
  match r with
  | .ok v b =>
    intro lost hi
    simpa [hafter] using Acts.indexed h hm hi
  | .error (.fault _) b =>
    obtain ⟨hand, held, hacts⟩ := h
    intro lost hi
    simpa using hacts.indexed hm hi
  | .error (.outOfRange _ _) b => trivial

theorem Dissolves.after {α : Type} {r : EStateM.Result Halt Assembly α} (h : Dissolves b gone r)
    (hb : ∀ {lost}, a.tree.Indexed lost → b.tree.Indexed lost) : Dissolves a gone r := by
  cases r with
  | ok v c => exact fun lost hi => h lost (hb hi)
  | error halt c =>
    cases halt with
    | fault f => exact fun lost hi => h lost (hb hi)
    | outOfRange base staged => trivial

/-! ## Events -/

/-- The scopes that are dissolved when the innermost scope closes as a construct of sort `tag`. -/
def absorbedBy (e : Event) (tag : Construct.Tag) (a : Assembly) : List Slot :=
  match closing e tag a with
  | .ok s b => b.tree.absorbed s
  | .error _ _ => []

/-- The scopes that an event dissolves. -/
def absorbs (a : Assembly) (e : Event) : List Slot :=
  if a.failure?.isSome then []
  else
    match e.kind with
    | .functionEnd => absorbedBy e .function a
    | .ifEnd => absorbedBy e .branch a
    | .loopEnd => absorbedBy e .loop a
    | .switchEnd =>
      match closeOpenLabel e a with
      | .ok _ b => absorbedBy e .switch b
      | .error _ _ => []
    | _ => []

theorem Owning.dissolves_closeConstruct (ho : Owning ⟨[], [], a⟩) (tag : Construct.Tag) :
    Dissolves a (absorbedBy e tag a) (closeConstruct e tag a) := by
  have hgoes : Goes (fun _ => False) ⟨[], [], a⟩ (closing e tag a) fun s b => ⟨[], [s], b⟩ := goes_closing e tag [] [] a
  rw [closeConstruct_eq]
  change Dissolves a _ (EStateM.bind (closing e tag) (stageClosed e tag) a)
  unfold EStateM.bind absorbedBy
  cases hc : closing e tag a with
  | error halt b =>
    rw [hc] at hgoes
    have hd := hgoes.dissolves (fun _ _ => rfl) id
    cases halt with
    | fault f => exact hd
    | outOfRange base staged => trivial
  | ok s b =>
    rw [hc] at hgoes
    have hob : Owning ⟨[], [s], b⟩ := Acts.owning_of_not_fill hgoes id ho
    intro lost hi
    exact Indexed.absorbIn _ hob.sound.owned (Acts.indexed hgoes id hi)

theorem Kept.dissolves (h : Kept a) (hf : a.failure? = none) (e : Event) :
    Dissolves a (a.absorbs e) (Assembly.dispatch e a) := by
  have hplain : e.kind ≠ .deferred → ¬specials e.kind .fold → a.absorbs e = [] →
      Dissolves a (a.absorbs e) (Assembly.dispatch e a) := fun hk hm hnil => by
    rw [hnil]
    exact (proper_dispatch hk [] [] a).dissolves (fun _ _ => rfl) hm
  cases hk : e.kind with
  | functionEnd =>
    simp only [absorbs, hf, hk, Assembly.dispatch]
    exact h.owning.dissolves_closeConstruct .function
  | ifEnd =>
    simp only [absorbs, hf, hk, Assembly.dispatch]
    exact h.owning.dissolves_closeConstruct .branch
  | loopEnd =>
    simp only [absorbs, hf, hk, Assembly.dispatch]
    exact h.owning.dissolves_closeConstruct .loop
  | switchEnd =>
    simp only [absorbs, hf, hk, Assembly.dispatch]
    have hgoes : Goes (fun _ => False) ⟨[], [], a⟩ (closeOpenLabel e a) fun _ b => ⟨[], [], b⟩ :=
      proper_closeOpenLabel e [] a
    change Dissolves a _ (EStateM.bind (closeOpenLabel e) (fun _ => closeConstruct e .switch) a)
    unfold EStateM.bind
    cases hc : closeOpenLabel e a with
    | error halt b =>
      rw [hc] at hgoes
      have hd := hgoes.dissolves (fun _ _ => rfl) id
      cases halt with
      | fault f => exact hd
      | outOfRange base staged => trivial
    | ok u b =>
      rw [hc] at hgoes
      have hob : Owning ⟨[], [], b⟩ := Acts.owning_of_not_fill hgoes id h.owning
      exact (hob.dissolves_closeConstruct .switch).after fun hi => Acts.indexed hgoes id hi
  | deferred =>
    have hnil : a.absorbs e = [] := by simp [absorbs, hk]
    rw [hnil, Assembly.dispatch, hk]
    rcases onDeferred_cases e a with ⟨f, hf⟩ | ⟨waiting, rest, hw, hgoes, -⟩
    · change Dissolves a [] (Assembly.onDeferred e a)
      rw [hf]
      intro lost hi
      simpa using hi
    · exact hgoes.dissolves (fun _ _ => rfl) id
  | _ => exact hplain (by simp [hk]) (by simp [hk, specials]) (by simp [absorbs, hk])

/-- The scopes dissolved in the present tree after a sequence of calls, if those in `gone` were before. -/
def absorbedAfter (a : Assembly) (gone : List Slot) : List Call → List Slot
  | [] => gone
  | .event e :: calls => absorbedAfter (a.call (.event e)).1 (gone ++ a.absorbs e) calls
  | c :: calls => absorbedAfter (a.call c).1 [] calls

theorem indexed_start (path : Path) : (start path).tree.Indexed [] := by
  have hroot : ∀ s : Slot, s.index < (start path).tree.size → s = .root := fun s hs => by
    cases s
    simpa [start, Tree.ofPath, Tree.size, Slot.root] using hs
  refine ⟨by simp, fun s hs => ?_, fun s hs => ?_⟩ <;> rw [hroot s hs] <;> rfl

/-- A sequence of calls that all return: parents and children agree, and what cannot be looked up was absorbed. -/
theorem Kept.after : ∀ (calls : List Call) {a : Assembly} {gone : List Slot}, Kept a → a.tree.Indexed gone →
    (∀ halt, some halt ∈ a.answers calls → ∃ f, halt = .fault f) →
      Kept (a.after calls) ∧ (a.after calls).tree.Indexed (a.absorbedAfter gone calls)
  | [], _, _, h, hd, _ => ⟨h, hd⟩
  | c :: calls, a, gone, h, hd, hanswers => by
    rw [answers] at hanswers
    have hc : ∀ halt, (a.call c).2 = some halt → ∃ f, halt = .fault f := fun halt hh =>
      hanswers halt (hh ▸ List.mem_cons_self)
    have hrest := fun halt hm => hanswers halt (List.mem_cons_of_mem _ hm)
    have hk := h.call c hc
    cases c with
    | startUnit path => exact Kept.after calls hk (indexed_start path) hrest
    | take => exact Kept.after calls hk (indexed_start a.tree.path) hrest
    | event e =>
      refine Kept.after calls hk ?_ hrest
      simp only [Assembly.call, handle] at hc ⊢
      cases hf : a.failure? with
      | some f => simpa [absorbs, hf] using hd
      | none =>
        have hdis := h.dissolves hf e
        rw [hf] at hc
        cases hr : Assembly.dispatch e a with
        | ok u b =>
          rw [hr] at hdis
          exact hdis gone hd
        | error halt b =>
          rw [hr] at hdis hc
          cases halt with
          | fault f => exact hdis gone hd
          | outOfRange base staged =>
            obtain ⟨f, hf⟩ := hc _ rfl
            cases hf

end Assembly

end Deferral
