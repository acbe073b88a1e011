import Deferral.Proofs.Unfolding

/-!
# Walks as recursions

`Tree.Recurs` is a walk by recursion: a node is entered and looked at, then its children are walked over in order unless
the strategy has left them out. If every node has one place, `Tree.conduct`, which keeps a list of the nodes to come,
makes the calls of that recursion (`Tree.conduct_recurs`).
-/

namespace Deferral.Tree

open Forest

variable {σ : Type} {t : Tree} {s u : Slot}

/-- A call that a walk makes. -/
inductive Strategy.Call where
  | enter (s : Slot) (depth : Nat) (descend : Bool)
  | peek (tag : Construct.Tag) (s : Slot) (depth : Nat)
  | finish
  deriving DecidableEq

open Strategy (Call)

/-- The same strategy, taking down its calls. -/
def Strategy.recording (S : Strategy σ) : Strategy (σ × List Call) where
  enter s d st := (((S.enter s d st.1).1, st.2 ++ [.enter s d (S.enter s d st.1).2]), (S.enter s d st.1).2)
  peek tag s d st := (S.peek tag s d st.1, st.2 ++ [.peek tag s d])
  finish st := (S.finish st.1, st.2 ++ [.finish])

/-- The nodes entered, in order. -/
def Strategy.entered (calls : List Call) : List Slot :=
  calls.filterMap fun
    | .enter s _ _ => some s
    | _ => none

open Strategy (entered)

@[simp] theorem Strategy.entered_cons (s : Slot) (d : Nat) (b : Bool) (tag : Construct.Tag) (below calls : List Call) :
    entered (.enter s d b :: .peek tag s d :: (below ++ calls)) = s :: (entered below ++ entered calls) := by
  simp [entered]

/-- Walking over `slots`, which are at the given depth, makes the given calls and leads from one state to the other. -/
inductive Recurs (t : Tree) (S : Strategy σ) : Nat → List Slot → σ → List Call → σ → Prop
  | nil {d : Nat} {st : σ} : Recurs t S d [] st [] st
  | node {d : Nat} {s : Slot} {rest : List Slot} {st st₁ st₂ out : σ} {descend : Bool} {below calls : List Call}
    (he : S.enter s d st = (st₁, descend))
    (hb : Recurs t S (d + 1) (if descend then t.children s else []) (S.peek (t.tag s) s d st₁) below st₂)
    (hr : Recurs t S d rest st₂ calls out) :
    Recurs t S d (s :: rest) st (.enter s d descend :: .peek (t.tag s) s d :: (below ++ calls)) out

/-- The node that many steps above. -/
def above? (t : Tree) (s : Slot) : Nat → Option Slot
  | 0 => some s
  | n + 1 => (t.above? s n).bind t.parent?

theorem leads_above? : ∀ {n : Nat} {u : Slot}, t.above? s n = some u → t.Leads s u
  | 0, u, h => Option.some.inj h ▸ .refl
  | n + 1, u, h => by
    obtain ⟨v, hv, hu⟩ := Option.bind_eq_some_iff.1 h
    exact (leads_above? hv).tail hu

theorem above?_add (m : Nat) : ∀ {n : Nat}, t.above? s m = some u → t.above? s (m + n) = t.above? u n
  | 0, h => h
  | _ + 1, h => congrArg (Option.bind · t.parent?) (above?_add m h)

theorem Owned.above?_inj (h : t.Owned) {m n : Nat} (hm : t.above? u m = some s)
    (hn : t.above? u n = some s) : m = n := by
  wlog hle : m ≤ n generalizing m n
  · exact (this hn hm (Nat.le_of_not_le hle)).symm
  obtain ⟨k, rfl⟩ := Nat.exists_eq_add_of_le hle
  cases k with
  | zero => rfl
  | succ k =>
    rw [above?_add m hm] at hn
    obtain ⟨v, hv, hs⟩ := Option.bind_eq_some_iff.1 hn
    exact absurd (leads_above? hv) ((h.ends v).not_leads hs)

namespace Recurs

variable {S : Strategy σ} {d : Nat} {l : List Slot} {st out : σ} {calls : List Call}

/-- A node is at the depth that it has below one of the nodes walked over. -/
theorem exists_above (ho : t.Owned) (h : t.Recurs S d l st calls out) {n : Nat} {b : Bool} (hu : .enter u n b ∈ calls) :
    ∃ s ∈ l, ∃ k, n = d + k ∧ t.above? u k = some s := by
  induction h with
  | nil => cases hu
  | node _ _ _ ihb ihr =>
    simp only [List.mem_cons, Call.enter.injEq, reduceCtorEq, false_or, List.mem_append] at hu
    rcases hu with ⟨rfl, rfl, -⟩ | hu | hu
    · exact ⟨_, List.mem_cons_self, 0, rfl, rfl⟩
    · obtain ⟨c, hc, k, rfl, hk⟩ := ihb hu
      refine ⟨_, List.mem_cons_self, k + 1, by omega, ?_⟩
      rw [above?, hk]
      exact (ho.child (List.mem_ite_nil_right.1 hc).2).2
    · obtain ⟨s, hs, h⟩ := ihr hu
      exact ⟨s, List.mem_cons_of_mem _ hs, h⟩

/-- The nodes entered are those walked over, and the children of nodes that were not left out. -/
theorem mem_entered (h : t.Recurs S d l st calls out) :
    u ∈ entered calls ↔ u ∈ l ∨ ∃ p n, .enter p n true ∈ calls ∧ u ∈ t.children p := by
  induction h with
  | nil => simp [entered]
  | @node d s rest _ _ _ _ descend below calls _ _ _ ihb ihr =>
    have hsplit : (∃ p n, .enter p n true ∈ .enter s d descend :: .peek (t.tag s) s d :: (below ++ calls) ∧
        u ∈ t.children p) ↔ (descend = true ∧ u ∈ t.children s) ∨ (∃ p n, .enter p n true ∈ below ∧ u ∈ t.children p) ∨
          ∃ p n, .enter p n true ∈ calls ∧ u ∈ t.children p := by
      simp [or_and_right, exists_or, and_assoc]
    rw [Strategy.entered_cons, List.mem_cons, List.mem_append, ihb, ihr, hsplit, List.mem_ite_nil_right, List.mem_cons]
    generalize (∃ p n, _ ∧ _) = x, (∃ p n, _ ∧ _) = y
    grind

/-- With the nodes of the recursion on top of others, the walk comes to the others when the recursion is done. -/
theorem walkFrom_eq (h : t.Recurs S d l st calls out) (n : Nat) (rest : List (Slot × Nat)) :
    t.walkFrom (S.visit t) ((entered calls).length + n) (l.map (·, d) ++ rest) st =
    t.walkFrom (S.visit t) n rest out := by
  induction h generalizing n rest with
  | nil => simp [entered]
  | @node d s slots _ _ _ _ descend below calls he _ _ ihb ihr =>
    have hsteps : (entered (.enter s d descend :: .peek (t.tag s) s d :: (below ++ calls))).length + n =
        (entered below).length + ((entered calls).length + n) + 1 := by
      simp
      omega
    rw [hsteps, List.map_cons, List.cons_append, walkFrom]
    simp only [Strategy.visit, he, ← ihr, ← ihb]
    cases descend <;> rfl

/-- Taking down the calls makes no difference to the recursion. -/
theorem recording (h : t.Recurs S d l st calls out) (before : List Call) :
    t.Recurs S.recording d l (st, before) calls (out, before ++ calls) := by
  induction h generalizing before with
  | nil => simpa using .nil
  | @node d s slots st st₁ _ _ descend below calls he _ _ ihb ihr =>
    have henter : S.recording.enter s d (st, before) = ((st₁, before ++ [.enter s d descend]), descend) := by
      simp [Strategy.recording, he]
    have hrest := ihr (before ++ [.enter s d descend] ++ [.peek (t.tag s) s d] ++ below)
    simp only [List.append_assoc, List.cons_append, List.nil_append] at hrest
    exact .node henter (ihb _) (by simpa using hrest)

end Recurs

/-- Over the roots of a held forest there is a recursion, which enters nodes of the forest in its order. -/
theorem Holds.exists_recurs (S : Strategy σ) : ∀ {f : Forest Entry} {p? : Option Slot} (d : Nat)
    (st : σ), t.Holds p? f →
    ∃ calls out, t.Recurs S d f.rootSlots st calls out ∧ (entered calls).Sublist f.slots ∧
      ((∀ u n st, (S.enter u n st).2 = true) → entered calls = f.slots)
  | .nil, _, _, st, _ => ⟨[], st, .nil, by simp [entered], fun _ => rfl⟩
  | .node e b r, _, d, st, ⟨he, hb, hr⟩ => by
    have hc : t.children e.slot = b.rootSlots := by rw [children, he]; rfl
    cases hv : S.enter e.slot d st with
    | mk st₁ descend =>
      cases descend with
      | false =>
        obtain ⟨calls, out, hrec, hsub, -⟩ := hr.exists_recurs S d (S.peek (t.tag e.slot) e.slot d st₁)
        refine ⟨_, out, .node hv .nil hrec, ?_, fun hS => ?_⟩
        · rw [Strategy.entered_cons, slots_node]
          exact (hsub.trans (List.sublist_append_right _ _)).cons_cons _
        · have := hS e.slot d st
          simp [hv] at this
      | true =>
        obtain ⟨below, st₂, hbelow, hsub, hall⟩ := hb.exists_recurs S (d + 1) (S.peek (t.tag e.slot) e.slot d st₁)
        obtain ⟨calls, out, hrec, hsub', hall'⟩ := hr.exists_recurs S d st₂
        refine ⟨_, out, .node hv (hc ▸ hbelow) hrec, ?_, fun hS => ?_⟩
        · rw [Strategy.entered_cons, slots_node]
          exact (hsub.append hsub').cons_cons _
        · simp [hall hS, hall' hS]

/-- **Walks are recursions.** In a tree where every node has one place, a walk makes the calls of the recursion from its
start and is then finished, once. No node is entered twice, each at its distance from the start; the nodes entered are
the start and the children of those that were not left out, and all that is below the start if none was. -/
theorem conduct_recurs (t : Tree) (ho : t.Owned) (s : Slot) (hs : s.index < t.size) (S : Strategy σ) (state : σ) :
    ∃ calls out, t.Recurs S 0 [s] state calls out ∧ t.conduct s S state = S.finish out ∧
      t.conduct s S.recording (state, []) = (S.finish out, calls ++ [.finish]) ∧
      (entered calls).Nodup ∧ (∀ u n b, .enter u n b ∈ calls → ∀ k, t.above? u k = some s ↔ k = n) ∧
      (∀ u, u ∈ entered calls ↔ u = s ∨ ∃ p n, .enter p n true ∈ calls ∧ u ∈ t.children p) ∧
      ((∀ u n st, (S.enter u n st).2 = true) → entered calls = t.subtree s ∧
        (s = .root → entered calls = t.reachable)) := by
  obtain ⟨b, -, hstands⟩ := ho.exists_stands hs
  obtain ⟨calls, out, hrec, hsub, hall⟩ := hstands.holds.exists_recurs S 0 state
  rw [rootSlots_tree] at hrec
  have hsteps : ∃ n, t.size = (entered calls).length + n := by
    refine Nat.exists_eq_add_of_le (Nat.le_trans hsub.length_le ?_)
    rw [length_slots]
    exact hstands.length_le
  obtain ⟨n, hn⟩ := hsteps
  have hwalk {τ : Type} {R : Strategy τ} {st out : τ} (h : t.Recurs R 0 [s] st calls out) :
      t.conduct s R st = R.finish out := by
    have := h.walkFrom_eq n []
    rw [← hn, walkFrom_nil] at this
    exact congrArg R.finish this
  refine ⟨calls, out, hrec, hwalk hrec, hwalk (hrec.recording []), hstands.nodup.sublist hsub,
    fun u n b hu k => ?_, fun u => by simpa using hrec.mem_entered, fun hS => ?_⟩
  · obtain ⟨_, hs, j, rfl, hj⟩ := hrec.exists_above ho hu
    obtain rfl := List.mem_singleton.1 hs
    rw [Nat.zero_add]
    exact ⟨fun hk => ho.above?_inj hk hj, fun hk => hk ▸ hj⟩
  · have hslots := (hall hS).trans (subtree_eq_slots hstands.holds hstands.length_le).symm
    exact ⟨hslots, fun h => by rw [hslots, h]; rfl⟩

/-- Two nodes of the same form. -/
def forked : Tree where
  nodes := #[
    { construct := .unit [], children := [⟨1⟩, ⟨3⟩] },
      { construct := .group, children := [⟨2⟩], parent? := some .root },
    { construct := .identifier "a", parent? := some ⟨1⟩ },
      { construct := .group, children := [⟨4⟩], parent? := some .root },
    { construct := .identifier "b", parent? := some ⟨3⟩ }]

theorem conduct_recurs_forked :
    let S : Strategy Nat := { enter := fun _ _ n => (n + 1, n != 3) }
    forked.Owned ∧ entered (forked.conduct .root S.recording (0, [])).2 = [.root, ⟨1⟩, ⟨2⟩, ⟨3⟩] ∧
      ∃ calls out, forked.Recurs S 0 [.root] 0 calls out ∧
        forked.conduct .root S.recording (0, []) = (out, calls ++ [.finish]) := by
  intro S
  have ho : forked.Owned := owned_of_slots (by decide) (by decide) (by decide)
  obtain ⟨calls, out, hrec, -, hcalls, -⟩ := conduct_recurs forked ho .root (by decide) S 0
  exact ⟨ho, by decide, calls, out, hrec, hcalls⟩

end Deferral.Tree
