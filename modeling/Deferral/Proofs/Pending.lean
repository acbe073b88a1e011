import Deferral.Proofs.Arming
import Deferral.Proofs.Following

/-!
# What is pending

At each statement of a list, what is armed at its depth is what a run has pending in the list, and what a jump fires is
first what is pending there and then what lies beyond the list (`Firing.Surrounded.split`).
`Firing.Setting` collects what is known of a list of statements of a source.
-/

namespace Deferral

open Forest List

namespace Firing

variable {t : Tree} {whole f f' c : Forest Entry} {d : Nat} {scopes outer armed armed' : List Placed} {x : Placed}
  {exit : Exit} {tokens : List Token}

/-! ## What is pending -/

/-- What deferred statements do when they fire. -/
def fired (t : Tree) (ss : List Slot) : List Action := ss.map fun s => ⟨t.tag (operation t s), t.span (operation t s)⟩

@[simp] theorem fired_nil : fired t [] = [] := rfl

@[simp] theorem fired_append (ss ss' : List Slot) : fired t (ss ++ ss') = fired t ss ++ fired t ss' := map_append

/-! ## Where statements stand -/

/-- Deferred statements stand below scopes, and labels below `switch`, as far as they are in no deferred statement. -/
def Proper (t : Tree) : Forest Entry → Prop
  | .nil => True
  | .node e below rest =>
    (t.tag e.slot ≠ .deferred →
      ((opens (t.tag e.slot) = false → ∀ k ∈ below.rootSlots, t.tag k ≠ .deferred) ∧
        (t.tag e.slot ≠ .switch → ∀ k ∈ below.rootSlots, t.tag k ≠ .caseLabel)) ∧ Proper t below) ∧
    Proper t rest

theorem Proper.armable : ∀ {f : Forest Entry}, Proper t f → Armable t f
  | .nil, _ => trivial
  | .node _ _ _, h => ⟨fun hd => ⟨(h.1 hd).1.1, (h.1 hd).2.armable⟩, h.2.armable⟩

/-! ## What lies beyond a list -/

/-- What a jump out of a statement fires. A `break` that leaves a label has come to its target. -/
def firedBy (t : Tree) (s : Slot) (scopes armed : List Placed) (exit : Exit) : List Action :=
  if t.tag s = .caseLabel ∧ exit = .break then [] else fired t (left t scopes armed exit)

theorem firedBy_eq {s : Slot} (h : t.tag s ≠ .caseLabel) :
    firedBy t s scopes armed exit = fired t (left t scopes armed exit) := by
  simp [firedBy, h]

/-- `beyond` is what jumps fire outside a list of statements: outside the scope whose statements these are, or outside
the `switch` whose labels they are. -/
inductive Surrounded (t : Tree) (d : Nat) (scopes armed : List Placed) (ss : List Slot)
    (beyond : Exit → List Action) : Prop
  | scope {x : Placed} {outer : List Placed} (hs : scopes = x :: outer) (hd : x.depth + 1 = d)
    (ho : ∀ y ∈ outer, y.depth < x.depth) (hl : ∀ s ∈ ss, t.tag s ≠ .caseLabel)
    (hb : ∀ exit, beyond exit = if exit.stopsAt (t.tag x.slot) then [] else fired t (left t outer armed exit))
  | labels (hl : ∀ s ∈ ss, t.tag s = .caseLabel) (ha : ∀ a ∈ armed, a.depth < d)
    (hb : ∀ exit, beyond exit = if exit = .break then [] else fired t (left t scopes armed exit))

namespace Surrounded

variable {s : Slot} {ss : List Slot} {beyond : Exit → List Action}

section

variable (h : Surrounded t d scopes armed (s :: ss) beyond)
include h

/-- A jump fires what is pending in the list, and then what lies beyond. -/
theorem split (exit : Exit) :
    firedBy t s scopes armed exit = fired t (armedAt d armed) ++ beyond exit := by
  cases h with
  | scope hs hd _ hl hb =>
    rw [firedBy_eq (hl s mem_cons_self), hs, left_cons, fired_append, hd, hb]
    split <;> rfl
  | labels hl ha hb =>
    rw [armedAt_eq_nil ha, hb, firedBy]
    simp [hl s mem_cons_self]

theorem rest : Surrounded t d scopes armed ss beyond := by
  cases h with
  | scope hs hd ho hl hb => exact .scope hs hd ho (fun x hx => hl x (mem_cons_of_mem s hx)) hb
  | labels hl ha hb => exact .labels (fun x hx => hl x (mem_cons_of_mem s hx)) ha hb

theorem arm (hd : t.tag s = .deferred) :
    Surrounded t d scopes (⟨s, d⟩ :: armed) ss beyond := by
  cases h with
  | scope hs hdepth ho hl hb =>
    refine .scope hs hdepth ho (fun x hx => hl x (mem_cons_of_mem s hx)) fun exit => ?_
    rw [hb, left_arm fun y hy => ?_]
    have := ho y hy
    omega
  | labels hl => simp [hl s mem_cons_self] at hd

end

end Surrounded

/-! ## Lists of statements of a source -/

/-- A list of statements in a function `fn`, at a depth with open scopes and armed statements. -/
structure Setting (t : Tree) (tokens : List Token) (fn : Slot) (p? : Option Slot) (d : Nat) (scopes armed : List Placed)
    (f : Forest Entry) : Prop where
  holds : t.Holds p? f
  shaped : Shaped tokens f
  exits : PlainExits t f
  proper : Proper t f
  size : f.members.length ≤ t.size
  depth_armed : ∀ a ∈ armed, a.depth ≤ d
  depth_scopes : ∀ y ∈ scopes, y.depth < d
  inner : ∀ e ∈ f.roots, e.node.tag ≠ .function ∧ e.node.tag ≠ .unit
  target : (leftBy t .returned scopes).getLast?.map (·.slot) = some fn
  function : t.tag fn = .function
  constants : ∀ form, t.construct fn = .function form → valueType? form.returnType = none →
    ∀ s ∈ f.slots, ∀ v, t.construct s = .returned (some v) → isConstant t v = true

namespace Setting

variable {fn : Slot} {p? : Option Slot} {e : Entry} {b r : Forest Entry}

theorem rest (h : Setting t tokens fn p? d scopes armed (.node e b r)) : Setting t tokens fn p? d scopes armed r where
  holds := h.holds.2.2
  shaped := h.shaped.2.2
  exits := h.exits.2.2
  proper := h.proper.2
  size := by
    have := h.size
    rw [length_node] at this
    omega
  depth_armed := h.depth_armed
  depth_scopes := h.depth_scopes
  inner := (forall_mem_cons.1 h.inner).2
  target := h.target
  function := h.function
  constants form hc hv s hs := h.constants form hc hv s (by simp [hs])

theorem arm (h : Setting t tokens fn p? d scopes armed f) (s : Slot) :
    Setting t tokens fn p? d scopes (⟨s, d⟩ :: armed) f :=
  { h with depth_armed := forall_mem_cons.2 ⟨Nat.le_refl d, h.depth_armed⟩ }

section

variable (h : Setting t tokens fn p? d scopes armed (.node e b r)) (hd : t.tag e.slot ≠ .deferred)
include h hd

theorem below :
    Setting t tokens fn (some e.slot) (d + 1) scopes armed b where
  holds := h.holds.2.1
  shaped := h.shaped.2.1
  exits := h.exits.2.1
  proper := (h.proper.1 hd).2
  size := by
    have := h.size
    rw [length_node] at this
    omega
  depth_armed a ha := Nat.le_succ_of_le (h.depth_armed a ha)
  depth_scopes y hy := Nat.lt_succ_of_lt (h.depth_scopes y hy)
  inner := Shape.tag_ne h.shaped.1.2.1 (forall_mem_cons.1 h.inner).1.2
  target := h.target
  function := h.function
  constants form hc hv s hs := h.constants form hc hv s (by simp [hs])

theorem inside :
    Setting t tokens fn (some e.slot) (d + 1) (⟨e.slot, d⟩ :: scopes) armed b := by
  have htag : t.tag e.slot ≠ .function := by
    rw [h.holds.tag_eq (e := e) (by simp)]
    exact (forall_mem_cons.1 h.inner).1.1
  refine { h.below hd with
    depth_scopes := forall_mem_cons.2 ⟨Nat.lt_succ_self d, (h.below hd).depth_scopes⟩
    target := ?_ }
  have hstops : Exit.stopsAt .returned (t.tag e.slot) = false := by simpa [Exit.stopsAt] using htag
  have htarget := h.target
  rw [leftBy, hstops]
  cases hl : leftBy t .returned scopes with
  | nil => simp [hl] at htarget
  | cons y l => rwa [if_neg (by simp), getLast?_cons_cons, ← hl]

end

theorem isConstant_of_boundBy? (h : Setting t tokens fn p? d scopes armed f) {s v : Slot} (hs : s ∈ f.slots)
    (hc : t.construct s = .returned (some v)) (hb : Plan.boundBy? t { scopes, armed } s .returned = none) :
    isConstant t v = true := by
  have htarget : ((leftBy t .returned scopes).getLast?.map (·.slot)).filter
      (fun x => Exit.stopsAt .returned (t.tag x)) =
      some fn := by
    rw [h.target]
    simp [h.function, Exit.stopsAt]
  rw [Plan.boundBy?, htarget, binding?, hc] at hb
  obtain ⟨form, hf⟩ := Construct.exists_function h.function
  change t.construct fn = .function form at hf
  by_contra hn
  simp only [Option.map_some, hf, hn, if_false, Option.map_eq_none_iff] at hb
  exact hn (h.constants form hf hb s hs v hc)

end Setting

end Firing

end Deferral
