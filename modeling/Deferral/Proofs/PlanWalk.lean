import Deferral.Firing.Plan
import Deferral.Proofs.Held

/-!
# The plan as a recursion

The walk that plans the firings leaves a scope when it comes to the next node outside it. Over a forest this amounts to
leaving it right after what is below it (`Firing.closeFrom_visitForest`), so the plan of a tree is a recursion over its
forest: `Firing.fire`. What a step adds to the plan is given as lists of edits and firings (`Plan.after`).
-/

namespace Deferral.Firing

open Forest List

variable {t : Tree}

/-! ## Edits and firings of one step -/

namespace Plan

/-- The plan with more edits and firings. -/
def after (t : Tree) (p : Plan) (es : List Edit) (fs : List Firing) : Plan :=
  { p with
    edits := p.edits ++ es.toArray
    firings := p.firings ++ fs.toArray
    log := p.log ++ (fs.map fun f => Log.report "Defer" (t.span f.deferred).start
      ("fired on " ++ f.exit.label ++ " of " ++ (t.tag f.scope).label)).toArray }

variable (p : Plan)

@[simp] theorem scopes_after (es : List Edit) (fs : List Firing) : (p.after t es fs).scopes = p.scopes := rfl

@[simp] theorem armed_after (es : List Edit) (fs : List Firing) : (p.after t es fs).armed = p.armed := rfl

@[simp] theorem edits_after (es : List Edit) (fs : List Firing) :
    (p.after t es fs).edits.toList = p.edits.toList ++ es := by simp [after]

@[simp] theorem firings_after (es : List Edit) (fs : List Firing) :
    (p.after t es fs).firings.toList = p.firings.toList ++ fs := by simp [after]

@[simp] theorem after_nil : p.after t [] [] = p := by simp [after]

theorem after_after (es es' : List Edit) (fs fs' : List Firing) :
    (p.after t es fs).after t es' fs' = p.after t (es ++ es') (fs ++ fs') := by
  simp [after, Array.append_assoc]

theorem edit_eq (e : Edit) : p.edit e = p.after t [e] [] := by simp [edit, after]

theorem edit_record_eq (e : Edit) (f : Firing) : (p.edit e).record t f = p.after t [e] [f] := by
  simp [edit, record, after]

theorem foldl_edit_record {α : Type} (edit : α → Edit) (firing : α → Firing) (l : List α) (p : Plan) :
    l.foldl (fun p a => (p.edit (edit a)).record t (firing a)) p = p.after t (l.map edit) (l.map firing) := by
  induction l generalizing p with
  | nil => simp
  | cons a l ih => rw [foldl_cons, ih, edit_record_eq, after_after]; rfl

/-- What falling off the end of a scope changes. -/
def endEdits (t : Tree) (p : Plan) (scope : Placed) : List Edit :=
  if fallsOffEnd t scope.slot then (p.owned scope).map fun a => .append scope.slot (operation t a.slot) else []

def endFirings (t : Tree) (p : Plan) (scope : Placed) : List Firing :=
  if fallsOffEnd t scope.slot then (p.owned scope).map fun a => ⟨a.slot, scope.slot, .scopeEnd⟩ else []

theorem exitAtEnd_eq (scope : Placed) : p.exitAtEnd t scope =
    { p with armed := p.armed.filter (·.depth != scope.depth + 1) }.after t (p.endEdits t scope)
      (p.endFirings t scope) := by
  unfold exitAtEnd endEdits endFirings
  split
  · exact foldl_edit_record (fun a => .append scope.slot (operation t a.slot))
      (fun a => ⟨a.slot, scope.slot, .scopeEnd⟩)
      (p.owned scope) _
  · simp

/-- What is fired by a jump: each armed statement with the scope that owns it, in the order of firing. -/
def owed (t : Tree) (p : Plan) (exit : Exit) : List (Placed × Slot) :=
  (leftBy t exit p.scopes).flatMap fun scope => (p.owned scope).map (·, scope.slot)

/-- The value that a jump has to store. -/
def boundBy? (t : Tree) (p : Plan) (jump : Slot) (exit : Exit) : Option (Slot × String) :=
  binding? t jump (((leftBy t exit p.scopes).getLast?.map (·.slot)).filter fun s => exit.stopsAt (t.tag s))

/-- Whether braces are put around a jump and what it fires. -/
def bracesAt (t : Tree) (p : Plan) (jump : Slot) (exit : Exit) : Bool :=
  (p.boundBy? t jump exit).isSome || (t.parent? jump).any fun parent => !(t.construct parent).braced

end Plan

/-- Operations put before a jump, the first one perhaps after a brace. -/
def insertions (t : Tree) (jump : Slot) : (brace : Bool) → List (Placed × Slot) → List Edit
  | _, [] => []
  | brace, (a, _) :: rest => .insertBefore jump (operation t a.slot) brace :: insertions t jump false rest

namespace Plan

variable (p : Plan)

/-- What a jump changes. -/
def exitEdits (t : Tree) (p : Plan) (jump : Slot) (exit : Exit) : List Edit :=
  if (p.owed t exit).isEmpty then []
  else
    (match p.boundBy? t jump exit with
      | some (value, type) => [.bindValue jump value type]
      | none => []) ++
      insertions t jump (p.bracesAt t jump exit && (p.boundBy? t jump exit).isNone) (p.owed t exit) ++
      if p.bracesAt t jump exit then [.closeBrace jump] else []

theorem foldl_insertions (jump : Slot) (exit : Exit) (brace : Bool) (owed : List (Placed × Slot)) (first : Bool)
    (p : Plan) :
    (owed.foldl (fun (x : Plan × Bool) (y : Placed × Slot) =>
      ((x.1.edit (.insertBefore jump (operation t y.1.slot) (brace && x.2))).record t ⟨y.1.slot, y.2, exit⟩, false))
      (p, first)).1 =
      p.after t (insertions t jump (brace && first) owed) (owed.map fun y => ⟨y.1.slot, y.2, exit⟩) := by
  induction owed generalizing p first with
  | nil => simp [insertions]
  | cons y owed ih =>
    rw [foldl_cons, ih, edit_record_eq, after_after]
    simp [insertions]

theorem exitEarly_eq (jump : Slot) (exit : Exit) : p.exitEarly t jump exit =
    p.after t (p.exitEdits t jump exit) ((p.owed t exit).map fun y => ⟨y.1.slot, y.2, exit⟩) := by
  have hfold := foldl_insertions (t := t) jump exit (p.bracesAt t jump exit && (p.boundBy? t jump exit).isNone)
    (p.owed t exit) true
  unfold exitEarly exitEdits
  change (if (p.owed t exit).isEmpty then p else
    let q := match p.boundBy? t jump exit with
      | some (value, type) => p.edit (.bindValue jump value type)
      | none => p
    let q := ((p.owed t exit).foldl (fun (x : Plan × Bool) (y : Placed × Slot) =>
      ((x.1.edit (.insertBefore jump (operation t y.1.slot)
        (p.bracesAt t jump exit && (p.boundBy? t jump exit).isNone && x.2))).record t ⟨y.1.slot, y.2, exit⟩, false))
      (q, true)).1
    if p.bracesAt t jump exit then q.edit (.closeBrace jump) else q) = _
  by_cases h : (p.owed t exit).isEmpty
  · simp [isEmpty_iff.1 h]
  · simp only [h, hfold, Bool.false_eq_true, if_false, Bool.and_true]
    cases p.boundBy? t jump exit <;> cases p.bracesAt t jump exit <;> simp [edit_eq (t := t), after_after]

/-! ## Leaving scopes -/

theorem exitAtEnd_scopes (scope : Placed) (l : List Placed) :
    { p with scopes := l }.exitAtEnd t scope = { p.exitAtEnd t scope with scopes := l } := by
  rw [exitAtEnd_eq, exitAtEnd_eq]
  rfl

theorem foldl_exitAtEnd_scopes (left l : List Placed) (p : Plan) :
    left.foldl (exitAtEnd t) { p with scopes := l } = { left.foldl (exitAtEnd t) p with scopes := l } := by
  induction left generalizing p with
  | nil => rfl
  | cons scope left ih => rw [foldl_cons, foldl_cons, exitAtEnd_scopes, ih]

theorem drop_takeWhile {α : Type} (q : α → Bool) (l : List α) : l.drop (l.takeWhile q).length = l.dropWhile q := by
  induction l with
  | nil => rfl
  | cons a l ih => by_cases h : q a <;> simp [h, ih]

theorem closeFrom_eq (d : Nat) : p.closeFrom t d =
    { (p.scopes.takeWhile (d ≤ ·.depth)).foldl (exitAtEnd t) p with scopes := p.scopes.dropWhile (d ≤ ·.depth) } := by
  rw [closeFrom, foldl_exitAtEnd_scopes, drop_takeWhile]

/-- All open scopes are above a depth, as far as the next one to be left shows. -/
def Above (p : Plan) (d : Nat) : Prop := ∀ x ∈ p.scopes.head?, x.depth < d

theorem Above.closeFrom_eq {p : Plan} {d : Nat} (h : p.Above d) : p.closeFrom t d = p := by
  have hout : p.scopes.takeWhile (d ≤ ·.depth) = [] ∧ p.scopes.dropWhile (d ≤ ·.depth) = p.scopes := by
    cases hs : p.scopes with
    | nil => exact ⟨rfl, rfl⟩
    | cons x l =>
      have hx : ¬d ≤ x.depth := Nat.not_le.2 (h x (by simp [hs]))
      simp [hx]
  rw [Plan.closeFrom_eq, hout.1, hout.2]
  rfl

theorem above_closeFrom (d : Nat) : (p.closeFrom t d).Above d := by
  rw [closeFrom_eq]
  intro x hx
  have := head?_dropWhile_not (fun x : Placed => decide (d ≤ x.depth)) p.scopes
  simp only [Option.mem_def] at hx
  simpa [hx] using this

theorem closeFrom_closeFrom {d d' : Nat} (h : d ≤ d') : (p.closeFrom t d').closeFrom t d = p.closeFrom t d := by
  have himp : ∀ x : Placed, decide (d' ≤ x.depth) = true → decide (d ≤ x.depth) = true := by
    intro x hx
    simp only [decide_eq_true_eq] at hx ⊢
    omega
  have htake := Tree.takeWhile_append_takeWhile himp p.scopes
  have hdrop := Tree.dropWhile_dropWhile himp p.scopes
  rw [closeFrom_eq, closeFrom_eq, closeFrom_eq, foldl_exitAtEnd_scopes, hdrop, ← htake, foldl_append]

/-- What a node does to the plan once the scopes that do not contain it are left. -/
def enter (t : Tree) (s : Slot) (depth : Nat) (p : Plan) : Plan :=
  match t.construct s with
  | .scope _ | .function _ | .loop _ | .branch _ _ | .caseLabel _ _ => p.open s depth
  | .deferred => p.arm t s depth
  | .returned _ => p.exitEarly t s .returned
  | .jump .break => p.exitEarly t s .break
  | .jump .continue => p.exitEarly t s .continue
  | _ => p

theorem visit_eq (s : Slot) (d : Nat) :
    visit t s d p = ((p.closeFrom t d).enter t s d, t.tag s != .deferred) := by
  have htag : t.tag s = (t.construct s).tag := rfl
  unfold visit enter
  cases hc : t.construct s with
  | jump j => cases j <;> simp [htag, hc, Construct.tag]
  | _ => simp [htag, hc, Construct.tag]

theorem enter_deferred {s : Slot} {d : Nat} {p : Plan} (h : t.tag s = .deferred) : p.enter t s d = p.arm t s d := by
  have hc : t.construct s = .deferred := Construct.eq_deferred h
  rw [enter, hc]

theorem above_enter {d : Nat} (h : p.Above d) (s : Slot) : (p.enter t s d).Above (d + 1) := by
  have hsame : p.Above (d + 1) := fun x hx => Nat.lt_succ_of_lt (h x hx)
  have hearly : ∀ exit, (p.exitEarly t s exit).Above (d + 1) := fun exit => by
    rw [exitEarly_eq]
    exact hsame
  have hopen : (p.open s d).Above (d + 1) := by
    rintro x ⟨⟩
    exact Nat.lt_succ_self d
  unfold enter
  cases t.construct s with
  | scope | function | loop | branch | caseLabel => exact hopen
  | deferred => exact hsame
  | returned => exact hearly _
  | jump j => cases j <;> exact hearly _
  | _ => exact hsame

end Plan

/-! ## The recursion -/

/-- Plans what fires in a forest at a depth. A scope is left right after what is below it. -/
def fire (t : Tree) (depth : Nat) : Forest Entry → Plan → Plan
  | .nil, p => p
  | .node e below rest, p =>
    fire t depth rest
      (if t.tag e.slot = .deferred then p.enter t e.slot depth
      else (fire t (depth + 1) below (p.enter t e.slot depth)).closeFrom t depth)

/-- Walking over a forest and then leaving its scopes is the recursion. -/
theorem closeFrom_visitForest (f : Forest Entry) (d : Nat) (p : Plan) :
    (Tree.visitForest (Plan.visit t) d f p).closeFrom t d = fire t d f (p.closeFrom t d) := by
  induction f generalizing d p with
  | nil => rfl
  | node e b r ihb ihr =>
    have habove : (p.closeFrom t d).Above d := p.above_closeFrom d
    simp only [Tree.visitForest, Plan.visit_eq, ihr, fire]
    congr 1
    by_cases hd : t.tag e.slot = .deferred
    · simp only [hd, bne_self_eq_false, Bool.false_eq_true, if_true, if_false]
      rw [Plan.enter_deferred hd]
      exact Plan.Above.closeFrom_eq (p := (p.closeFrom t d).arm t e.slot d) habove
    · simp only [hd, bne_iff_ne, ne_eq, not_false_eq_true, if_true, if_false]
      rw [← Plan.closeFrom_closeFrom _ (Nat.le_succ d), ihb, (Plan.above_enter _ habove _).closeFrom_eq]

theorem plan_eq {e : Entry} {b : Forest Entry} {low : Nat} (h : t.Stands none low (.tree e b)) (he : e.slot = .root) :
    plan t = (fire t 0 (.tree e b) {}).finish t := by
  have hclose : ∀ p : Plan, p.finish t = (p.closeFrom t 0).finish t := fun p => by
    rw [Plan.finish, Plan.finish, Plan.closeFrom_closeFrom _ (Nat.le_refl 0)]
  rw [plan, ← he, Tree.conduct_eq_visit h, Tree.Strategy.visit_enter]
  refine (hclose _).trans ?_
  rw [closeFrom_visitForest]
  rfl

end Deferral.Firing
