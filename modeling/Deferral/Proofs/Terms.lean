import Deferral.Proofs.Layout
import Deferral.Proofs.Legible
import Deferral.Proofs.Rising

/-!
# Stacks of terms

While a statement is read, the stage is a stack of terms: trees of which only the constructs count, not the slots. A
prefix operator waits on the stack for its operand, and taking an operand folds it into the operators that wait below it
(`Term.fold`). `Push` says what an event of an expression does to the stack, and when it finds the operands it takes.
-/

namespace Deferral

open List

/-- A prefix operator without its operand. -/
def Construct.waits : Construct → Bool
  | .unary _ none => true
  | _ => false

theorem Construct.exists_unary {c : Construct} (h : c.waits = true) : ∃ op, c = .unary op none := by
  unfold Construct.waits at h
  split at h
  · exact ⟨_, rfl⟩
  · cases h

/-- A construct with its slots left open. -/
def Construct.bare (c : Construct) : Construct := c.mapSlots fun _ => .root

theorem Construct.waits_bare (c : Construct) : c.bare.waits = c.waits := by
  cases c with
  | unary op operand? => cases operand? <;> rfl
  | _ => rfl

/-- A tree of constructs without slots. -/
structure Term where
  label : Construct
  below : Forest Construct

namespace Term

def forest (x : Term) : Forest Construct := .tree x.label x.below

def waits (x : Term) : Bool := x.label.waits

/-! ## Stacks of terms, top first -/

/-- The operand `x` goes to the operators that wait on top of the stack, innermost first. -/
def fold (x : Term) : List Term → Term × List Term
  | [] => (x, [])
  | y :: ys =>
    match y.label with
    | .unary op none => fold ⟨.unary op (some .root), y.below ++ x.forest⟩ ys
    | _ => (x, y :: ys)

/-- At least `n` operands can be taken one after the other. -/
def Full : Nat → List Term → Prop
  | 0, _ => True
  | _ + 1, [] => False
  | n + 1, x :: xs => x.waits = false ∧ Full n (fold x xs).2

/-- Takes `n` operands, in source order before those in `later`, and gives what is left. -/
def take : Nat → (later xs : List Term) → List Term × List Term
  | 0, later, xs => (later, xs)
  | _ + 1, later, [] => (later, [])
  | n + 1, later, x :: xs => take n ((fold x xs).1 :: later) (fold x xs).2

/-- Takes all operands, at most `n`, in source order before those in `later`. -/
def gather : Nat → (later xs : List Term) → List Term
  | 0, later, _ => later
  | _ + 1, later, [] => later
  | n + 1, later, x :: xs => gather n ((fold x xs).1 :: later) (fold x xs).2

/-- The stack after a construct has taken `n` operands. -/
def combined (c : Construct) (n : Nat) (xs : List Term) : List Term :=
  ⟨c, .join ((take n [] xs).1.map forest)⟩ :: (take n [] xs).2

/-- The stack after a suffix has taken `n` operands and what it applies to. -/
def suffixed (s : Suffix) (n : Nat) (xs : List Term) : List Term :=
  match take n [] xs with
  | (operands, base :: ys) => ⟨.suffixed s .root, base.forest ++ .join (operands.map forest)⟩ :: ys
  | (_, []) => []

/-- No operator waits on top. -/
def Settled (xs : List Term) : Prop := ∀ x ∈ xs.head?, x.waits = false

theorem fold_waits {y : Term} {op : String} (hy : y.label = .unary op none) (x : Term) (ys : List Term) :
    fold x (y :: ys) = fold ⟨.unary op (some .root), y.below ++ x.forest⟩ ys := by
  rw [fold, hy]

@[simp] theorem settled_cons {x : Term} {xs : List Term} : Settled (x :: xs) ↔ x.waits = false := by simp [Settled]

theorem fold_of_settled {x : Term} : ∀ {ys : List Term}, Settled ys → fold x ys = (x, ys)
  | [], _ => rfl
  | y :: ys, h => by
    have hy : y.waits = false := h y rfl
    unfold fold
    split
    case h_1 hl => rw [waits, hl] at hy; cases hy
    case h_2 => rfl

theorem snd_fold : ∀ (ys : List Term) (x : Term), (fold x ys).2 = ys.dropWhile waits
  | [], _ => rfl
  | y :: ys, x => by
    cases hy : y.waits with
    | false => rw [fold_of_settled (settled_cons.2 hy), dropWhile_cons_of_neg (by simp [hy])]
    | true =>
      obtain ⟨op, hop⟩ := Construct.exists_unary hy
      rw [fold_waits hop, snd_fold ys, dropWhile_cons_of_pos hy]

theorem settled_dropWhile : ∀ xs : List Term, Settled (xs.dropWhile waits)
  | [] => nofun
  | x :: xs => by
    cases hx : x.waits with
    | true => rw [dropWhile_cons_of_pos hx]; exact settled_dropWhile xs
    | false =>
      rw [dropWhile_cons_of_neg (by simp [hx])]
      exact settled_cons.2 hx

theorem Settled.dropWhile_eq : ∀ {xs : List Term}, Settled xs → xs.dropWhile waits = xs
  | [], _ => rfl
  | x :: _, h => dropWhile_cons_of_neg (by simp [h x rfl])

/-! ## Operands on top -/

variable {n m : Nat} {xs later : List Term} {x : Term}

theorem snd_take (later : List Term) : ∀ (n : Nat) (xs : List Term), (take n later xs).2 = (take n [] xs).2
  | 0, _ => rfl
  | _ + 1, [] => rfl
  | n + 1, x :: xs => by rw [take, take, snd_take _ n, snd_take [_] n]

theorem take_add : ∀ (n m : Nat) (later xs : List Term),
    take (n + m) later xs = take m (take n later xs).1 (take n later xs).2
  | 0, m, later, xs => by rw [Nat.zero_add, take]
  | n + 1, 0, later, [] => rfl
  | n + 1, m + 1, later, [] => rfl
  | n + 1, m, later, x :: xs => by rw [Nat.add_right_comm, take, take_add n m, take]

theorem Full.add : ∀ {n : Nat} {xs : List Term}, Full n xs → Full m (take n [] xs).2 → Full (n + m) xs
  | 0, xs, _, h => by rw [Nat.zero_add]; exact h
  | n + 1, x :: xs, ⟨hx, h⟩, h' => by
    rw [take, snd_take] at h'
    rw [Nat.add_right_comm]
    exact ⟨hx, Full.add h h'⟩

theorem snd_take_add (n m : Nat) (xs : List Term) : (take (n + m) [] xs).2 = (take m [] (take n [] xs).2).2 := by
  rw [take_add, snd_take]

theorem snd_take_one (x : Term) (xs : List Term) : (take 1 [] (x :: xs)).2 = xs.dropWhile waits := snd_fold xs x

/-- The stack `ys` is `xs` with an operand on top, and perhaps operators that wait for it. -/
def Topped (xs ys : List Term) : Prop :=
  ∃ x rest, ys = x :: rest ∧ x.waits = false ∧ rest.dropWhile waits = xs.dropWhile waits

namespace Topped

variable {xs ys zs : List Term} {x : Term}

theorem intro (hx : x.waits = false) (xs : List Term) : Topped xs (x :: xs) := ⟨x, xs, rfl, hx, rfl⟩

theorem settled (h : Topped xs ys) : Settled ys := by
  obtain ⟨x, rest, rfl, hx, -⟩ := h
  exact settled_cons.2 hx

theorem ne_nil (h : Topped xs ys) : ys ≠ [] := by
  obtain ⟨x, rest, rfl, -⟩ := h
  exact cons_ne_nil _ _

theorem full (h : Topped xs ys) : Full 1 ys := by
  obtain ⟨x, rest, rfl, hx, -⟩ := h
  exact ⟨hx, trivial⟩

theorem snd_take (h : Topped xs ys) : (take 1 [] ys).2 = xs.dropWhile waits := by
  obtain ⟨x, rest, rfl, hx, hr⟩ := h
  rw [snd_take_one, hr]

theorem of_waiting (h : Topped (x :: xs) ys) (hx : x.waits = true) : Topped xs ys := by
  obtain ⟨y, rest, rfl, hy, hr⟩ := h
  exact ⟨y, rest, rfl, hy, by rw [hr, dropWhile_cons_of_pos hx]⟩

theorem full_two (h : Topped xs ys) (h' : Topped ys zs) :
    Full 2 zs ∧ (take 2 [] zs).2 = xs.dropWhile waits := by
  have hys : (take 1 [] zs).2 = ys := by rw [h'.snd_take, h.settled.dropWhile_eq]
  refine ⟨Full.add (n := 1) h'.full (hys ▸ h.full), ?_⟩
  rw [snd_take_add 1 1, hys, h.snd_take]

theorem combined {c : Construct} (hc : c.waits = false) (h : Topped xs ys) (h' : Topped ys zs) :
    Topped xs (Term.combined c 2 zs) := by
  refine ⟨_, _, rfl, hc, ?_⟩
  rw [(h.full_two h').2, (settled_dropWhile xs).dropWhile_eq]

theorem suffixed {n : Nat} (s : Suffix) (h : Topped xs ys) (hz : (take n [] zs).2 = ys) :
    Topped xs (Term.suffixed s n zs) := by
  obtain ⟨x, rest, rfl, hx, hr⟩ := h
  unfold Term.suffixed
  split
  case h_1 operands base rest' heq =>
    rw [heq] at hz
    obtain ⟨rfl, rfl⟩ := List.cons.inj hz
    exact ⟨_, _, rfl, rfl, hr⟩
  case h_2 heq => rw [heq] at hz; cases hz

end Topped

end Term

/-! ## Events on a stack -/

/-- The node of an event that is a leaf. -/
def Event.leaf? (e : Event) : Option Construct :=
  match e.kind with
  | .identifier => some (.identifier e.literal)
  | .constant => some (.constant e.literal)
  | .unaryOperator => some (.unary e.literal none)
  | _ => none

/-- The suffix that an event adds, and how many operands it takes besides what it applies to. -/
def Event.suffix? (e : Event) : Option (Suffix × Nat) :=
  match e.kind with
  | .postfixCall => (Assembly.count? e.literal).map (.call, ·)
  | .postfixIndex => some (.index, 1)
  | .postfixMember => (Assembly.member? e.literal).map (·, 0)
  | .postfixIncrement => (Assembly.increment? e.literal).map (·, 0)
  | _ => none

/-- Kinds of events that combine two operands. -/
def Event.Kind.isConnective : Event.Kind → Bool
  | .assignment | .relational | .binaryOperator => true
  | _ => false

open Term

/-- An event turns a stack into another. -/
inductive Push (e : Event) : List Term → List Term → Prop
  | leaf {c : Construct} (hc : e.leaf? = some c) (hp : e.placed = true) (xs : List Term) :
    Push e xs (⟨c.bare, .nil⟩ :: xs)
  | connective {xs : List Term} (hk : e.kind.isConnective = true) (hl : e.literal.isEmpty = false) (hxs : Full 2 xs) :
    Push e xs (combined (.binary e.literal .root .root) 2 xs)
  | suffix {s : Suffix} {n : Nat} {x : Term} {xs ys : List Term} (hs : e.suffix? = some (s, n)) (hxs : Full n xs)
    (hy : (take n [] xs).2 = x :: ys) (hx : x.waits = false) : Push e xs (suffixed s n xs)
  | list {n : Nat} {xs : List Term} (hk : e.kind = .initializerList) (hn : Assembly.count? e.literal = some n)
    (hxs : Full n xs) : Push e xs (combined .initializerList n xs)
  | array {type name : String} {isReference : Bool} {below : Forest Construct} {xs : List Term}
    (hk : e.kind = .arraySuffix) : Push e (⟨.declaration type name isReference, below⟩ :: xs)
      (⟨.declaration (type ++ e.literal) name isReference, below⟩ :: xs)

/-- Events turn a stack into another, one after the other. -/
inductive Pushes : List Event → List Term → List Term → Prop
  | nil (xs : List Term) : Pushes [] xs xs
  | cons {e : Event} {es : List Event} {xs ys zs : List Term} (h : Push e xs ys) (h' : Pushes es ys zs) :
    Pushes (e :: es) xs zs

variable {e : Event} {es es' : List Event} {xs ys zs : List Term}

theorem Push.one (h : Push e xs ys) : Pushes [e] xs ys := .cons h (.nil _)

theorem Pushes.append (h : Pushes es xs ys) (h' : Pushes es' ys zs) : Pushes (es ++ es') xs zs := by
  induction h with
  | nil => exact h'
  | cons hp _ ih => exact .cons hp (ih h')

/-! ## Forests of entries as terms -/

/-- The term of a tree of entries. -/
def Entry.term (x : Entry) (d : Forest Entry) : Term := ⟨x.node.construct.bare, d.map (·.node.construct.bare)⟩

namespace Forest

/-- The terms of a forest, the last one first. -/
def terms : Forest Entry → List Term
  | .nil => []
  | .node x d r => r.terms ++ [x.term d]

@[simp] theorem terms_nil : (nil : Forest Entry).terms = [] := rfl

@[simp] theorem terms_node (x : Entry) (d r : Forest Entry) : (node x d r).terms = r.terms ++ [x.term d] := rfl

@[simp] theorem terms_append : ∀ f g : Forest Entry, (f ++ g).terms = g.terms ++ f.terms
  | .nil, g => by simp
  | .node x d r, g => by simp [terms, terms_append r g]

@[simp] theorem terms_tree (x : Entry) (d : Forest Entry) : (tree x d).terms = [x.term d] := rfl

@[simp] theorem length_terms : ∀ f : Forest Entry, f.terms.length = f.rootSlots.length
  | .nil => rfl
  | .node x d r => by simp [terms, length_terms r]

theorem eq_nil_of_terms {f : Forest Entry} (h : f.terms = []) : f = nil :=
  eq_nil_of_rootSlots (eq_nil_of_length_eq_zero (by rw [← length_terms, h]; rfl))

theorem exists_last_term {f : Forest Entry} {x : Term} {xs : List Term} (h : f.terms = x :: xs) :
    ∃ g y d, f = g ++ tree y d ∧ y.term d = x ∧ g.terms = xs := by
  have hne : f.roots ≠ [] := fun hn => by simp [eq_nil_of_roots hn] at h
  obtain ⟨g, d, hf, -⟩ := exists_last (dropLast_concat_getLast hne).symm
  rw [hf, terms_append, terms_tree, singleton_append] at h
  exact ⟨g, _, d, hf, List.cons.inj h⟩

theorem map_bare (f : Forest Entry) : f.map (·.node.construct.bare) = join (f.terms.reverse.map Term.forest) := by
  induction f with
  | nil => rfl
  | node x d r _ ih => simp [terms, ih, Term.forest, Entry.term]

theorem term_fresh (s : Slot) (c : Construct) (span : Span) (f : Forest Entry) :
    (Entry.fresh s c span).term f = ⟨c.bare, join (f.terms.reverse.map Term.forest)⟩ := by
  rw [← map_bare]
  rfl

end Forest

end Deferral
