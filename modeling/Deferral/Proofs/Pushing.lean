import Deferral.Proofs.Terms

/-!
# Expressions on the stack of terms

`Expr.push` is what the events of an expression do to the stack: a prefix operator is pushed before its operand and
waits, an operator between two operands takes both, a suffix takes what it applies to as it is. An expression always
leaves an operand on top and, apart from operators that wait, what was there before (`Expr.topped`). So its events
always find the operands they take (`Expr.pushes`).
-/

namespace Deferral.Grammar

open Term List

variable (source : List UInt8)

mutual

/-- The stack after the events of an expression. -/
def Expr.push : Expr → List Term → List Term
  | .name t, xs => ⟨.identifier t.1.literal, .nil⟩ :: xs
  | .constant t, xs => ⟨.constant t.1.literal, .nil⟩ :: xs
  | .strings t more _, xs => ⟨.constant (sliceOf source t.start (lastStop t.stop more)), .nil⟩ :: xs
  | .measure k g, xs => ⟨.constant (sliceOf source k.1.start g.closing.stop), .nil⟩ :: xs
  | .sign op e, xs => e.push (⟨.unary op.1.text none, .nil⟩ :: xs)
  | .sizeOf _ e, xs => e.push (⟨.unary "sizeof" none, .nil⟩ :: xs)
  | .cast g e, xs => e.push (⟨.unary (sliceOf source g.opening.start g.closing.stop) none, .nil⟩ :: xs)
  | .group _ e _, xs => e.push xs
  | .binary l op r, xs => combined (.binary op.token.text .root .root) 2 (r.push (l.push xs))
  | .conditional c _ y _ n, xs =>
    combined (.binary "?" .root .root) 2 (combined (.binary ":" .root .root) 2 (n.push (y.push (c.push xs))))
  | .call b _ as _, xs => suffixed .call as.count (as.push (b.push xs))
  | .index b _ e _, xs => suffixed .index 1 (e.push (b.push xs))
  | .member b p f, xs => suffixed ((Assembly.member? (p.1.text ++ f.1.literal)).getD .call) 0 (b.push xs)
  | .increment b op, xs => suffixed ((Assembly.increment? op.1.text).getD .call) 0 (b.push xs)

/-- The stack after the events of arguments. -/
def Args.push : Args → List Term → List Term
  | .none, xs => xs
  | .last e, xs => e.push xs
  | .more e _ rest, xs => rest.push (e.push xs)

end

mutual

theorem Expr.topped : ∀ (e : Expr) (xs : List Term), Topped xs (e.push source xs)
  | .name _, xs | .constant _, xs | .strings _ _ _, xs | .measure _ _, xs => .intro rfl xs
  | .sign _ e, xs | .sizeOf _ e, xs | .cast _ e, xs => (e.topped _).of_waiting rfl
  | .group _ e _, xs => e.topped xs
  | .binary l _ r, xs => (l.topped xs).combined rfl (r.topped _)
  | .conditional c _ y _ n, xs => (c.topped xs).combined rfl ((y.topped _).combined rfl (n.topped _))
  | .call b _ as _, xs => (b.topped xs).suffixed _ (as.full (b.topped xs).settled).2
  | .index b _ e _, xs => by
    refine (b.topped xs).suffixed _ ?_
    rw [(e.topped _).snd_take, (b.topped xs).settled.dropWhile_eq]
  | .member b _ _, xs | .increment b _, xs => (b.topped xs).suffixed _ rfl

theorem Args.full : ∀ (as : Args) {xs : List Term}, Settled xs →
    Full as.count (as.push source xs) ∧ (take as.count [] (as.push source xs)).2 = xs
  | .none, _, _ => ⟨trivial, rfl⟩
  | .last e, xs, h => ⟨(e.topped xs).full, (e.topped xs).snd_take.trans h.dropWhile_eq⟩
  | .more e _ rest, xs, h => by
    obtain ⟨hfull, htake⟩ := rest.full (e.topped xs).settled
    refine ⟨Full.add hfull (htake ▸ (e.topped xs).full), ?_⟩
    rw [Args.count, Args.push, snd_take_add, htake, (e.topped xs).snd_take, h.dropWhile_eq]

end

/-! ## The events of an expression find their operands -/

variable {source} {xs : List Term}

theorem push_binary {kind : Event.Kind} {offset : Nat} {text : String}
    (hk : kind = .assignment ∨ kind = .relational ∨ kind = .binaryOperator)
    (hl : (mark kind offset text).legible = true) (hxs : Full 2 xs) :
    Push (mark kind offset text) xs (combined (.binary text .root .root) 2 xs) := by
  have htext : text.isEmpty = false := by
    rcases hk with rfl | rfl | rfl <;> simpa [Event.legible, mark] using hl
  refine .connective ?_ htext hxs
  rcases hk with rfl | rfl | rfl <;> rfl

mutual

/-- The events of an expression do to a stack what `push` says. -/
theorem Expr.pushes : ∀ (e : Expr) {xs : List Term}, (∀ ev ∈ e.events source, ev.legible = true) →
    Pushes (e.events source) xs (e.push source xs)
  | .name t, xs, hl => (Push.leaf (c := .identifier t.1.literal) rfl (hl _ mem_cons_self) xs).one
  | .constant _, xs, hl | .strings _ _ _, xs, hl | .measure _ _, xs, hl =>
    (Push.leaf (c := .constant _) rfl (hl _ mem_cons_self) xs).one
  | .sign _ e, xs, hl | .sizeOf _ e, xs, hl | .cast _ e, xs, hl => by
    simp only [Expr.events, forall_mem_cons] at hl
    exact .cons (.leaf (c := .unary _ none) rfl hl.1 xs) (e.pushes hl.2)
  | .group _ e _, xs, hl => e.pushes hl
  | .binary l op r, xs, hl => by
    simp only [Expr.events, forall_mem_append] at hl
    refine (l.pushes hl.1).append ((r.pushes hl.2.1).append (Push.one ?_))
    exact push_binary (kind_of_operator? op.known) (hl.2.2 _ mem_cons_self)
      ((l.topped source xs).full_two (r.topped source _)).1
  | .conditional c _ y _ n, xs, hl => by
    simp only [Expr.events, forall_mem_append, forall_mem_cons] at hl
    obtain ⟨hc, hy, hn, hcolon, hquestion, -⟩ := hl
    have hpair := (y.topped source (c.push source xs)).combined (c := .binary ":" .root .root) rfl (n.topped source _)
    refine (c.pushes hc).append ((y.pushes hy).append ((n.pushes hn).append (.cons
      (push_binary (.inr (.inr rfl)) hcolon ((y.topped source _).full_two (n.topped source _)).1) (Push.one ?_))))
    exact push_binary (.inr (.inr rfl)) hquestion ((c.topped source xs).full_two hpair).1
  | .call f _ as c, xs, hl => by
    simp only [Expr.events, forall_mem_append, forall_mem_cons] at hl
    obtain ⟨hf, has, hcall, -⟩ := hl
    obtain ⟨x, rest, hx, hw, -⟩ := f.topped source xs
    obtain ⟨hfull, htake⟩ := as.full source (f.topped source xs).settled
    have hs : (mark .postfixCall c.1.stop (toString as.count)).suffix? = some (.call, as.count) :=
      congrArg (Option.map (Suffix.call, ·)) (Assembly.count?_of_isSome hcall)
    exact (f.pushes hf).append ((as.pushes has).append (Push.suffix hs hfull (htake.trans hx) hw).one)
  | .index f _ e c, xs, hl => by
    simp only [Expr.events, forall_mem_append, forall_mem_cons] at hl
    obtain ⟨x, rest, hx, hw, -⟩ := f.topped source xs
    have htake : (take 1 [] (e.push source (f.push source xs))).2 = x :: rest := by
      rw [(e.topped source _).snd_take, (f.topped source xs).settled.dropWhile_eq, hx]
    exact (f.pushes hl.1).append ((e.pushes hl.2.1).append (Push.suffix rfl (e.topped source _).full htake hw).one)
  | .member f p field, xs, hl => by
    simp only [Expr.events, forall_mem_append, forall_mem_cons] at hl
    obtain ⟨x, rest, hx, hw, -⟩ := f.topped source xs
    obtain ⟨suffix, hs⟩ := Option.isSome_iff_exists.1 hl.2.1
    have hs' : Assembly.member? (p.1.text ++ field.1.literal) = some suffix := hs
    rw [Expr.push, hs']
    exact (f.pushes hl.1).append (Push.suffix (n := 0) (by simp [Event.suffix?, mark, hs']) trivial hx hw).one
  | .increment f op, xs, hl => by
    simp only [Expr.events, forall_mem_append, forall_mem_cons] at hl
    obtain ⟨x, rest, hx, hw, -⟩ := f.topped source xs
    obtain ⟨suffix, hs⟩ := Option.isSome_iff_exists.1 hl.2.1
    have hs' : Assembly.increment? op.1.text = some suffix := hs
    rw [Expr.push, hs']
    exact (f.pushes hl.1).append (Push.suffix (n := 0) (by simp [Event.suffix?, mark, hs']) trivial hx hw).one

theorem Args.pushes : ∀ (as : Args) {xs : List Term}, (∀ ev ∈ as.events source, ev.legible = true) →
    Pushes (as.events source) xs (as.push source xs)
  | .none, xs, _ => .nil xs
  | .last e, xs, hl => e.pushes hl
  | .more e _ rest, xs, hl => by
    simp only [Args.events, forall_mem_append] at hl
    exact (e.pushes hl.1).append (rest.pushes hl.2)

end

/-! ## Initializers -/

variable (source) in
mutual

/-- The stack after the events of an initializer. -/
def Init.push : Init → List Term → List Term
  | .value e, xs => e.push source xs
  | .list _ ms _, xs => combined .initializerList ms.count (ms.push xs)

def Inits.push : Inits → List Term → List Term
  | .none, xs => xs
  | .last i, xs => i.push xs
  | .more i _ rest, xs => rest.push (i.push xs)

end

mutual

theorem Init.topped : ∀ (i : Init) {xs : List Term}, Settled xs → Topped xs (i.push source xs)
  | .value e, xs, _ => e.topped source xs
  | .list _ ms _, xs, h => by
    rw [Init.push, combined, (ms.full h).2]
    exact .intro rfl xs

theorem Inits.full : ∀ (is : Inits) {xs : List Term}, Settled xs →
    Full is.count (is.push source xs) ∧ (take is.count [] (is.push source xs)).2 = xs
  | .none, _, _ => ⟨trivial, rfl⟩
  | .last i, xs, h => ⟨(i.topped h).full, (i.topped h).snd_take.trans h.dropWhile_eq⟩
  | .more i _ rest, xs, h => by
    obtain ⟨hfull, htake⟩ := rest.full (i.topped h).settled
    refine ⟨Full.add hfull (htake ▸ (i.topped h).full), ?_⟩
    rw [Inits.count, Inits.push, snd_take_add, htake, (i.topped h).snd_take, h.dropWhile_eq]

end

mutual

theorem Init.pushes : ∀ (i : Init) {xs : List Term}, Settled xs → (∀ ev ∈ i.events source, ev.legible = true) →
    Pushes (i.events source) xs (i.push source xs)
  | .value e, xs, _, hl => e.pushes hl
  | .list _ ms c, xs, hs, hl => by
    simp only [Init.events, forall_mem_append, forall_mem_cons] at hl
    refine (ms.pushes hs hl.1).append (Push.one ?_)
    exact .list rfl (Assembly.count?_of_isSome hl.2.1) (ms.full hs).1

theorem Inits.pushes : ∀ (is : Inits) {xs : List Term}, Settled xs → (∀ ev ∈ is.events source, ev.legible = true) →
    Pushes (is.events source) xs (is.push source xs)
  | .none, xs, _, _ => .nil xs
  | .last i, xs, hs, hl => i.pushes hs hl
  | .more i _ rest, xs, hs, hl => by
    simp only [Inits.events, forall_mem_append] at hl
    exact (i.pushes hs hl.1).append (rest.pushes (i.topped hs).settled hl.2)

end

end Deferral.Grammar
