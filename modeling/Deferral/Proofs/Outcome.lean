import Mathlib.Logic.Basic

/-!
# Successful runs

A recognizer and a step of the assembly both run on a state and may fail. A run that succeeds can be taken apart: each
part of it has succeeded, from the state that the part before it has left.
-/

namespace Deferral

variable {ε σ α β : Type}

open EStateM (Result)

theorem bind_ok {x : EStateM ε σ α} {f : α → EStateM ε σ β} {s s' : σ} {b : β} :
    (x >>= f) s = .ok b s' ↔ ∃ a s₁, x s = .ok a s₁ ∧ f a s₁ = .ok b s' := by
  change EStateM.bind x f s = _ ↔ _
  unfold EStateM.bind
  cases x s with
  | ok a s₁ =>
    constructor
    · exact fun h => ⟨a, s₁, rfl, h⟩
    · rintro ⟨a', s₂, h, hf⟩
      obtain ⟨rfl, rfl⟩ := Result.ok.inj h
      exact hf
  | error e s₁ => simp

theorem bind_eq {x : EStateM ε σ α} {s s' : σ} {a : α} (h : x s = .ok a s') (f : α → EStateM ε σ β) :
    (x >>= f) s = f a s' := by
  change EStateM.bind x f s = _
  rw [EStateM.bind, h]

/-! ## Parts that do not fail, or do nothing else -/

theorem get_bind (f : σ → EStateM ε σ β) (s : σ) : (get >>= f) s = f s s := rfl

theorem set_bind (a : σ) (f : PUnit → EStateM ε σ β) (s : σ) : (set a >>= f) s = f ⟨⟩ a := rfl

theorem modify_bind (g : σ → σ) (f : PUnit → EStateM ε σ β) (s : σ) : (modify g >>= f) s = f ⟨⟩ (g s) := rfl

theorem pure_apply (a : α) (s : σ) : (pure a : EStateM ε σ α) s = .ok a s := rfl

theorem throw_apply (e : ε) (s : σ) : (throw e : EStateM ε σ α) s = .error e s := rfl

end Deferral
