import Deferral.Assembly.Build
import Deferral.Proofs.Outcome

/-!
# Legible events

An event carries a literal, and most steps of the assembly ask something of it: a leaf has text that lies before the end
of the leaf, an operator is not empty, a count can be read. `Event.legible` is what is asked. An event that is not
legible is turned down wherever it comes.
-/

namespace Deferral

open Assembly

namespace Event

/-- The text of a leaf is not empty and lies before the end of the event. -/
def placed (e : Event) : Bool :=
  !e.literal.isEmpty && match e.start? with
    | some start => start < e.offset
    | none => e.literal.utf8ByteSize ≤ e.offset

/-- The literal is as the assembly asks. -/
def legible (e : Event) : Bool :=
  match e.kind with
  | .typeWord | .tagKeyword | .pointer | .reference | .declaratorName | .identifier | .constant | .unaryOperator =>
    e.placed
  | .assignment | .relational | .binaryOperator | .caseLabel => !e.literal.isEmpty
  | .postfixCall | .initializerList => (count? e.literal).isSome
  | .postfixMember => (member? e.literal).isSome
  | .postfixIncrement => (increment? e.literal).isSome
  | .jump => (Jump.ofKeyword? e.literal).isSome
  | _ => true

end Event

namespace Assembly

theorem exists_leafSpan {e : Event} (h : e.placed = true) (b : Assembly) : ∃ span, leafSpan e b = .ok span b := by
  simp only [Event.placed, Bool.and_eq_true, Bool.not_eq_true'] at h
  obtain ⟨hne, hs⟩ := h
  unfold leafSpan
  rw [hne]
  cases hstart : e.start? with
  | some start =>
    rw [hstart] at hs
    exact ⟨⟨start, e.offset⟩, by simp [of_decide_eq_true hs, pure_apply]⟩
  | none =>
    rw [hstart] at hs
    exact ⟨⟨e.offset - e.literal.utf8ByteSize, e.offset⟩, by simp [of_decide_eq_true hs, pure_apply]⟩

/-- A number that is written out can be read again, if it is not too large. -/
theorem count?_toString (n : Nat) : count? (toString n) = if n < UInt64.size then some n else none := by
  have hlist : (toString n).toList = Nat.toDigits 10 n := by
    rw [Nat.toString_eq_ofList_toDigits, String.toList_ofList]
  have hdigit : ∀ c ∈ Nat.toDigits 10 n, c.isDigit = true := fun c hc =>
    Nat.isDigit_of_mem_toDigits (by decide) (by decide) hc
  have hall : (Nat.toDigits 10 n).all Char.isDigit = true := List.all_eq_true.2 hdigit
  have hempty : (Nat.toDigits 10 n).isEmpty = false := by
    simp
  have hvalue : (Nat.toDigits 10 n).foldl (fun n c => n * 10 + (c.toNat - '0'.toNat)) 0 = n := by
    have := Nat.ofDigitChars_ten_toDigits (n := n)
    rw [Nat.ofDigitChars_eq_foldl] at this
    simpa [Nat.mul_comm] using this
  simp only [count?, hlist]
  split
  case h_1 rest heq => exact absurd (hdigit '+' (heq ▸ List.mem_cons_self)) (by decide)
  case h_2 => simp only [hall, hempty, hvalue, Bool.not_true, Bool.or_self, Bool.false_eq_true, if_false]

theorem count?_of_isSome {n : Nat} (h : (count? (toString n)).isSome = true) : count? (toString n) = some n := by
  rw [count?_toString] at h ⊢
  split at h
  · rw [if_pos ‹_›]
  · cases h

end Assembly

end Deferral
