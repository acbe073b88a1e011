import Deferral.Proofs.Building

/-!
# Recognition and assembly agree

The events of a source that recognition accepts are taken if they fit, and what an assembly takes fits. Which events fit
can be said of the source: literals are empty only where a name is missing or no text, and a label is never all of a
body without braces.
-/

namespace Deferral

namespace Assembly

open Grammar

variable {e : Event} {source : List UInt8}

theorem literal_ne_of_legible (h : e.legible = true) (hk : e.kind = .typeWord ∨ e.kind = .declaratorName) :
    e.literal ≠ "" := by
  rintro hempty
  rcases hk with hk | hk <;> simp [Event.legible, Event.placed, hk, hempty] at h

theorem feed_eq_none {path : Path} (hstop : (trace source).stop? = none) :
    ((start path).feed source).2 = none ↔ ∃ b, Takes (start path) (trace source).events.toList b := by
  simp only [feed, Takes]
  cases hh : (start path).handleAll (trace source).events.toList with
  | mk a halt? => cases halt? <;> simp [hstop]

/-- **Agreement.** For a source that recognition accepts, the assembly takes every event, unless a word of a type or a
declared name is reported with an empty literal or a label is all there is in a body without braces. -/
theorem taken_iff (path : Path) (source : List UInt8) (hn : source.length < 2 ^ 32)
    (hstop : (trace source).stop? = none) :
    ((start path).feed source).2 = none ↔
      (∀ e ∈ (trace source).events.toList, e.kind = .typeWord ∨ e.kind = .declaratorName → e.literal ≠ "") ∧
        labelsStand (trace source).events.toList = true := by
  rw [feed_eq_none hstop]
  constructor
  · rintro ⟨b, h⟩
    exact ⟨fun e he => literal_ne_of_legible (h.legible e he), h.labelsStand⟩
  · rintro ⟨hliteral, hlabels⟩
    suffices hfit : Fitting (trace source).events.toList from (reaches_of_trace path hstop rfl hfit).imp fun _ h => h.1
    refine ⟨fun e he => ?_, hlabels⟩
    obtain ⟨hk, hempty⟩ | hl := spelled_of_trace (hn.trans (by decide)) e he
    · exact absurd (String.isEmpty_iff.1 hempty) (hliteral e he hk)
    · exact hl

/-- A parameter, an operator before its operand, a deferred block and a label with a statement. -/
def labelledStatement : List UInt8 :=
  Utf8.encode "void f(int *a)\x7bdefer\x7b-a++;\x7dswitch(a)\x7bcase 1:g(a);\x7d\x7d"

set_option maxRecDepth 100000 in
theorem taken_labelledStatement : labelledStatement.length < 2 ^ 32 ∧ (trace labelledStatement).stop? = none ∧
    ((start []).feed labelledStatement).2 = none := by
  have hstop : (trace labelledStatement).stop? = none := by decide +kernel
  exact ⟨by decide +kernel, hstop, (taken_iff [] labelledStatement (by decide +kernel) hstop).2 (by decide +kernel)⟩

/-- A parameter without a name. -/
def unnamed : List UInt8 := Utf8.encode "void f(int) \x7b \x7d"

/-- A label that is all of a body. -/
def loneLabel : List UInt8 := Utf8.encode "void f() \x7b if (x) case 1: g(); \x7d"

/-- A type whose name is no text. -/
def unreadable : List UInt8 :=
  Utf8.encode "typedef int " ++ [0xff] ++ Utf8.encode "; void f() \x7b " ++ [0xff] ++ Utf8.encode " x; \x7d"

set_option maxRecDepth 100000 in
/-- Sources that recognition accepts and an assembly does not. -/
theorem not_taken_unnamed :
    (trace unnamed).stop? = none ∧
      ((start []).feed unnamed).2 = some (.assembly (.fault (.invalidLiteral .declaratorName "" 10))) ∧
    (trace loneLabel).stop? = none ∧
      ((start []).feed loneLabel).2 =
        some (.assembly (.fault (.unbalancedScope .implicitScopeEnd (.construct .caseLabel) 25))) ∧
    (trace unreadable).stop? = none ∧
      ((start []).feed unreadable).2 = some (.assembly (.fault (.invalidLiteral .typeWord "" 27))) := by
  decide +kernel

end Assembly

end Deferral
