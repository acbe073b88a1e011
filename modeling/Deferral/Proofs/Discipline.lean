import Deferral.Proofs.Agreement

/-!
# Recognition keeps the discipline of events

Statements leave the ledger as they find it: what they open they close, and their operands are taken. So the ledger
follows the events of every source, up to its end or to the place where recognition stops (`disciplined_of_trace`).
-/

namespace Deferral

/-! ## Between statements -/

namespace Ledger

variable {l m : Ledger} {o : Opening} {allowed : Nat → Bool}

theorem operands_settle (h : l.settle allowed = some m) : m.operands = 0 := by
  rw [settle, Option.ite_none_right_eq_some] at h
  rw [← Option.some.inj h.2]

theorem operands_settleIn (h : l.settleIn o allowed = some m) : m.operands = 0 := by
  rw [settleIn, Option.ite_none_right_eq_some] at h
  exact operands_settle h.2

theorem operands_enter (h : l.enter o = some m) : m.operands = 0 := by
  rw [enter, Option.ite_none_right_eq_some] at h
  rw [← Option.some.inj h.2]
  exact h.1

theorem operands_leave (h : l.leave o = some m) : m.operands = 0 := by
  rw [leave, Option.ite_none_right_eq_some] at h
  rw [← Option.some.inj h.2]
  exact h.1.1

theorem operands_leaveDeferral (h : l.leaveDeferral = some m) : m.operands = 0 := by
  unfold leaveDeferral at h
  split at h
  · rw [Option.ite_none_right_eq_some] at h
    rw [← Option.some.inj h.2]
  · cases h

theorem operands_of_step {e : Event} (h : l.step e = some m) (hk : e.kind.isInner = false) : m.operands = 0 := by
  unfold step at h
  cases hkind : e.kind <;> simp only [hkind] at h hk
  case functionHeader =>
    rw [Option.ite_none_right_eq_some, Option.bind_eq_some_iff] at h
    obtain ⟨-, l', -, h⟩ := h
    exact operands_enter h
  case unitEnd =>
    rw [Option.ite_none_right_eq_some] at h
    exact operands_settle h.2
  all_goals first
    | exact operands_settle h
    | exact operands_settleIn h
    | exact operands_enter h
    | exact operands_leave h
    | exact operands_leaveDeferral h
    | cases hk

end Ledger

namespace Grammar

/-- **Discipline.** The ledger follows the events of every source. If recognition accepts the source, all constructs are
closed and all operands taken at the end; if it stops, the events so far can be continued to such a sequence. No operand
is left where a statement can start, which is after every event that is not in the middle of a statement. -/
theorem disciplined_of_trace (source : List UInt8) :
    ((trace source).stop? = none → Ledger.run {} (trace source).events.toList = some {}) ∧
    (∃ more, Ledger.run {} ((trace source).events.toList ++ more) = some {}) ∧
    ∀ es e rest, (trace source).events.toList = es ++ e :: rest → e.kind.isInner = false →
      ∃ l, Ledger.run {} (es ++ [e]) = some l ∧ l.operands = 0 := by
  obtain ⟨l, hrun, hl⟩ := exists_run_of_trace source
  refine ⟨fun hstop => by rw [hrun, hl hstop], ?_, fun es e rest hes hk => ?_⟩
  · obtain ⟨more, hmore⟩ := l.exists_run_empty
    exact ⟨more, by rw [Ledger.run_append, hrun, Option.bind_some, hmore]⟩
  · rw [hes, Ledger.run_append] at hrun
    obtain ⟨l', hl', hrun⟩ := Option.bind_eq_some_iff.1 hrun
    obtain ⟨m, hm, -⟩ := Option.bind_eq_some_iff.1 hrun
    exact ⟨m, by rw [Ledger.run_append, hl', Option.bind_some, Ledger.run_cons hm]; rfl, Ledger.operands_of_step hm hk⟩

/-- Every kind of construct, and a deferred block beside a deferred expression. -/
def everyConstruct : List UInt8 :=
  Utf8.encode
    ("int f(int a)\x7b int b = 1, c[2] = \x7b1, 2\x7d; defer \x7b g(a, -b); \x7d defer h(); if (a) b = c[0]; else ; " ++
      "for (int i = 0; i < a; i++) while (b) break; do \x7b \x7d while (a ? b : c[1]); " ++
      "switch (a) \x7b case 1: return b; \x7d \x7d")

/-- A source that ends inside the arguments of a call. -/
def cutShort : List UInt8 := Utf8.encode "int f(int a)\x7b if (a) defer \x7b g(a, b"

set_option maxRecDepth 100000 in
theorem disciplined_everyConstruct :
    (trace everyConstruct).stop? = none ∧ Ledger.run {} (trace everyConstruct).events.toList = some {} ∧
    Ledger.run {} (trace cutShort).events.toList =
      some ⟨[.scope, .deferral true, .implicitScope, .branch, .scope, .function], 3⟩ ∧
    ∃ more, Ledger.run {} ((trace cutShort).events.toList ++ more) = some {} := by
  have hstop : (trace everyConstruct).stop? = none := by decide +kernel
  exact ⟨hstop, (disciplined_of_trace everyConstruct).1 hstop, by decide +kernel, (disciplined_of_trace cutShort).2.1⟩

end Grammar

end Deferral
