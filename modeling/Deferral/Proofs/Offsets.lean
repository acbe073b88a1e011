import Deferral.Proofs.Agreement
import Deferral.Proofs.Silence

/-!
# Offsets rise and stay inside the source

Recognition reports its events in the order of the source. A leaf has text, which starts where all earlier events have
ended (`offsets_of_trace`). What an assembly says about events stays inside the source with them, so whoever turns a
source down, it is at a place in it.
-/

namespace Deferral

open List

namespace Assembly

/-- Events that are before `n` cannot be turned down past it. -/
theorem handleAll_before {n : Nat} : ∀ {es : List Event} {a : Assembly}, (∀ e ∈ es, e.offset ≤ n) → a.lastEnd ≤ n →
    a.failure? = none → ∀ f, (a.handleAll es).2 = some (.fault f) → f.offset ≤ n
  | [], _, _, _, _, f, h => by cases h
  | e :: es, a, hes, ha, hf, f, h => by
    obtain ⟨he, hes⟩ := forall_mem_cons.1 hes
    have hbefore := (tame_dispatch he a a.log ha).1
    simp only [handleAll, handle, hf] at h
    cases hd : dispatch e a with
    | ok _ b =>
      rw [hd] at h hbefore
      exact handleAll_before hes hbefore ((failure_of_dispatch hd).trans hf) f h
    | error halt b =>
      rw [hd] at h hbefore
      cases halt with
      | fault g =>
        obtain rfl := Halt.fault.inj (Option.some.inj h)
        exact hbefore
      | outOfRange base staged => cases h

end Assembly

namespace Grammar

open Assembly

variable {S : Tokenized} {es : List Event} {e : Event}

/-- The text of a leaf is not empty and comes after all earlier events. -/
theorem Fair.leaf (h : Fair S es e) (ht : e.isText = true) : e.leafStart < e.offset ∧
    (∀ e' ∈ es, e'.offset ≤ e.leafStart) ∧ (e.start? = none → e.literal.utf8ByteSize ≤ e.offset) := by
  obtain ⟨t, -, u, -, hlt, hoff, hafter, ⟨hstart, -⟩ | ⟨hnone, rfl, hlit⟩⟩ := h.text ht
  · rw [Event.leafStart, hstart, hoff]
    exact ⟨hlt, hafter, fun h => by cases h⟩
  · -- Without a start the text is that of one token, which is UTF-8 since it is not empty.
    have hne : u.text ≠ "" := by
      simp only [Event.isText, hnone, Option.isSome_none, Bool.false_or, Bool.and_eq_true, hlit] at ht
      intro hempty
      simp [hempty] at ht
    rw [Event.leafStart, hnone, hoff, hlit, Token.size_text hne, Option.getD_none, Token.stop, Nat.add_sub_cancel]
    exact ⟨hlt, hafter, fun _ => Nat.le_add_left ..⟩

theorem Told.pairwise (h : Told S es) : (es.map Event.offset).Pairwise (· ≤ ·) := by
  induction h with
  | nil => exact .nil
  | push _ he ih =>
    rw [map_append, map_singleton, pairwise_append]
    refine ⟨ih, pairwise_singleton .., fun n hn m hm => ?_⟩
    obtain ⟨e', he', rfl⟩ := mem_map.1 hn
    rw [mem_singleton.1 hm]
    exact he.after e' he'

/-- **Offsets are in order.** The events of a source come in the order of their offsets, none of which is past its end.
The text of a leaf, which starts at the start it is reported with or as many bytes before its end as it has, is not
empty and starts where all earlier events have ended. The place where recognition stops, or an assembly that takes the
events finds a fault, is in the source. -/
theorem offsets_of_trace (source : List UInt8) :
    ((trace source).events.toList.map Event.offset).Pairwise (· ≤ ·) ∧
    (∀ e ∈ (trace source).events.toList, e.offset ≤ source.length) ∧
    (∀ es e rest, (trace source).events.toList = es ++ e :: rest → e.isText = true → e.leafStart < e.offset ∧
      (∀ e' ∈ es, e'.offset ≤ e.leafStart) ∧ (e.start? = none → e.literal.utf8ByteSize ≤ e.offset)) ∧
    (∀ stop, (trace source).stop? = some stop → ∃ e, stop = .rejected e ∧ e.offset ≤ source.length) ∧
    ∀ path error, ((start path).feed source).2 = some error →
      (∀ stop, error = .grammar stop → ∃ e, stop = .rejected e ∧ e.offset ≤ source.length) ∧
      ∀ f, error = .assembly (.fault f) → f.offset ≤ source.length := by
  have hle : ∀ e ∈ (trace source).events.toList, e.offset ≤ source.length := by
    intro e he
    obtain ⟨S, es, rfl, hfair⟩ := exists_fair_of_trace he
    exact hfair.le
  have htold := told_of_trace source
  refine ⟨?_, hle, fun es e rest hes ht => ?_, fun stop => rejected_of_trace, fun path error herror => ?_⟩
  · rcases htold with hnil | ⟨S, -, htold⟩
    · simp [hnil]
    · exact htold.pairwise
  · rcases htold with hnil | ⟨S, -, htold⟩
    · simp [hnil] at hes
    · exact (htold.fair hes).leaf ht
  · have hbefore := handleAll_before (a := start path) hle (Nat.zero_le _) rfl
    simp only [feed] at herror
    generalize (start path).handleAll (trace source).events.toList = handled at hbefore herror
    obtain ⟨a, _ | halt⟩ := handled
    · obtain ⟨stop, h, rfl⟩ := Option.map_eq_some_iff.1 herror
      exact ⟨fun stop' heq => rejected_of_trace (BuildError.grammar.inj heq ▸ h), fun f heq => by cases heq⟩
    · cases herror
      exact ⟨fun stop heq => (by cases heq), fun f heq => hbefore f (congrArg some (BuildError.assembly.inj heq))⟩

set_option maxRecDepth 100000 in
/-- A source that an assembly turns down, and its first leaf. -/
theorem offsets_loneLabel :
    (∃ f, ((start []).feed loneLabel).2 = some (.assembly (.fault f)) ∧ f.offset ≤ loneLabel.length) ∧
    ∃ es e rest, (trace loneLabel).events.toList = es ++ e :: rest ∧ e.isText = true ∧ e.leafStart < e.offset := by
  have h := offsets_of_trace loneLabel
  constructor
  · have hfeed : ((start []).feed loneLabel).2 =
        some (.assembly (.fault (.unbalancedScope .implicitScopeEnd (.construct .caseLabel) 25))) := by decide +kernel
    exact ⟨_, hfeed, (h.2.2.2.2 [] _ hfeed).2 _ rfl⟩
  · have hes : (trace loneLabel).events.toList =
        [] ++ ⟨.typeWord, 4, "void", none⟩ :: (trace loneLabel).events.toList.tail := by decide +kernel
    exact ⟨_, _, _, hes, by decide, (h.2.2.1 _ _ _ hes (by decide)).1⟩

end Grammar

end Deferral
