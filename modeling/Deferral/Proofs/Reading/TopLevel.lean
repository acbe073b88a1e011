import Deferral.Proofs.Recognition

/-!
# Functions at top level

Function definitions are reported and all else is passed over. What is passed over ends too late in just one case: a
name after a brace group is taken for a declared name, also if it names a type and begins a function. So a function
definition is reported unless it begins with the name of a type and follows a brace group of a construct that is passed
over (`reported_iff_of_trace`).
-/

namespace Deferral.Grammar

open List

/-! ## Where definitions begin -/

/-- `Boundary items types before after`: at top level a construct may begin between `before` and `after`, and there
`types` are known. It may begin next to whole constructs, and inside one that is passed over after a semicolon or a
brace group. -/
inductive Boundary (items : List Item) : (types : List String) → (before after : List Token) → Prop
  | between {items₁ items₂ : List Item} (h : items = items₁ ++ items₂) :
    Boundary items (known Token.libraryTypes items₁) (tokensOf items₁) (tokensOf items₂)
  | inside {items₁ items₂ : List Item} {ts m : List Token} {ms ms' : List (List Token)}
    (h : items = items₁ ++ .other ts :: items₂) (hm : members ts = ms ++ m :: ms') (hne : ms' ≠ [])
      (he : mayEnd m = true) :
    Boundary items (known Token.libraryTypes items₁) (tokensOf items₁ ++ (ms ++ [m]).flatten)
      (ms'.flatten ++ tokensOf items₂)

/-- A function begins after `before`, and its header is among the events. -/
def Reported (events : List Event) (items : List Item) (before : List Token) : Prop :=
  ∃ items₁ f items₂, items = items₁ ++ .function f :: items₂ ∧ before = tokensOf items₁ ∧
    mark .functionHeader f.closing.1.stop ∈ events

/-- At the end of `before` is a brace group of a construct that is passed over. -/
def AfterBlock (items : List Item) (before : List Token) : Prop :=
  ∃ items₁ ts items₂ ms m ms', items = items₁ ++ .other ts :: items₂ ∧ members ts = ms ++ m :: ms' ∧ isBlock m = true ∧
    before = tokensOf items₁ ++ (ms ++ [m]).flatten

section Boundaries

variable {source : List UInt8} {items items₁ items₂ : List Item} {types : List String} {before after : List Token}

theorem ne_nil_of_mem_members {ts m : List Token} (h : m ∈ members ts) : m ≠ [] := by
  fun_induction members ts with
  | case1 => cases h
  | case2 t ts ho close rest hc hlt ih =>
    rcases mem_cons.1 h with rfl | h
    · rw [length_cons] at hlt ⊢
      intro hnil
      rcases take_eq_nil_iff.1 hnil with hzero | hnil
      · omega
      · cases hnil
    · exact ih h
  | case3 =>
    obtain rfl := mem_singleton.1 h
    exact cons_ne_nil _ _
  | case4 t ts ho ih =>
    rcases mem_cons.1 h with rfl | h
    · exact cons_ne_nil _ _
    · exact ih h

@[simp] theorem tokensOf_append : tokensOf (items₁ ++ items₂) = tokensOf items₁ ++ tokensOf items₂ := flatMap_append

theorem header_mem (f : FunctionPhrase) :
    mark .functionHeader f.closing.1.stop ∈ unitEvents source (items₁ ++ .function f :: items₂) := by
  simp [unitEvents, Item.events, FunctionPhrase.events]

theorem startsType_of_definesFunction {ts : List Token} (h : definesFunction types ts = true) :
    ∃ t rest, ts = t :: rest ∧ t.startsType types = true := by
  simp only [definesFunction, Cursor.atFunctionDefinition, Bool.and_eq_true] at h
  obtain ⟨t, ht, hs⟩ := (Option.any_eq_true _ _).1 h.1.1.1
  obtain ⟨rest, hr⟩ := front?_eq_some.1 ht
  exact ⟨t, rest, hr, hs⟩

/-- The word that begins a type and goes on after a brace group is a name. -/
theorem isIdentifier_of_continues {t : Token} (hs : t.startsType types = true) (hc : continues t = true) :
    t.isIdentifier = true := by
  have hk : t.kind = .word := by simpa using (Bool.and_eq_true_iff.1 hs).1
  simpa [continues, Token.isPunct, hk] using hc

theorem Outline.reported (ho : Outline Token.libraryTypes (items₁ ++ items₂))
    (hd : definesFunction (known Token.libraryTypes items₁) (tokensOf items₂) = true) :
    Reported (unitEvents source (items₁ ++ items₂)) (items₁ ++ items₂) (tokensOf items₁) := by
  have ho := ho.append
  cases ho with
  | nil =>
    obtain ⟨t, rest, hr, -⟩ := startsType_of_definesFunction hd
    cases hr
  | @function _ f items _ _ => exact ⟨items₁, f, items, rfl, rfl, header_mem f⟩
  | other hd' => exact absurd (hd.symm.trans hd') nofun

/-- A definition inside a construct that is passed over follows a brace group and begins with a name. -/
theorem Outline.inside {ts m : List Token} {ms ms' : List (List Token)}
    (ho : Outline Token.libraryTypes (items₁ ++ .other ts :: items₂)) (hm : members ts = ms ++ m :: ms')
    (hne : ms' ≠ []) (he : mayEnd m = true)
    (hd : definesFunction (known Token.libraryTypes items₁) (ms'.flatten ++ tokensOf items₂) = true) :
    isBlock m = true ∧ (ms'.flatten ++ tokensOf items₂).head?.any (·.isIdentifier) = true := by
  have ho := ho.append
  cases ho with
  | other _ hp _ =>
    obtain ⟨hb, hc⟩ := hp.inner ms m ms' hm hne he
    obtain ⟨t, rest, hr, hs⟩ := startsType_of_definesFunction hd
    refine ⟨hb, ?_⟩
    obtain ⟨u, hu, hcont⟩ := (Option.any_eq_true _ _).1 hc
    have hhead : (ms'.flatten ++ tokensOf items₂).head? = some u := by rw [head?_append, hu]; rfl
    obtain rfl : t = u := by simpa [hr] using hhead
    simpa [hr] using isIdentifier_of_continues hs hcont

theorem Boundary.append_eq (h : Boundary items types before after) : before ++ after = tokensOf items := by
  cases h with
  | between h => rw [h, tokensOf_append]
  | @inside items₁ items₂ ts m ms ms' h hm =>
    have hts := flatten_members ts
    rw [hm] at hts
    subst h
    rw [tokensOf_append, show tokensOf (.other ts :: items₂) = ts ++ tokensOf items₂ from rfl, ← hts]
    simp

theorem flatten_ne_nil {ts : List Token} {ms ms' : List (List Token)} (h : members ts = ms ++ ms') (hne : ms' ≠ []) :
    ms'.flatten ≠ [] := by
  cases ms' with
  | nil => exact absurd rfl hne
  | cons m ms' =>
    have hm : m ≠ [] := ne_nil_of_mem_members (show m ∈ members ts by simp [h])
    simp [hm]

/-- No name begins a function right after a brace group of a construct that is passed over. -/
theorem Outline.not_reported {events : List Event} (ho : Outline Token.libraryTypes items)
    (heq : before ++ after = tokensOf items) (hr : Reported events items before) (hb : AfterBlock items before) :
    after.head?.any (·.isIdentifier) = false := by
  obtain ⟨items₁, f, items₂, rfl, rfl, -⟩ := hr
  obtain ⟨others, ts, rest, ms, m, ms', hitems, hm, hblock, hbefore⟩ := hb
  have hts : ts = (ms ++ [m]).flatten ++ ms'.flatten := by rw [← flatten_members ts, hm]; simp
  have hm' : members ts = (ms ++ [m]) ++ ms' := by simp [hm]
  rcases append_eq_append_iff.1 hitems with ⟨more, rfl, -⟩ | ⟨more, rfl, hrest⟩
  · -- The group would be before the end of what is before the function.
    rw [tokensOf_append, append_assoc, self_eq_append_right, append_eq_nil_iff, flatten_append,
      append_eq_nil_iff] at hbefore
    have hne : m ≠ [] := ne_nil_of_mem_members (show m ∈ members ts by simp [hm])
    simp [hne] at hbefore
  · cases more with
    | nil => cases hrest
    | cons item more =>
      obtain ⟨rfl, rfl⟩ := List.cons.inj hrest
      rw [tokensOf_append, append_cancel_left_eq, show tokensOf (.other ts :: more) = ts ++ tokensOf more from rfl,
        hts, append_assoc, append_right_eq_self, append_eq_nil_iff] at hbefore
      -- So the group is the last member, and what follows it does not go on.
      obtain rfl : ms' = [] := by
        by_contra hne
        exact flatten_ne_nil hm' hne hbefore.1
      have hafter : after = tokensOf (more ++ .function f :: items₂) := by
        rw [tokensOf_append, hbefore.2, nil_append]
        exact append_cancel_left (heq.trans tokensOf_append)
      rw [append_assoc] at ho
      cases ho.append with
      | other _ hp _ =>
        have hlast : (tokensOf (more ++ .function f :: items₂)).head?.any continues = false := hp.last ms m hm hblock
        rw [← hafter] at hlast
        cases after with
        | nil => rfl
        | cons t after =>
          refine Bool.eq_false_iff.2 fun hi => ?_
          have hi : t.isIdentifier = true := hi
          simp [continues, hi] at hlast

end Boundaries

/-- **Definitions at top level.** In a source that is accepted, wherever a construct may begin, what begins like a
function definition is reported with a header of its own, unless it begins with a name and follows a brace group of a
construct that is passed over. There it is never reported. -/
theorem reported_iff_of_trace {source : List UInt8} (h : (trace source).stop? = none) :
    ∃ (tokens : List Token) (items : List Item), Token.scan source = .ok tokens ∧ tokens = tokensOf items ∧
      (trace source).events.toList = unitEvents source items ∧
      ∀ types before after, Boundary items types before after → definesFunction types after = true →
        (Reported (trace source).events.toList items before ↔
          ¬(AfterBlock items before ∧ after.head?.any (·.isIdentifier) = true)) := by
  obtain ⟨tokens, items, hs, ht, he, ho⟩ := exists_outline_of_trace h
  refine ⟨tokens, items, hs, ht, he, fun types before after hb hd => ⟨fun hr hnot => ?_, fun hnot => ?_⟩⟩
  · have hno := ho.not_reported hb.append_eq hr hnot.1
    rw [hnot.2] at hno
    cases hno
  · rw [he]
    cases hb with
    | between h =>
      subst h
      exact ho.reported hd
    | inside h hm hne hend =>
      subst h
      obtain ⟨hblock, hname⟩ := ho.inside hm hne hend hd
      exact absurd ⟨⟨_, _, _, _, _, _, rfl, hm, hblock, rfl⟩, hname⟩ hnot

/-- A function, a construct without type words, and a function that begins with a declared type. -/
def amongOthers : List UInt8 := Utf8.encode "int g() \x7b \x7d foo() \x7b \x7d typedef int T; T h() \x7b \x7d"

set_option maxRecDepth 100000 in
/-- The first function begins at the start of the source, where a construct may begin, and is reported. -/
theorem reported_iff_of_trace_amongOthers : (trace amongOthers).stop? = none ∧
    ∃ (tokens : List Token) (items : List Item), Token.scan amongOthers = .ok tokens ∧ tokens = tokensOf items ∧
      (trace amongOthers).events.toList = unitEvents amongOthers items ∧
      (∀ types before after, Boundary items types before after → definesFunction types after = true →
        (Reported (trace amongOthers).events.toList items before ↔
          ¬(AfterBlock items before ∧ after.head?.any (·.isIdentifier) = true))) ∧
      Boundary items Token.libraryTypes [] tokens ∧ definesFunction Token.libraryTypes tokens = true ∧
      Reported (trace amongOthers).events.toList items [] := by
  have hstop : (trace amongOthers).stop? = none := by decide +kernel
  obtain ⟨tokens, items, hscan, rfl, hevents, h⟩ := reported_iff_of_trace hstop
  have hboundary : Boundary items Token.libraryTypes [] (tokensOf items) :=
    @Boundary.between items [] items rfl
  have hdefines : definesFunction Token.libraryTypes (tokensOf items) = true := by
    have hcheck : (Token.scan amongOthers).toOption.any (definesFunction Token.libraryTypes) = true := by decide +kernel
    simpa [hscan, Except.toOption] using hcheck
  refine ⟨hstop, _, items, hscan, rfl, hevents, h, hboundary, hdefines, (h _ _ _ hboundary hdefines).2 ?_⟩
  rintro ⟨⟨_, ts, _, ms, m, ms', -, hm, -, hbefore⟩, -⟩
  have hne : m ≠ [] := ne_nil_of_mem_members (show m ∈ members ts by simp [hm])
  simp [hne] at hbefore

/-- A function that begins with the name of a type, after a construct without type words. -/
def afterUnspecified : List UInt8 := Utf8.encode "foo() \x7b \x7d size_t g() \x7b \x7d"

set_option maxRecDepth 100000 in
/-- After the closing brace there is all that a function definition begins with, but no function is reported. -/
theorem not_reported_afterUnspecified :
    (trace afterUnspecified).stop? = none ∧
    ((Token.scan afterUnspecified).toOption.any fun tokens => (tokens.take 5).getLast?.any (·.isPunct "\x7d") &&
      definesFunction Token.libraryTypes (tokens.drop 5)) = true ∧
    (trace afterUnspecified).events.toList = [mark .unitEnd 24] := by
  decide +kernel

end Deferral.Grammar
