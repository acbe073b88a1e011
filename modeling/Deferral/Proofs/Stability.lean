import Deferral.Proofs.Identity

/-!
# Sources without the keyword

Every deferred statement has its keyword, so a source without it is lowered to itself, and lowering it again changes
nothing (`stable_of_build`). Lowered text need not be a source again (`not_accepted_parenthesized`).
-/

namespace Deferral

open Forest

theorem Tree.Built.tag_ne {t : Tree} {source : List UInt8} {path : Path} {tokens : List Token} {f : Forest Entry}
    (h : t.Built source path tokens f) (hd : ∀ k ∈ tokens, k.isWord "defer" = false) :
    ∀ s ∈ t.reachable, t.tag s ≠ .deferred := by
  have hslots : t.reachable = (Forest.tree (.fresh .root (.unit path) ⟨0, source.length⟩) f).slots :=
    subtree_eq_slots h.stands.holds h.stands.length_le
  intro s hs htag
  rw [hslots] at hs
  obtain ⟨e, he, rfl⟩ := List.mem_map.1 hs
  obtain ⟨b, -, hshape, -⟩ := h.shaped.exists_below he
  have hc : e.node.construct = .deferred := h.stands.holds.construct_eq he ▸ Construct.eq_deferred htag
  simp only [Shape, hc] at hshape
  obtain ⟨-, ⟨k, hk, hword, -⟩, -⟩ := hshape
  simp [hd k hk] at hword

open Assembly

/-- A source that is accepted and does not have the keyword is lowered to itself. Its text is accepted again, and
lowering it once more gives the same. -/
theorem stable_of_build {source : List UInt8} {tokens : List Token} {t : Tree}
    (h : ((start []).build source).1 = .ok t) (hscan : Token.scan source = .ok tokens)
    (hd : ∀ k ∈ tokens, k.isWord "defer" = false) :
    ∃ l, (lower source).1 = .ok l ∧ Range.Wrote l.emission source ∧
      ((start []).build l.emission.output).1 = .ok t ∧ (lower l.emission.output).1 = .ok l := by
  obtain ⟨tokens', f, hb⟩ := exists_built h
  obtain rfl : tokens = tokens' := by simpa [hscan] using hb.scanned
  have hr := Firing.resolve_eq hb.stands rfl (hb.tag_ne hd)
  obtain ⟨l, hl, -, -, hemission⟩ := exists_lowered h
  have hw : Range.Wrote l.emission source := by
    rw [hemission, hr]
    exact hb.wrote
  exact ⟨l, hl, hw, by rw [hw.output, h], by rw [hw.output, hl]⟩

/-- Two alternatives, one of which leaves the function. -/
def leavingAlternative : List UInt8 := Utf8.encode "int f()\x7b if (a) b(); else return (c) + d; \x7d"

set_option maxRecDepth 100000 in
theorem stable_leavingAlternative : ∃ tokens t, ((start []).build leavingAlternative).1 = .ok t ∧
    Token.scan leavingAlternative = .ok tokens ∧ (∀ k ∈ tokens, k.isWord "defer" = false) ∧
      ∃ l, (lower leavingAlternative).1 = .ok l ∧ (lower l.emission.output).1 = .ok l := by
  obtain ⟨t, ht, hcheck⟩ := exists_tree_of_check [] leavingAlternative
    (fun _ => (Token.scan leavingAlternative).toOption.any fun tokens => tokens.all fun k => !k.isWord "defer")
    (by decide +kernel)
  cases hscan : Token.scan leavingAlternative with
  | error e => simp [hscan, Except.toOption] at hcheck
  | ok tokens =>
    have hd : ∀ k ∈ tokens, k.isWord "defer" = false := by simpa [hscan, Except.toOption] using hcheck
    obtain ⟨l, hl, -, -, hagain⟩ := stable_of_build ht hscan hd
    exact ⟨tokens, t, ht, rfl, hd, l, hl, hagain⟩

/-- A deferred statement, and a value that starts with a parenthesis. -/
def parenthesized : List UInt8 := Utf8.encode "int f()\x7b defer g(); return (a) + b; \x7d"

set_option maxRecDepth 100000 in
/-- The value is stored without the parenthesis it starts with, and what is written is accepted no more. -/
theorem not_accepted_parenthesized : ∃ l, (lower parenthesized).1 = .ok l ∧
    ∃ e, ((start []).build l.emission.output).1 = .error e := by
  obtain ⟨t, ht, hcheck⟩ := exists_tree_of_check [] parenthesized
    (fun t => ((start []).build ((Firing.resolve t).tree.emit
      (some (.file (.bytes parenthesized.toArray)))).output).1.toOption.isNone) (by decide +kernel)
  obtain ⟨l, hl, -, -, hemission⟩ := exists_lowered ht
  rw [← hemission] at hcheck
  refine ⟨l, hl, ?_⟩
  cases hb : ((start []).build l.emission.output).1 with
  | ok t => simp [hb, Except.toOption] at hcheck
  | error e => exact ⟨e, rfl⟩

end Deferral
