import Deferral.Proofs.SpanNesting

/-!
# Labels that fall through

A label is noted to fall through when the next one is read, by what has been read after it until then. Blocks that are
dissolved later do not change how it ends, so what is noted is true of the finished tree.
-/

namespace Deferral.Assembly

open Forest

/-- **Labels that fall through.** In the tree of a source, after a label come only labels, and a label falls through
exactly if another one comes after it and no `break` ends it in the finished tree. -/
theorem fallsThrough_of_build {source : List UInt8} {path : Path} {t : Tree}
    (h : ((start path).build source).1 = .ok t) :
    ∀ p ∈ t.reachable, ∀ before s after, t.children p = before ++ s :: after → t.tag s = .caseLabel →
      (∀ x ∈ after, t.tag x = .caseLabel) ∧
      ∃ text, t.construct s = .caseLabel text (!after.isEmpty && !t.endsInBreak s) := by
  intro p hp before s after hchildren hs
  obtain ⟨tokens, f, hbuilt⟩ := exists_built h
  obtain ⟨e, b, rfl, hm⟩ := hbuilt.exists_member hp
  rw [hm.children_eq] at hchildren
  obtain ⟨xs, ys, hroots, -, hys⟩ := List.map_eq_append_iff.1 hchildren
  obtain ⟨l, m, rfl, -, rfl⟩ := exists_append_of_roots hroots
  obtain ⟨-, hholds⟩ := Tree.holds_append.1 hm.holds
  cases m with
  | nil => cases hys
  | node x d r =>
    obtain ⟨rfl, rfl⟩ := List.cons.inj hys
    rw [hholds.tag_eq (e := x) (by simp)] at hs
    obtain ⟨hafter, text, hc⟩ := hm.marked.right.1 hs
    refine ⟨List.forall_mem_map.2 fun k hk => ?_, text, ?_⟩
    · rw [hholds.tag_eq (by simp [mem_members_of_mem_roots hk]), hafter k hk]
    · rw [hholds.construct_eq (e := x) (by simp), hc, hholds.2.1.endsInBreak_eq hholds.children_eq]
      cases r <;> rfl

/-- Labels that end with and without a `break`, in blocks and next to each other. -/
def labelsOfAllSorts : List UInt8 := Utf8.encode
  ("int f(int n)\x7bswitch(n)\x7bcase 1:case 2:g();case 3:\x7bg();break;\x7dcase 4:\x7b\x7bbreak;\x7d\x7d" ++
    "case 5:if(n)break;default:break;\x7d\x7d")

set_option maxRecDepth 100000 in
theorem fallsThrough_labelsOfAllSorts : ∃ t, ((start []).build labelsOfAllSorts).1 = .ok t ∧
    ⟨5⟩ ∈ t.reachable ∧ t.children ⟨5⟩ = [⟨6⟩, ⟨9⟩, ⟨10⟩] ++ ⟨13⟩ :: [⟨18⟩, ⟨22⟩, ⟨28⟩] ∧
    t.tag ⟨10⟩ = .caseLabel ∧ t.tag ⟨13⟩ = .caseLabel ∧ t.endsInBreak ⟨10⟩ = false ∧ t.endsInBreak ⟨13⟩ = true ∧
    (∀ s ∈ [⟨13⟩, ⟨18⟩, ⟨22⟩, ⟨28⟩], t.tag s = .caseLabel) ∧
    (∃ text, t.construct ⟨10⟩ = .caseLabel text true) ∧ (∃ text, t.construct ⟨13⟩ = .caseLabel text false) ∧
    ∃ text, t.construct ⟨28⟩ = .caseLabel text false := by
  obtain ⟨t, ht, hcheck⟩ := exists_tree_of_check [] labelsOfAllSorts
    (fun t => ⟨5⟩ ∈ t.reachable ∧ t.children ⟨5⟩ = [⟨6⟩, ⟨9⟩, ⟨10⟩] ++ ⟨13⟩ :: [⟨18⟩, ⟨22⟩, ⟨28⟩] ∧
      t.tag ⟨10⟩ = .caseLabel ∧ t.tag ⟨13⟩ = .caseLabel ∧ t.endsInBreak ⟨10⟩ = false ∧ t.endsInBreak ⟨13⟩ = true)
    (by decide +kernel)
  obtain ⟨hp, hchildren, htag₁₀, htag₁₃, hends₁₀, hends₁₃⟩ := of_decide_eq_true hcheck
  have hfalls := fallsThrough_of_build ht ⟨5⟩ hp
  obtain ⟨hafter, text₁₀, h₁₀⟩ := hfalls [⟨6⟩, ⟨9⟩] ⟨10⟩ [⟨13⟩, ⟨18⟩, ⟨22⟩, ⟨28⟩] hchildren htag₁₀
  obtain ⟨-, text₁₃, h₁₃⟩ := hfalls [⟨6⟩, ⟨9⟩, ⟨10⟩] ⟨13⟩ [⟨18⟩, ⟨22⟩, ⟨28⟩] hchildren htag₁₃
  obtain ⟨-, text₂₈, h₂₈⟩ := hfalls [⟨6⟩, ⟨9⟩, ⟨10⟩, ⟨13⟩, ⟨18⟩, ⟨22⟩] ⟨28⟩ [] hchildren (hafter ⟨28⟩ (by simp))
  rw [hends₁₀] at h₁₀
  rw [hends₁₃] at h₁₃
  exact ⟨t, ht, hp, hchildren, htag₁₀, htag₁₃, hends₁₀, hends₁₃, hafter, ⟨text₁₀, h₁₀⟩, ⟨text₁₃, h₁₃⟩, text₂₈, h₂₈⟩

end Deferral.Assembly
