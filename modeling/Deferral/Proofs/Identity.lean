import Deferral.Lowering
import Deferral.Proofs.Building
import Deferral.Proofs.PlanWalk
import Deferral.Proofs.Writing

/-!
# Sources come back unchanged

The tree of a source is written as the source, byte by byte. If it has no deferred statement, nothing is planned, and
lowering the source gives it back as well (`identity_of_build`).
-/

namespace Deferral

open Forest Range

/-! ## A tree as it was built -/

namespace Forest

variable {f : Forest Entry}

theorem tame_of_plain (A : Actions → Prop) (hA : A {}) (hp : f.Every fun e _ => e.Plain) : f.Tame A :=
  hp.mono fun _ _ he _ => ⟨he.actions_eq ▸ hA, he.lead?_eq, he.replacement?_eq⟩

theorem splices_of_plain (n : Nat) (hp : f.Every fun e _ => e.Plain) : f.Splices n := by
  intro e he ha
  obtain ⟨_, hplain⟩ := hp.exists_below he
  simp [hplain.status_eq] at ha

end Forest

theorem Tree.Built.plain {t : Tree} {source : List UInt8} {path : Path} {tokens : List Token} {f : Forest Entry}
    (h : t.Built source path tokens f) :
    (Forest.tree (.fresh .root (.unit path) ⟨0, source.length⟩) f).Every fun e _ => e.Plain :=
  h.shaped.mono fun _ _ he => he.1

theorem requests_none : Requests (· = {}) where
  none := rfl
  leading h := by rw [h]; rfl
  trailing h := by rw [h]; rfl
  union ha hb := by rw [ha, hb]; rfl

theorem Range.Bare.written_eq {source : List UInt8} {r : Range} (h : r.Bare (· = {})) :
    r.written source = erased (r.pieces source) ∧ r.mark = [] := by
  have ho : r.actions.omitted = false := by rw [h.requests]
  rw [written_shown ho, erased_inPlace h.inPlace ho]
  simp [opening, closing, h.requests, h.lead, mark, h.inPlace, h.own, Utf8.encode]

namespace Tree.Built

variable {t : Tree} {source : List UInt8} {path : Path} {tokens : List Token} {f : Forest Entry}

section

variable (h : t.Built source path tokens f)
include h

theorem eq_nil (hs : source.length = 0) : f = .nil := by
  cases f with
  | nil => rfl
  | node e b r =>
    obtain ⟨⟨-, ⟨⟨_, _, -, -, hpos, -⟩, -⟩, -⟩, -⟩ := h.shaped
    have hw := h.within
    rw [hs, within_present (Span.ne_absent hpos)] at hw
    have := hw.2.2.le
    omega

theorem presentable :
    Presentable source.length (.fresh .root (.unit path) ⟨0, source.length⟩) f where
  stays := .inl rfl
  span := rfl
  empty := h.eq_nil
  inOrder := h.within.inOrder ((every_tree.1 h.plain).2.mono fun _ _ he => he.inPlace)
  tame := tame_of_plain _ rfl h.plain
  splices := splices_of_plain _ h.plain

theorem bare_cuts : ∀ c ∈ t.cuts.cuts, c.Bare (· = {}) := by
  rw [Presentable.cuts_eq h.stands rfl]
  refine forall_cutAll requests_none (fun _ hr => hr) (fun _ _ hr => ⟨hr.inPlace, hr.requests, hr.lead, hr.own⟩)
    (tame_of_plain (· = {}) rfl h.plain).bareAround fun r hr => ?_
  obtain ⟨e, he, k, hs⟩ := exists_shows hr
  obtain ⟨_, hplain⟩ := h.plain.exists_below he
  rcases hs with hs | hs
  · cases hs with
    | omitted hs | spliced hs | replaced hs => simp [hplain.status_eq] at hs
  · cases hs
    exact ⟨rfl, hplain.actions_eq, hplain.lead?_eq, hplain.replacement?_eq⟩

theorem wrote : Wrote (t.emit (some (.file (.bytes source.toArray)))) source := by
  have hbare : ∀ c ∈ t.cuts.cuts, c.written source = erased (c.pieces source) ∧ c.mark = [] :=
    fun c hc => (h.bare_cuts c hc).written_eq
  have htext : t.cuts.cuts.flatMap (written source) = source := by
    have hmarks : t.cuts.cuts.flatMap mark = [] := List.flatMap_eq_nil_iff.2 fun c hc => (hbare c hc).2
    have herased := erased_eq_rewrite source (h.presentable.contiguous h.stands rfl) (Nat.le_refl 0)
    rw [sourceText_empty (Nat.le_refl 0), List.nil_append, hmarks, rewrite, sourceText_all, erased_flatMap] at herased
    exact (List.flatMap_congr fun c hc => (hbare c hc).1).trans herased
  have hw := h.presentable.wrote h.stands rfl
  rwa [htext] at hw

end

end Tree.Built

/-! ## Nothing to fire -/

namespace Firing

variable {t : Tree}

/-- Nothing has been planned, and nothing is armed. -/
structure Plan.Idle (p : Plan) : Prop where
  armed : p.armed = []
  armedTotal : p.armedTotal = 0
  edits : p.edits = #[]
  firings : p.firings = #[]
  log : p.log = #[]

namespace Plan.Idle

variable {p : Plan}

theorem exitAtEnd (h : p.Idle) (scope : Placed) : (p.exitAtEnd t scope).Idle := by
  have howned : p.owned scope = [] := by simp [owned, h.armed]
  have he : p.endEdits t scope = [] := by simp [endEdits, howned]
  have hf : p.endFirings t scope = [] := by simp [endFirings, howned]
  rw [exitAtEnd_eq, he, hf, after_nil]
  exact ⟨by simp [h.armed], h.armedTotal, h.edits, h.firings, h.log⟩

theorem closeFrom (h : p.Idle) (d : Nat) : (p.closeFrom t d).Idle := by
  have hfold : ∀ (left : List Placed) (q : Plan), q.Idle → (left.foldl (Plan.exitAtEnd t) q).Idle := by
    intro left
    induction left with
    | nil => exact fun q hq => hq
    | cons scope left ih => exact fun q hq => ih _ (hq.exitAtEnd scope)
  exact hfold _ _ { h with }

theorem exitEarly (h : p.Idle) (jump : Slot) (exit : Exit) : p.exitEarly t jump exit = p := by
  have howed : p.owed t exit = [] := by
    refine List.flatMap_eq_nil_iff.2 fun scope _ => ?_
    simp [owned, h.armed]
  rw [exitEarly_eq, exitEdits, howed]
  simp

theorem enter (h : p.Idle) {s : Slot} (hs : t.tag s ≠ .deferred) (d : Nat) : (p.enter t s d).Idle := by
  have hopen : (p.open s d).Idle := { h with }
  have hearly : ∀ exit, (p.exitEarly t s exit).Idle := fun exit => by rwa [h.exitEarly]
  unfold Plan.enter
  cases hc : t.construct s with
  | scope | function | loop | branch | caseLabel => exact hopen
  | deferred => exact absurd (congrArg Construct.tag hc) hs
  | returned => exact hearly _
  | jump j => cases j <;> exact hearly _
  | _ => exact h

theorem fire {f : Forest Entry} (h : p.Idle) (hf : ∀ s ∈ f.slots, t.tag s ≠ .deferred) (d : Nat) :
    (fire t d f p).Idle := by
  induction f generalizing p d with
  | nil => exact h
  | node e b r ihb ihr =>
    simp only [slots_node, List.mem_cons, List.mem_append] at hf
    have he := hf e.slot (.inl rfl)
    rw [Firing.fire, if_neg he]
    have hb := ihb (h.enter he d) (fun s hs => hf s (.inr (.inl hs))) (d + 1)
    exact ihr (hb.closeFrom d) (fun s hs => hf s (.inr (.inr hs))) d

end Plan.Idle

theorem resolve_eq {e : Entry} {b : Forest Entry} {low : Nat} (h : t.Stands none low (.tree e b)) (he : e.slot = .root)
    (hd : ∀ s ∈ t.reachable, t.tag s ≠ .deferred) :
    resolve t = { tree := t, armed := 0, firings := [], log := [] } := by
  rw [Tree.reachable, ← he, Tree.subtree_eq_slots h.holds h.length_le] at hd
  have hidle := Plan.Idle.fire (t := t) (p := {}) ⟨rfl, rfl, rfl, rfl, rfl⟩ hd 0
  have hplan : plan t = (fire t 0 (.tree e b) {}).closeFrom t 0 := by
    rw [plan_eq h he, Plan.finish, (hidle.closeFrom 0).armed]
    rfl
  have hidle : (plan t).Idle := hplan ▸ hidle.closeFrom 0
  simp [resolve, hidle.edits, hidle.armedTotal, hidle.firings, hidle.log, applyAll]

end Firing

/-! ## The identity -/

open Assembly

theorem exists_lowered {source : List UInt8} {t : Tree} (h : ((start []).build source).1 = .ok t) :
    ∃ l, (lower source).1 = .ok l ∧ l.tree = (Firing.resolve t).tree ∧
      l.resolved? = some ((Firing.resolve t).armed, (Firing.resolve t).firings.length) ∧
        l.emission = (Firing.resolve t).tree.emit (some (.file (.bytes source.toArray))) := by
  let r := Firing.resolve t
  refine ⟨⟨r.tree, some (r.armed, r.firings.length), r.tree.emit (some (.file (.bytes source.toArray)))⟩, ?_, rfl, rfl,
    rfl⟩
  cases hbuild : (start []).build source with
  | mk result a =>
    obtain rfl : result = .ok t := by simpa [hbuild] using h
    simp [lower, hbuild, lowerTree, r]

/-- A source that is accepted comes back from its tree. If the tree has no deferred statement, resolving it changes
nothing, and lowering the source gives it back. -/
theorem identity_of_build {source : List UInt8} {path : Path} {t : Tree}
    (h : ((start path).build source).1 = .ok t) :
    Wrote (t.emit (some (.file (.bytes source.toArray)))) source ∧
      ((∀ s ∈ t.reachable, t.tag s ≠ .deferred) →
        Firing.resolve t = { tree := t, armed := 0, firings := [], log := [] } ∧
        (path = [] → ∃ l, (lower source).1 = .ok l ∧ l.tree = t ∧ l.resolved? = some (0, 0) ∧
          Wrote l.emission source)) := by
  obtain ⟨tokens, f, hb⟩ := exists_built h
  refine ⟨hb.wrote, fun hd => ?_⟩
  have hr := Firing.resolve_eq hb.stands rfl hd
  refine ⟨hr, ?_⟩
  rintro rfl
  obtain ⟨l, hl, htree, hresolved, hemission⟩ := exists_lowered h
  rw [hr] at htree hresolved hemission
  exact ⟨l, hl, htree, hresolved, hemission ▸ hb.wrote⟩

/-- A comment that is no text, a branch, and no deferred statement. -/
def withoutDefers : List UInt8 :=
  Utf8.encode "int f()\x7b/*" ++ [0xff] ++ Utf8.encode "*/if(a)b;return c;\x7d"

set_option maxRecDepth 100000 in
theorem identity_withoutDefers : ∃ t, ((start []).build withoutDefers).1 = .ok t ∧
    (∀ s ∈ t.reachable, t.tag s ≠ .deferred) ∧ (Firing.resolve t).tree = t ∧
      ∃ l, (lower withoutDefers).1 = .ok l ∧ l.emission.output = withoutDefers := by
  obtain ⟨t, ht, hcheck⟩ := exists_tree_of_check [] withoutDefers
    (fun t => t.reachable.all (t.tag · != .deferred)) (by decide +kernel)
  have hd : ∀ s ∈ t.reachable, t.tag s ≠ .deferred := by simpa using hcheck
  obtain ⟨-, h⟩ := identity_of_build ht
  obtain ⟨hr, hl⟩ := h hd
  obtain ⟨l, hl, -, -, hw⟩ := hl rfl
  exact ⟨t, ht, hd, by rw [hr], l, hl, hw.output⟩

end Deferral
