import Deferral.Proofs.Building
import Mathlib.Data.List.Chain

/-!
# Nested spans

The tree of a source covers it without overlap: every node with text lies inside its parent, siblings are in order, and
the statements of one list leave no gap between them (`Tree.Nested`). The nodes that can be reached are the members of
the forest that the tree was built with, so each part is read off the forest member by member.
-/

namespace Deferral

open Construct (Tag)
open List

namespace Forest

variable {lo hi : Nat}

theorem Within.root {f : Forest Entry} (h : f.Within lo hi) {e : Entry} (he : e ∈ f.roots)
    (hp : e.node.span ≠ .absent) : lo ≤ e.node.span.start ∧ e.node.span.stop ≤ hi := by
  obtain ⟨_, h⟩ := h.spanned.exists_below (mem_members_of_mem_roots he)
  rcases h with ⟨ha, -⟩ | ⟨hl, hh, -⟩
  · exact absurd ha hp
  · exact ⟨hl, hh⟩

theorem Within.pairwise : ∀ {f : Forest Entry} {lo hi : Nat}, f.Within lo hi → f.roots.Pairwise fun x y =>
    x.node.span ≠ .absent → y.node.span ≠ .absent → x.node.span.stop ≤ y.node.span.start
  | nil, _, _, _ => .nil
  | node _ _ _, _, _, .inl ⟨ha, _, hr⟩ => .cons (fun _ _ hp => absurd ha hp) hr.pairwise
  | node _ _ _, _, _, .inr ⟨_, _, _, hr⟩ => .cons (fun _ hy _ hp => (hr.root hy hp).1) hr.pairwise

end Forest

/-! ## Lists of statements -/

/-- Neighbours in the list of statements of a node: the second starts where the first ended or, as an alternative of a
branch, right after the keyword `else`. -/
def Meet (tokens : List Token) (owner : Tag) (x y : Span) : Prop :=
  x.stop = y.start ∨ owner = .branch ∧ ElseBetween tokens x.stop y.start

section Chains

variable {tokens : List Token} {owner : Tag} {ks : List Entry}

/-- The entries other than headers, each meeting the next. -/
def Meeting (tokens : List Token) (owner : Tag) (kids : List Entry) : Prop :=
  (kids.filter (·.node.tag != .group)).IsChain fun x y => Meet tokens owner x.node.span y.node.span

theorem meeting_group {g : Entry} (hg : g.node.tag = .group) :
    Meeting tokens owner (g :: ks) ↔ Meeting tokens owner ks := by
  simp [Meeting, hg]

theorem Tiles.isChain : ∀ {ks : List Entry} {lo hi : Nat}, Tiles lo hi ks →
    ks.IsChain fun x y => Meet tokens owner x.node.span y.node.span
  | [], _, _, _ => .nil
  | [_], _, _, _ => .singleton _
  | _ :: _ :: _, _, _, ⟨_, _, _, h⟩ => .cons_cons (.inl h.1.symm) h.isChain

theorem meeting_of_tiles {lo hi : Nat} (h : Tiles lo hi ks) (hk : ∀ k ∈ ks, k.node.tag ≠ .group) :
    Meeting tokens owner ks := by
  rw [Meeting, filter_eq_self.2 (by simpa using hk)]
  exact h.isChain

theorem Items.meeting (h : Items ks) : Meeting tokens owner ks := by
  obtain ⟨⟨_, _, ht⟩, hs⟩ := h
  exact meeting_of_tiles ht fun k hk => (hs.tag_ne hk).1

theorem Governs.meeting {braced : Bool} {stop : Nat} (h : Governs braced stop ks) : Meeting tokens owner ks := by
  rcases h with ⟨h, -⟩ | ⟨x, rfl, hx, -⟩
  · exact h.meeting
  · simp [Meeting, hx]

theorem Headed.meeting {braced : Bool} {stop : Nat} (h : Headed braced stop ks) : Meeting tokens owner ks := by
  obtain ⟨g, ls, rfl, hg, hls⟩ := h
  exact (meeting_group hg).2 hls.meeting

theorem Alternatives.meeting (h : Alternatives tokens ks) : Meeting tokens .branch ks := by
  obtain ⟨g, x, y, rfl, hg, hx, hy, he⟩ := h
  refine (meeting_group hg).2 ?_
  simpa [Meeting, Meet, hx, hy] using Or.inr he

theorem Shape.meeting {n : Node} (h : Shape tokens n ks) (hn : n.tag.holdsStatements = true ∨ n.tag = .unit) :
    Meeting tokens n.tag ks := by
  unfold Node.tag at hn ⊢
  unfold Shape at h
  cases hc : n.construct <;> simp only [hc] at h hn ⊢
  case unit =>
    obtain ⟨⟨_, _, ht⟩, hk⟩ := h
    exact meeting_of_tiles ht fun k hm => by simp [hk k hm]
  case scope => exact h.1.meeting
  case function | caseLabel => exact h.meeting
  case switch => exact h.meeting
  case branch => exact h.elim Headed.meeting Alternatives.meeting
  case loop =>
    split at h
    · obtain ⟨x, g, rfl, hx, hg⟩ := h
      simp [Meeting, hx, hg]
    · exact h.meeting
  all_goals simp [Construct.tag, Tag.holdsStatements] at hn

end Chains

/-! ## The whole tree -/

namespace Tree

open Forest

variable {t : Tree}

/-- Spans are nested and in order, and cover the source from one statement of a list to the next. -/
structure Nested (source : List UInt8) (t : Tree) : Prop where
  root : t.span .root = ⟨0, source.length⟩
  bounded : ∀ s ∈ t.reachable, t.span s ≠ .absent →
    (t.span s).start ≤ (t.span s).stop ∧ (t.span s).stop ≤ source.length
  inside : ∀ s ∈ t.reachable, ∀ c ∈ t.children s,
    t.parent? c = some s ∧ (t.span c ≠ .absent → (t.span s).contains (t.span c) = true)
  ordered : ∀ s ∈ t.reachable, (t.children s).Pairwise fun c d =>
    t.span c ≠ .absent → t.span d ≠ .absent → (t.span c).stop ≤ (t.span d).start
  meeting : ∃ tokens, Token.scan source = .ok tokens ∧ ∀ s ∈ t.reachable,
    (t.tag s).holdsStatements = true ∨ t.tag s = .unit →
      ((t.children s).filter (t.tag · != .group)).IsChain fun c d => Meet tokens (t.tag s) (t.span c) (t.span d)

variable {source : List UInt8} {path : Path} {tokens : List Token} {f : Forest Entry}

/-- What is known of a node that can be reached: its entry and the forest below it. -/
structure Member (source : List UInt8) (tokens : List Token) (t : Tree) (e : Entry) (b : Forest Entry) : Prop where
  node : t.node e.slot = e.linked b.rootSlots (t.parent? e.slot)
  holds : t.Holds (some e.slot) b
  spanned : Spanned 0 source.length e.node.span b
  shape : Shape tokens e.node b.roots
  marked : b.Marked false

theorem Built.exists_member (h : t.Built source path tokens f) {s : Slot} (hs : s ∈ t.reachable) :
    ∃ e b, e.slot = s ∧ t.Member source tokens e b := by
  rw [reachable, show Slot.root = (Entry.fresh .root (.unit path) ⟨0, source.length⟩).slot from rfl,
    subtree_eq_slots h.stands.holds h.stands.length_le] at hs
  obtain ⟨e, he, rfl⟩ := mem_map.1 hs
  have hw : (Forest.tree (.fresh .root (.unit path) ⟨0, source.length⟩) f).Every fun e b =>
      Spanned 0 source.length e.node.span b :=
    every_tree.2 ⟨.inr ⟨le_rfl, le_rfl, h.within⟩, h.within.spanned⟩
  obtain ⟨b, ⟨⟨hn, hb⟩, hsp⟩, -, hsh, hm⟩ := ((h.stands.holds.every.and hw).and h.shaped).exists_below he
  exact ⟨e, b, rfl, hn, hb, hsp, hsh, hm⟩

namespace Member

variable {e : Entry} {b : Forest Entry}

section

variable (h : t.Member source tokens e b)
include h

theorem span_eq : t.span e.slot = e.node.span := by rw [span, h.node]; rfl

theorem tag_eq : t.tag e.slot = e.node.tag := by rw [tag, h.node]; rfl

theorem construct_eq : t.construct e.slot = e.node.construct := by
  rw [construct, h.node]; rfl

theorem children_eq : t.children e.slot = b.roots.map (·.slot) := by
  rw [children, h.node]; rfl

theorem bounded (hp : e.node.span ≠ .absent) :
    e.node.span.start ≤ e.node.span.stop ∧ e.node.span.stop ≤ source.length := by
  rcases h.spanned with ⟨ha, -⟩ | ⟨-, hle, hb⟩
  · exact absurd ha hp
  · exact ⟨hb.le, hle⟩

theorem within : b.Within e.node.span.start e.node.span.stop := by
  rcases h.spanned with ⟨ha, rfl⟩ | ⟨-, -, hb⟩
  · simp [ha, Span.absent]
  · exact hb

theorem span_root {k : Entry} (hk : k ∈ b.roots) : t.span k.slot = k.node.span :=
  h.holds.span_eq (mem_members_of_mem_roots hk)

theorem tag_root {k : Entry} (hk : k ∈ b.roots) : t.tag k.slot = k.node.tag :=
  h.holds.tag_eq (mem_members_of_mem_roots hk)

theorem ordered : (t.children e.slot).Pairwise fun c d =>
    t.span c ≠ .absent → t.span d ≠ .absent → (t.span c).stop ≤ (t.span d).start := by
  rw [h.children_eq, pairwise_map]
  refine h.within.pairwise.imp_of_mem fun hx hy hxy => ?_
  rwa [h.span_root hx, h.span_root hy]

theorem meeting (hn : e.node.tag.holdsStatements = true ∨ e.node.tag = .unit) :
    ((t.children e.slot).filter (t.tag · != .group)).IsChain fun c d =>
      Meet tokens (t.tag e.slot) (t.span c) (t.span d) := by
  have hf : b.roots.filter ((t.tag · != .group) ∘ (·.slot)) = b.roots.filter (·.node.tag != .group) :=
    filter_congr fun k hk => by simp [h.tag_root hk]
  rw [h.children_eq, filter_map, isChain_map, hf, h.tag_eq]
  refine (h.shape.meeting hn).imp_of_mem_imp fun x y hx hy hxy => ?_
  rwa [h.span_root (mem_filter.1 hx).1, h.span_root (mem_filter.1 hy).1]

end

end Member

end Tree

open Forest Tree Assembly

/-- The tree of every source that is accepted has nested spans. -/
theorem nested_of_build {source : List UInt8} {path : Path} {t : Tree}
    (h : ((start path).build source).1 = .ok t) : t.Nested source := by
  obtain ⟨tokens, f, hb⟩ := exists_built h
  refine ⟨?_, fun s hs hp => ?_, fun s hs c hc => ?_, fun s hs => ?_, tokens, hb.scanned, fun s hs hn => ?_⟩
  · exact hb.stands.holds.span_eq (members_tree .. ▸ mem_cons_self)
  all_goals obtain ⟨e, b, rfl, hm⟩ := hb.exists_member hs
  · rw [hm.span_eq] at hp ⊢
    exact hm.bounded hp
  · rw [hm.children_eq] at hc
    refine ⟨hm.holds.parent_root hc, fun hp => ?_⟩
    obtain ⟨k, hk, rfl⟩ := mem_map.1 hc
    rw [hm.span_root hk] at hp ⊢
    rw [hm.span_eq]
    simpa [Span.contains] using hm.within.root hk hp
  · exact hm.ordered
  · rw [hm.tag_eq] at hn
    exact hm.meeting hn

/-- A branch with an alternative without braces and one in braces. -/
def bothAlternatives : List UInt8 := Utf8.encode "int f()\x7bif(a)b;else\x7bc;\x7d\x7d"

set_option maxRecDepth 100000 in
/-- The branch has the condition and both alternatives below it; `else` stands between the two. -/
theorem nested_bothAlternatives :
    ∃ t, ((start []).build bothAlternatives).1 = .ok t ∧ t.size = 11 ∧ t.children ⟨4⟩ = [⟨5⟩, ⟨7⟩, ⟨9⟩] ∧
      [⟨4⟩, ⟨5⟩, ⟨7⟩, ⟨9⟩].map t.span = [⟨8, 23⟩, ⟨11, 12⟩, ⟨13, 15⟩, ⟨19, 23⟩] ∧ t.Nested bothAlternatives := by
  have ht := build_get [] bothAlternatives (by decide +kernel)
  refine ⟨_, ht, ?_⟩
  simp only [← and_assoc]
  exact ⟨by decide +kernel, nested_of_build ht⟩

end Deferral
