import Deferral.Output.Squash
import Deferral.Proofs.RangeForest
import Mathlib.Data.List.TakeWhile

/-!
# Cutting ranges

Squashing goes by the depths in a list of ranges. What is below a range is a stretch of the list right after it
(`Range.below`), so that a list is cut by recursion over such stretches (`Range.squash_cons`, `Range.cutRun_cons`),
however many steps are allowed (`Range.flatten_of_le`). For the ranges of a forest it is a recursion over the forest
(`Range.squash_members`). If the ranges that stand at their own place are nested and in order (`Forest.Nests`), the
cuts at their own place follow one another without gap (`Contiguous`), and nothing overlaps.
-/

namespace Deferral

open List

variable {cursor : Nat} {head : Actions}

@[simp] theorem Cuts.cuts_append (a b : Cuts) : (a ++ b).cuts = a.cuts ++ b.cuts := rfl

@[simp] theorem Cuts.overlaps_append (a b : Cuts) : (a ++ b).overlaps = a.overlaps ++ b.overlaps := rfl

@[simp] theorem Cuts.append_empty (a : Cuts) : a ++ ({} : Cuts) = a := by
  change (⟨a.cuts ++ [], a.overlaps ++ []⟩ : Cuts) = a
  simp only [append_nil]

namespace Range

/-! ## What is below a range -/

/-- Of the ranges after `r`, those below it. -/
def below (r : Range) (rest : List Range) : List Range := rest.takeWhile (r.depth < ·.depth)

/-- Of the ranges after `r`, those from the first that is not below it. -/
def beyond (r : Range) (rest : List Range) : List Range := rest.dropWhile (r.depth < ·.depth)

section Below

variable {r : Range} {rest : List Range}

theorem below_append_beyond (r : Range) (rest : List Range) : r.below rest ++ r.beyond rest = rest :=
  takeWhile_append_dropWhile

theorem length_below_add (r : Range) (rest : List Range) :
    (r.below rest).length + (r.beyond rest).length = rest.length := by
  rw [← length_append, below_append_beyond]

theorem depth_lt_of_mem_below {x : Range} (h : x ∈ r.below rest) : r.depth < x.depth := by
  have hx := mem_takeWhile_imp h
  exact of_decide_eq_true hx

theorem depth_le_of_head_beyond {x : Range} (h : x ∈ (r.beyond rest).head?) : x.depth ≤ r.depth := by
  have hx := head?_dropWhile_not (fun y : Range => decide (r.depth < y.depth)) rest
  rw [show rest.dropWhile (fun y => decide (r.depth < y.depth)) = r.beyond rest from rfl, h] at hx
  simp only [decide_eq_false_iff_not] at hx
  omega

theorem below_append {xs ys : List Range} (hx : ∀ x ∈ xs, r.depth < x.depth) (hy : ∀ y ∈ ys.head?, y.depth ≤ r.depth) :
    r.below (xs ++ ys) = xs ∧ r.beyond (xs ++ ys) = ys := by
  have hbelow : r.below (xs ++ ys) = xs := by
    rw [below, takeWhile_append_of_pos fun x h => decide_eq_true (hx x h)]
    cases ys with
    | nil => simp
    | cons y ys => simp [hy y rfl]
  have h := below_append_beyond r (xs ++ ys)
  rw [hbelow] at h
  exact ⟨hbelow, append_cancel_left h⟩

theorem below_of_deeper (h : ∀ x ∈ rest, r.depth < x.depth) : r.below rest = rest :=
  takeWhile_eq_self_iff.2 fun x hx => decide_eq_true (h x hx)

theorem beyond_of_deeper (h : ∀ x ∈ rest, r.depth < x.depth) : r.beyond rest = [] :=
  dropWhile_eq_nil_iff.2 fun x hx => decide_eq_true (h x hx)

end Below

/-- A list is taken apart into its first range, what is below that, and the rest. -/
@[elab_as_elim]
theorem depthInduction {motive : List Range → Prop} (nil : motive [])
    (cons : ∀ r rest, motive (r.below rest) → motive (r.beyond rest) → motive (r :: rest)) (rs : List Range) :
    motive rs := by
  induction hn : rs.length using Nat.strongRecOn generalizing rs with
  | ind n ih =>
    cases rs with
    | nil => exact nil
    | cons r rest =>
      rw [length_cons] at hn
      have hlen := length_below_add r rest
      apply cons
      · exact ih _ (by omega) _ rfl
      · exact ih _ (by omega) _ rfl

/-! ## One child -/

/-- What is done before a child is cut: text before it, what is left to write at the head, and how far the text is. -/
structure Approach where
  before : Cuts
  head : Actions
  reached : Nat

/-- The approach to a child before which text goes up to `upto?`. -/
def approach (container : Range) (cursor : Nat) (head : Actions) (child : Range) (upto? : Option Nat) : Approach :=
  match upto? with
  | none => ⟨{}, head, cursor⟩
  | some upto =>
    let overlap : Cuts := if upto < cursor && !child.spliced then { overlaps := [⟨child, cursor⟩] } else {}
    ⟨overlap ++ gap container cursor (max upto cursor) head, {}, max cursor upto⟩

/-- How far the text is after a child. -/
def Approach.pass (a : Approach) (child : Range) : Nat := if child.spliced then a.reached else max a.reached child.stop

theorem split_cons (n : Nat) (c : Range) (cursor : Nat) (head : Actions) (child : Range) (rest : List Range) :
    split (n + 1) c cursor head (child :: rest) =
      let a := approach c cursor head child (textEnd? c child (child.beyond rest))
      a.before ++ flatten n (child :: child.below rest) ++ split n c (a.pass child) a.head (child.beyond rest) := by
  rw [split]
  simp only [approach]
  rw [← beyond, ← below]
  cases textEnd? c child (child.beyond rest) <;> rfl

theorem flatten_cons (n : Nat) (r : Range) (rest : List Range) :
    flatten (n + 1) (r :: rest) =
      (if (r.below rest).isEmpty then { cuts := [{ r with depth := 0 }] }
        else split n r r.start r.actions.leading (r.below rest)) ++ flatten n (r.beyond rest) := rfl

/-! ## Enough steps -/

theorem steps_succ (n : Nat) : (∀ rs : List Range, 2 * rs.length ≤ n → flatten n rs = flatten (n + 1) rs) ∧
    ∀ (c : Range) (cursor : Nat) (head : Actions) (run : List Range), 2 * run.length + 1 ≤ n →
      split n c cursor head run = split (n + 1) c cursor head run := by
  induction n with
  | zero =>
    constructor
    · intro rs h
      obtain rfl : rs = [] := eq_nil_of_length_eq_zero (by omega)
      rfl
    · intro c cursor head run h
      omega
  | succ n ih =>
    obtain ⟨ihf, ihs⟩ := ih
    constructor
    · intro rs h
      cases rs with
      | nil => rfl
      | cons r rest =>
        have hlen := length_below_add r rest
        rw [length_cons] at h
        rw [flatten_cons, flatten_cons, ihs _ _ _ (r.below rest) (by omega), ihf (r.beyond rest) (by omega)]
    · intro c cursor head run h
      cases run with
      | nil => rfl
      | cons child rest =>
        have hlen := length_below_add child rest
        rw [length_cons] at h
        have hchild : 2 * (child :: child.below rest).length ≤ n := by
          rw [length_cons]
          omega
        rw [split_cons, split_cons]
        dsimp only
        rw [ihf _ hchild, ihs _ _ _ _ (by omega)]

theorem flatten_of_le {n : Nat} {rs : List Range} (h : 2 * rs.length ≤ n) : flatten n rs = squash rs := by
  induction n, h using Nat.le_induction with
  | base => rfl
  | succ n hn ih => rw [← (steps_succ n).1 rs hn, ih]

/-- Cuts `container` around the ranges below it. -/
def cutRun (container : Range) (cursor : Nat) (head : Actions) (run : List Range) : Cuts :=
  split (2 * run.length + 1) container cursor head run

theorem split_of_le {n : Nat} (c : Range) (cursor : Nat) (head : Actions) {run : List Range}
    (h : 2 * run.length + 1 ≤ n) : split n c cursor head run = cutRun c cursor head run := by
  induction n, h using Nat.le_induction with
  | base => rfl
  | succ n hn ih => rw [← (steps_succ n).2 c cursor head run hn, ih]

/-- Cuts one range with what is below it. -/
def cutOne (r : Range) (below : List Range) : Cuts :=
  if below.isEmpty then { cuts := [{ r with depth := 0 }] } else cutRun r r.start r.actions.leading below

@[simp] theorem squash_nil : squash [] = {} := rfl

theorem squash_cons (r : Range) (rest : List Range) :
    squash (r :: rest) = cutOne r (r.below rest) ++ squash (r.beyond rest) := by
  have hlen := length_below_add r rest
  rw [squash, length_cons, show 2 * (rest.length + 1) = 2 * rest.length + 1 + 1 by omega, flatten_cons,
    split_of_le _ _ _ (by omega), flatten_of_le (by omega), cutOne]

@[simp] theorem cutRun_nil (c : Range) (cursor : Nat) (head : Actions) :
    cutRun c cursor head [] = gap c cursor (max c.stop cursor) (head.union c.actions.trailing) := rfl

theorem squash_deeper {r : Range} {below : List Range} (h : ∀ x ∈ below, r.depth < x.depth) :
    squash (r :: below) = cutOne r below := by
  rw [squash_cons, below_of_deeper h, beyond_of_deeper h, squash_nil, Cuts.append_empty]

theorem cutRun_cons (c : Range) (cursor : Nat) (head : Actions) (child : Range) (rest : List Range) :
    cutRun c cursor head (child :: rest) =
      let a := approach c cursor head child (textEnd? c child (child.beyond rest))
      a.before ++ cutOne child (child.below rest) ++ cutRun c (a.pass child) a.head (child.beyond rest) := by
  have hlen := length_below_add child rest
  have hflat : flatten (2 * rest.length + 2) (child :: child.below rest) = cutOne child (child.below rest) := by
    rw [flatten_of_le (by rw [length_cons]; omega), squash_deeper fun x hx => depth_lt_of_mem_below hx]
  rw [cutRun, length_cons, show 2 * (rest.length + 1) + 1 = 2 * rest.length + 2 + 1 by omega, split_cons, ← hflat]
  dsimp only
  rw [← split_of_le (n := 2 * rest.length + 2) c _ _ (by omega)]

end Range

namespace Forest

open Range

/-- Where the first tree starts that stands at its own place. -/
def nextInPlace? (f : Forest Range) : Option Nat := (f.roots.find? (!·.spliced)).map (·.start)

/-- Cuts `container` around the trees below it. -/
def cutAround : (container : Range) → (cursor : Nat) → (head : Actions) → Forest Range → Cuts
  | container, cursor, head, nil =>
    gap container cursor (max container.stop cursor) (head.union container.actions.trailing)
  | container, cursor, head, node child below rest =>
    let a := approach container cursor head child (if child.spliced then rest.nextInPlace? else some child.start)
    a.before ++
      (match below with
        | nil => { cuts := [{ child with depth := 0 }] }
        | node r b s => cutAround child child.start child.actions.leading (node r b s)) ++
      cutAround container (a.pass child) a.head rest

/-- Cuts one tree. -/
def cutTree (r : Range) : (below : Forest Range) → Cuts
  | nil => { cuts := [{ r with depth := 0 }] }
  | node x b s => cutAround r r.start r.actions.leading (node x b s)

/-- Cuts trees side by side. -/
def cutAll : Forest Range → Cuts
  | nil => {}
  | node r below rest => cutTree r below ++ rest.cutAll

theorem cutAround_node (c : Range) (cursor : Nat) (head : Actions) (child : Range) (b s : Forest Range) :
    cutAround c cursor head (node child b s) =
      let a := approach c cursor head child (if child.spliced then s.nextInPlace? else some child.start)
      a.before ++ cutTree child b ++ cutAround c (a.pass child) a.head s := by
  cases b <;> rfl

/-! ## Squashing is the recursion -/

section Squash

variable {d : Nat}

theorem Levelled.head_depth {f : Forest Range} (h : f.Levelled d) : ∀ r ∈ f.members.head?, r.depth ≤ d := by
  intro r hr
  cases f with
  | nil => cases hr
  | node x y z => simpa [← Option.some.inj hr] using h.1.le

/-- In the ranges of a forest, what is below a range is the trees below it. -/
theorem Levelled.below_eq {r : Range} {b s : Forest Range} (hb : b.Levelled (r.depth + 1)) (hs : s.Levelled r.depth) :
    r.below (b.members ++ s.members) = b.members ∧ r.beyond (b.members ++ s.members) = s.members :=
  below_append hb.le_depth hs.head_depth

theorem Levelled.find?_eq {f : Forest Range} (h : f.Levelled d) :
    f.members.find? (fun r => r.depth == d && !r.spliced) = f.roots.find? (!·.spliced) := by
  induction f with
  | nil => rfl
  | node r b s _ ihs =>
    obtain ⟨hr, hb, hs⟩ := h
    have hnone : b.members.find? (fun r => r.depth == d && !r.spliced) = none := by
      refine find?_eq_none.2 fun x hx => ?_
      have := hb.le_depth x hx
      simp only [Bool.and_eq_true, beq_iff_eq, not_and]
      omega
    cases hsp : r.spliced with
    | false => simp [hr, hsp]
    | true => simpa [hr, hsp, hnone] using ihs hs

theorem textEnd?_eq {c child : Range} {s : Forest Range} (hs : s.Levelled (c.depth + 1)) :
    textEnd? c child s.members = if child.spliced then s.nextInPlace? else some child.start := by
  rw [textEnd?, hs.find?_eq]
  rfl

theorem cutOne_members {r : Range} {f : Forest Range}
    (h : cutRun r r.start r.actions.leading f.members = cutAround r r.start r.actions.leading f) :
    cutOne r f.members = cutTree r f := by
  cases f with
  | nil => rfl
  | node x b s => exact h

theorem cutRun_members {f : Forest Range} {c : Range} (h : f.Levelled (c.depth + 1)) :
    cutRun c cursor head f.members = cutAround c cursor head f := by
  induction f generalizing c cursor head with
  | nil => rfl
  | node child b s ihb ihs =>
    obtain ⟨hd, hb, hs⟩ := h
    rw [← hd] at hb
    obtain ⟨hbelow, hbeyond⟩ := hb.below_eq (hd ▸ hs : s.Levelled child.depth)
    rw [members_node, cutRun_cons, cutAround_node, hbelow, hbeyond, textEnd?_eq hs, cutOne_members (ihb hb)]
    dsimp only
    rw [ihs hs]

end Squash

end Forest

theorem Range.squash_members {f : Forest Range} {d : Nat} (h : f.Levelled d) : squash f.members = f.cutAll := by
  induction f with
  | nil => rfl
  | node r b s _ ihs =>
    obtain ⟨rfl, hb, hs⟩ := h
    obtain ⟨hbelow, hbeyond⟩ := hb.below_eq hs
    rw [Forest.members_node, squash_cons, hbelow, hbeyond, Forest.cutOne_members (Forest.cutRun_members hb), ihs hs]
    rfl

/-! ## Ranges in place -/

/-- The cuts at their own place follow one another from `lo` to `hi` without gap. -/
def Contiguous : Nat → Nat → List Range → Prop
  | lo, hi, [] => lo = hi
  | lo, hi, c :: cs =>
    if c.spliced then Contiguous lo hi cs else c.start = lo ∧ lo ≤ c.stop ∧ Contiguous c.stop hi cs

section Contiguous

variable {lo mid hi : Nat} {c : Range} {cs : List Range}

theorem contiguous_spliced (h : c.spliced = true) : Contiguous lo hi (c :: cs) ↔ Contiguous lo hi cs := by
  simp [Contiguous, h]

theorem contiguous_inPlace (h : c.spliced = false) :
    Contiguous lo hi (c :: cs) ↔ c.start = lo ∧ lo ≤ c.stop ∧ Contiguous c.stop hi cs := by
  simp [Contiguous, h]

theorem Contiguous.append {ds : List Range} (h : Contiguous lo mid cs) (h' : Contiguous mid hi ds) :
    Contiguous lo hi (cs ++ ds) := by
  induction cs generalizing lo with
  | nil => exact (show lo = mid from h) ▸ h'
  | cons c cs ih =>
    cases hs : c.spliced with
    | true =>
      rw [contiguous_spliced hs] at h
      exact (contiguous_spliced hs).2 (ih h)
    | false =>
      obtain ⟨hstart, hle, h⟩ := (contiguous_inPlace hs).1 h
      exact (contiguous_inPlace hs).2 ⟨hstart, hle, ih h⟩

theorem Contiguous.le (h : Contiguous lo hi cs) : lo ≤ hi := by
  induction cs generalizing lo with
  | nil => exact h.le
  | cons c cs ih =>
    cases hs : c.spliced with
    | true => exact ih ((contiguous_spliced hs).1 h)
    | false =>
      obtain ⟨-, hle, h⟩ := (contiguous_inPlace hs).1 h
      exact hle.trans (ih h)

theorem contiguous_gap (c : Range) (h : lo ≤ hi) (actions : Actions) :
    Contiguous lo hi (Range.gap c lo hi actions).cuts := by
  rw [Range.gap]
  split
  case isTrue => exact (contiguous_inPlace rfl).2 ⟨rfl, Nat.le_max_right .., Nat.max_eq_left h⟩
  case isFalse hg =>
    simp only [Bool.or_eq_true, decide_eq_true_eq, not_or] at hg
    exact Nat.le_antisymm h (Nat.le_of_not_lt hg.1)

theorem overlaps_gap (c : Range) (lo hi : Nat) (actions : Actions) : (Range.gap c lo hi actions).overlaps = [] := by
  rw [Range.gap]
  split <;> rfl

/-- Text up to a child that starts no earlier than the text before it ended. -/
theorem Range.approach_some {upto : Nat} (h : cursor ≤ upto) (head : Actions) (child : Range) :
    approach c cursor head child (some upto) = ⟨gap c cursor upto head, {}, upto⟩ := by
  have hn : ¬upto < cursor := by omega
  simp only [approach, hn, decide_false, Bool.false_and, Bool.false_eq_true, if_false, Nat.max_eq_left h,
    Nat.max_eq_right h]
  rfl

end Contiguous

namespace Forest

open Range

/-- Ranges at their own place lie between `lo` and `hi`, nested and in order. A spliced one has nothing below it. -/
def Nests : Nat → Nat → Forest Range → Prop
  | lo, hi, nil => lo ≤ hi
  | lo, hi, node r below rest =>
    (r.spliced = true ∧ below = nil ∧ Nests lo hi rest) ∨
      (r.spliced = false ∧ lo ≤ r.start ∧ Nests r.start r.stop below ∧ Nests r.stop hi rest)

variable {lo mid hi : Nat} {f g : Forest Range}

theorem Nests.le (h : f.Nests lo hi) : lo ≤ hi := by
  induction f generalizing lo hi with
  | nil => exact h
  | node r b s ihb ihs =>
    rcases h with ⟨-, -, hs⟩ | ⟨-, hlo, hb, hs⟩
    · exact ihs hs
    · have := ihb hb
      have := ihs hs
      omega

theorem Nests.mono_left (h : f.Nests mid hi) (hlo : lo ≤ mid) : f.Nests lo hi := by
  induction f with
  | nil => exact hlo.trans h
  | node r b s _ ihs =>
    rcases h with ⟨hsp, hb, hs⟩ | ⟨hsp, hle, hb, hs⟩
    · exact .inl ⟨hsp, hb, ihs hs⟩
    · exact .inr ⟨hsp, hlo.trans hle, hb, hs⟩

theorem Nests.append (hf : f.Nests lo mid) (hg : g.Nests mid hi) : (f ++ g).Nests lo hi := by
  induction f generalizing lo with
  | nil => exact hg.mono_left hf
  | node r b s _ ihs =>
    rcases hf with ⟨hsp, hb, hs⟩ | ⟨hsp, hle, hb, hs⟩
    · exact .inl ⟨hsp, hb, ihs hs⟩
    · exact .inr ⟨hsp, hle, hb, ihs hs⟩

theorem Nests.next {p : Nat} (h : f.Nests lo hi) (hp : f.nextInPlace? = some p) : lo ≤ p ∧ f.Nests p hi := by
  induction f with
  | nil => cases hp
  | node r b s _ ihs =>
    rcases h with ⟨hsp, hb, hs⟩ | ⟨hsp, hle, hb, hs⟩
    · obtain ⟨hlo, hs⟩ := ihs hs (by simpa [nextInPlace?, hsp] using hp)
      exact ⟨hlo, .inl ⟨hsp, hb, hs⟩⟩
    · obtain rfl : r.start = p := by simpa [nextInPlace?, hsp] using hp
      exact ⟨hle, .inr ⟨hsp, le_rfl, hb, hs⟩⟩

/-- Cuts that go from `lo` to `hi`, without overlap. -/
structure Covers (lo hi : Nat) (cuts : Cuts) : Prop where
  contiguous : Contiguous lo hi cuts.cuts
  overlaps : cuts.overlaps = []

theorem Covers.append {a b : Cuts} (ha : Covers lo mid a) (hb : Covers mid hi b) : Covers lo hi (a ++ b) :=
  ⟨ha.contiguous.append hb.contiguous, by simp [ha.overlaps, hb.overlaps]⟩

theorem covers_nothing : Covers lo lo {} := ⟨rfl, rfl⟩

theorem covers_gap (c : Range) (h : lo ≤ hi) (actions : Actions) : Covers lo hi (gap c lo hi actions) :=
  ⟨contiguous_gap c h actions, overlaps_gap ..⟩

theorem covers_spliced {r : Range} (h : r.spliced = true) : Covers lo lo (cutTree r nil) :=
  ⟨(contiguous_spliced h).2 rfl, rfl⟩

theorem covers_cutTree {r : Range} (hr : r.spliced = false) (hle : r.start ≤ r.stop)
    (h : Covers r.start r.stop (cutAround r r.start r.actions.leading f)) : Covers r.start r.stop (cutTree r f) := by
  cases f with
  | nil => exact ⟨(contiguous_inPlace hr).2 ⟨rfl, hle, rfl⟩, rfl⟩
  | node x b s => exact h

theorem Nests.covers {c : Range} (h : f.Nests cursor c.stop) :
    Covers cursor c.stop (cutAround c cursor head f) := by
  induction f generalizing c cursor head with
  | nil =>
    rw [cutAround, Nat.max_eq_left h]
    exact covers_gap c h _
  | node r b s ihb ihs =>
    rw [cutAround_node]
    rcases h with ⟨hsp, rfl, hs⟩ | ⟨hsp, hle, hb, hs⟩
    · simp only [hsp, if_true, Approach.pass]
      cases hp : s.nextInPlace? with
      | none => exact (covers_nothing.append (covers_spliced hsp)).append (ihs hs)
      | some p =>
        -- The text before the spliced range already goes up to what comes after it.
        obtain ⟨hlo, hs⟩ := hs.next hp
        rw [approach_some hlo]
        exact ((covers_gap c hlo head).append (covers_spliced hsp)).append (ihs hs)
    · simp only [hsp, Bool.false_eq_true, if_false, Approach.pass]
      rw [approach_some hle, Nat.max_eq_right hb.le]
      exact ((covers_gap c hle head).append (covers_cutTree hsp hb.le (ihb hb))).append (ihs hs)

end Forest

/-! ## What is seen of the ranges in their cuts -/

/-- Requests of some sort: if they are made around a text, what is made at its ends is of that sort. -/
structure Requests (A : Actions → Prop) : Prop where
  none : A {}
  leading : ∀ {a}, A a → A a.leading
  trailing : ∀ {a}, A a → A a.trailing
  union : ∀ {a b}, A a → A b → A (a.union b)

/-- Text of the source as it stands there, with requests of a sort around it. -/
structure Range.Bare (A : Actions → Prop) (r : Range) : Prop where
  inPlace : r.spliced = false
  requests : A r.actions
  lead : r.lead? = none
  own : r.replacement? = none

/-- A view of ranges that sees neither depths nor bare text. -/
structure Range.View {β : Type} (A : Actions → Prop) (v : Range → List β) : Prop where
  bare : ∀ r, r.Bare A → v r = []
  depth : ∀ (r : Range) d, v { r with depth := d } = v r

namespace Forest

open Range

/-- Ranges with others below them are bare. -/
def BareAround (A : Actions → Prop) : Forest Range → Prop := Every fun r below => below ≠ nil → r.Bare A

variable {β : Type} {A : Actions → Prop} {v : Range → List β}

theorem flatMap_gap (hv : View A v) (c : Range) (lo hi : Nat) {actions : Actions} (ha : A actions) :
    (gap c lo hi actions).cuts.flatMap v = [] := by
  rw [gap]
  split
  · simpa using hv.bare _ ⟨rfl, ha, rfl, rfl⟩
  · rfl

theorem flatMap_approach (hA : Requests A) (hv : View A v) (c child : Range) (cursor : Nat)
    (hh : A head) (upto? : Option Nat) : (approach c cursor head child upto?).before.cuts.flatMap v = [] ∧
      A (approach c cursor head child upto?).head := by
  cases upto? with
  | none => exact ⟨rfl, hh⟩
  | some upto =>
    refine ⟨?_, hA.none⟩
    simp only [approach, Cuts.cuts_append, List.flatMap_append, flatMap_gap hv c cursor _ hh, List.append_nil]
    split <;> rfl

/-- A view of a tree's cuts is the view of its ranges, if it is so for what is below. -/
theorem flatMap_cutTree (hv : View A v) {r : Range} {f : Forest Range} (hr : f ≠ nil → r.Bare A)
    (h : r.Bare A → (cutAround r r.start r.actions.leading f).cuts.flatMap v = f.members.flatMap v) :
    (cutTree r f).cuts.flatMap v = v r ++ f.members.flatMap v := by
  cases f with
  | nil => simp [cutTree, hv.depth]
  | node x b s =>
    have hr := hr nofun
    rw [hv.bare r hr]
    exact h hr

theorem flatMap_cutAround (hA : Requests A) (hv : View A v) {f : Forest Range} {c : Range}
    (hf : f.BareAround A) (hc : A c.actions) (hh : A head) :
    (cutAround c cursor head f).cuts.flatMap v = f.members.flatMap v := by
  induction f generalizing c cursor head with
  | nil => exact flatMap_gap hv _ _ _ (hA.union hh (hA.trailing hc))
  | node r b s ihb ihs =>
    obtain ⟨hr, hb, hs⟩ := hf
    obtain ⟨hbefore, hhead⟩ :=
      flatMap_approach hA hv c r cursor hh (if r.spliced then s.nextInPlace? else some r.start)
    have htree := flatMap_cutTree hv hr fun hr => ihb hb hr.requests (hA.leading hr.requests)
    simp only [cutAround_node, Cuts.cuts_append, List.flatMap_append, hbefore, htree, ihs hs hc hhead, members_node,
      List.flatMap_cons, List.nil_append, List.append_assoc]

theorem flatMap_cutAll (hA : Requests A) (hv : View A v) {f : Forest Range} (hf : f.BareAround A) :
    f.cutAll.cuts.flatMap v = f.members.flatMap v := by
  induction f with
  | nil => rfl
  | node r b s _ ihs =>
    obtain ⟨hr, hb, hs⟩ := hf
    have htree := flatMap_cutTree hv hr fun hr => flatMap_cutAround hA hv hb hr.requests (hA.leading hr.requests)
    simp only [cutAll, Cuts.cuts_append, List.flatMap_append, htree, ihs hs, members_node, List.flatMap_cons,
      List.append_assoc]

theorem forall_cutAll (hA : Requests A) {P : Range → Prop} (hbare : ∀ r, r.Bare A → P r)
    (hdepth : ∀ r d, P r → P { r with depth := d }) {f : Forest Range} (hf : f.BareAround A)
    (h : ∀ r ∈ f.members, P r) : ∀ c ∈ f.cutAll.cuts, P c := by
  classical
  have hv : View A fun r : Range => if P { r with depth := 0 } then [] else [r.span] :=
    ⟨fun r hr => if_pos (hdepth r 0 (hbare r hr)), fun r d => rfl⟩
  have hnone : ∀ c ∈ f.cutAll.cuts, (if P { c with depth := 0 } then [] else [c.span]) = [] := by
    rw [← flatMap_eq_nil_iff, flatMap_cutAll hA hv hf, flatMap_eq_nil_iff]
    exact fun r hr => if_pos (hdepth r 0 (h r hr))
  intro c hc
  by_cases hn : P { c with depth := 0 }
  · exact hdepth { c with depth := 0 } c.depth hn
  · simpa [hn] using hnone c hc

end Forest

end Deferral
