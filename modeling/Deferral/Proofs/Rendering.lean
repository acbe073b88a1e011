import Deferral.Proofs.Building
import Deferral.Proofs.Unfolding
import Deferral.Proofs.Writing

/-!
# Printing a tree

`Tree.render` prints an edited tree by recursion: the text of a node is the source with the text of its children in the
place of theirs. Writing a tree collects its ranges in a list, cuts them by their depths and copies the cuts; what comes
out is the same (`Tree.output_eq_render`).
-/

namespace Deferral

/-! ## The printer -/

/-- What is written before a text. -/
def Actions.before (a : Actions) : List UInt8 :=
  (if a.braceBefore then ['\x7b'.toUInt8] else []) ++ (if a.newlineBefore then ['\n'.toUInt8] else [])

/-- What is written after a text. -/
def Actions.after (a : Actions) : List UInt8 :=
  (if a.semicolonAfter then [';'.toUInt8] else []) ++
    (if a.braceAfter then ['\n'.toUInt8, '\x7d'.toUInt8] else [])

namespace Node

/-- What is asked for around a node. One that was added starts a line and ends with a semicolon. -/
def requests (n : Node) : Actions :=
  if n.status = .added then ({ newlineBefore := true, semicolonAfter := true } : Actions).union n.actions
  else n.actions

/-- The text of a node, its own or what was put in its stead. -/
def text (source : List UInt8) (n : Node) : List UInt8 :=
  match n.replacement? with
  | some text => Utf8.encode text
  | none => sourceText source n.span.start n.span.stop

/-- A node with nothing inside. -/
def alone (source : List UInt8) (n : Node) : List UInt8 :=
  n.requests.before ++ Utf8.encode (n.lead?.getD "") ++ n.text source ++ n.requests.after

/-- A node with the given text inside, if it has anything inside. -/
def print (source : List UInt8) (n : Node) (inside? : Option (List UInt8)) : List UInt8 :=
  if n.status = .removed then []
  else
    match inside? with
    | none => n.alone source
    | some text => text ++ n.actions.after

section Print

variable {source : List UInt8} {n : Node}

theorem print_removed (h : n.status = .removed) (inside? : Option (List UInt8)) : n.print source inside? = [] :=
  if_pos h

theorem print_none (h : n.status ≠ .removed) : n.print source none = n.alone source := if_neg h

theorem print_some (h : n.status ≠ .removed) (text : List UInt8) :
    n.print source (some text) = text ++ n.actions.after := if_neg h

end Print

end Node

namespace Forest

/-- The nodes that have a place in the text. What is below a new, a removed or a replaced node has none; a node that
stays and has no text gives way to what is below it. -/
def collected : Forest Entry → Forest Entry
  | nil => nil
  | node e below rest =>
    let kept := if e.node.span.isEmpty then below.collected else tree e below.collected
    (match e.node.status with
      | .added => tree e nil
      | .removed => if e.node.span.isEmpty then nil else tree e nil
      | .modified => if e.node.replacement?.isSome then tree e nil else kept
      | .clean => kept) ++ rest.collected

/-- The source from `pos` to `stop` with the given nodes in it. New ones are `waiting` for the next one that has a place
in the source; if there is none, they come first. -/
def inside (source : List UInt8) : (pos stop : Nat) → (waiting : List UInt8) → Forest Entry → List UInt8
  | pos, stop, waiting, nil => waiting ++ sourceText source pos stop
  | pos, stop, waiting, node e below rest =>
    if e.node.status = .added then inside source pos stop (waiting ++ e.node.alone source) rest
    else
      sourceText source pos e.node.span.start ++ waiting ++
        e.node.print source
          (match below with
            | nil => none
            | node x b r => some (inside source e.node.span.start e.node.span.stop [] (node x b r))) ++
        inside source e.node.span.stop stop [] rest

/-- The text inside a span, if there is anything in it. -/
def inside? (source : List UInt8) (span : Span) : Forest Entry → Option (List UInt8)
  | nil => none
  | node x b r => some (inside source span.start span.stop [] (node x b r))

/-- Trees side by side, without the source between them. -/
def render (source : List UInt8) : Forest Entry → List UInt8
  | nil => []
  | node e below rest => e.node.print source (below.inside? source e.node.span) ++ rest.render source

end Forest

/-- The text of a tree. -/
def Tree.render (t : Tree) (source : List UInt8) : List UInt8 := t.forest.collected.render source

/-! ## Trees that can be printed -/

namespace Forest

/-- Nodes in place lie between `lo` and `hi`, a child inside its parent, and siblings one after the other. -/
def Orderly : Nat → Nat → Forest Entry → Prop
  | lo, hi, nil => lo ≤ hi
  | lo, hi, node e below rest =>
    if e.node.status = .added then Orderly lo hi rest
    else
      lo ≤ e.node.span.start ∧ Orderly e.node.span.start e.node.span.stop below ∧ Orderly e.node.span.stop hi rest

/-- Nodes that can be printed from the source. -/
structure Printable (source : List UInt8) (f : Forest Entry) : Prop where
  orderly : f.Orderly 0 source.length
  added : ∀ e ∈ f.members, e.node.status = .added → e.node.span.stop ≤ source.length
  shown : ∀ e ∈ f.members, e.node.actions.omitted = false
  /-- Only a node with nothing inside asks for something before its text. -/
  around : f.Every fun e below => below ≠ nil → e.node.actions.leading = {}

section Decidable

variable {α : Type}

instance decidableEqNil : (f : Forest α) → Decidable (f = nil)
  | nil => isTrue rfl
  | node .. => isFalse nofun

instance decidableEvery (P : α → Forest α → Prop) [∀ a b, Decidable (P a b)] : (f : Forest α) → Decidable (f.Every P)
  | nil => isTrue trivial
  | node a b r =>
    have := decidableEvery P b
    have := decidableEvery P r
    inferInstanceAs (Decidable (P a b ∧ b.Every P ∧ r.Every P))

instance decidableOrderly : (lo hi : Nat) → (f : Forest Entry) → Decidable (f.Orderly lo hi)
  | lo, hi, nil => inferInstanceAs (Decidable (lo ≤ hi))
  | lo, hi, node e b r =>
    have := decidableOrderly lo hi r
    have := decidableOrderly e.node.span.start e.node.span.stop b
    have := decidableOrderly e.node.span.stop hi r
    inferInstanceAs (Decidable (if e.node.status = .added then _ else _ ∧ _ ∧ _))

instance (source : List UInt8) (f : Forest Entry) : Decidable (f.Printable source) :=
  decidable_of_iff
    (f.Orderly 0 source.length ∧ (∀ e ∈ f.members, e.node.status = .added → e.node.span.stop ≤ source.length) ∧
      (∀ e ∈ f.members, e.node.actions.omitted = false) ∧
      f.Every fun e below => below ≠ nil → e.node.actions.leading = {})
    ⟨fun ⟨ho, ha, hs, hl⟩ => ⟨ho, ha, hs, hl⟩, fun h => ⟨h.orderly, h.added, h.shown, h.around⟩⟩

end Decidable

section Orderly

variable {lo hi : Nat} {e : Entry} {b r : Forest Entry}

theorem orderly_added (h : e.node.status = .added) : (node e b r).Orderly lo hi ↔ r.Orderly lo hi := by
  simp [Orderly, h]

theorem orderly_inPlace (h : e.node.status ≠ .added) : (node e b r).Orderly lo hi ↔
    lo ≤ e.node.span.start ∧ b.Orderly e.node.span.start e.node.span.stop ∧ r.Orderly e.node.span.stop hi := by
  simp [Orderly, h]

end Orderly

end Forest

/-! ## Ranges of collected nodes -/

/-- The range of a node that has a place in the text. -/
def Node.range (n : Node) (depth : Nat) : Range :=
  { Range.ofNode n depth with
    spliced := n.status = .added
    actions := if n.status = .removed then { omitted := true } else n.requests }

@[simp] theorem Node.range_start (n : Node) (depth : Nat) : (n.range depth).start = n.span.start := rfl

@[simp] theorem Node.range_stop (n : Node) (depth : Nat) : (n.range depth).stop = n.span.stop := rfl

theorem Node.Stays.range_eq {n : Node} (h : n.Stays) (depth : Nat) :
    n.range depth = { Range.ofNode n depth with actions := n.actions } := by
  rcases h with h | ⟨h, -⟩ <;> simp [range, requests, h, Range.ofNode]

namespace Forest

open Range

def ranges (depth : Nat) : Forest Entry → Forest Range
  | nil => nil
  | node e below rest => node (e.node.range depth) (below.ranges (depth + 1)) (rest.ranges depth)

variable {d : Nat} {e : Entry} {b r f g : Forest Entry}

theorem ranges_append (d : Nat) (f g : Forest Entry) : (f ++ g).ranges d = f.ranges d ++ g.ranges d := by
  induction f with
  | nil => rfl
  | node e b r _ ihr => simp only [node_append, ranges, ihr]

/-- A node that stays is collected around what is below it, or gives way to it. -/
theorem collected_stays (h : e.node.Stays) : (node e b r).collected =
    (if e.node.span.isEmpty then b.collected else tree e b.collected) ++ r.collected := by
  rcases h with h | ⟨h, hr⟩
  · simp only [collected, h]
  · simp only [collected, h, hr, Bool.false_eq_true, if_false]

theorem ranged_eq_ranges (f : Forest Entry) (d : Nat) : f.ranged d = f.collected.ranges d := by
  induction f generalizing d with
  | nil => rfl
  | node e b r ihb ihr =>
    have hs := e.node.shows d
    rw [ranged]
    generalize e.node.showing d = w at hs
    cases hs with
    | gone hs he => simp [collected, hs, he, ihr]
    | omitted hs he => simp [collected, hs, he, ihr, ranges, Node.range, ofNode]
    | spliced hs => simp [collected, hs, ihr, ranges, Node.range, Node.requests, ofNode]
    | replaced hs hr => simp [collected, hs, hr, ihr, ranges, Node.range, Node.requests, ofNode]
    | through hs he => rw [collected_stays hs, if_pos he, ranges_append, ihb, ihr]
    | around hs he =>
      rw [collected_stays hs, if_neg (by simp [he]), tree_append, tree_append, ranges, hs.range_eq, ihb, ihr]

theorem stays_collected (f : Forest Entry) : f.collected.Every fun e b => b ≠ nil → e.node.Stays := by
  induction f with
  | nil => trivial
  | node e b r ihb ihr =>
    have hs := e.node.shows 0
    generalize e.node.showing 0 = w at hs
    cases hs with
    | gone hs he | omitted hs he => simpa [collected, hs, he] using ihr
    | spliced hs => simpa [collected, hs] using ihr
    | replaced hs hr => simpa [collected, hs, hr] using ihr
    | through hs he =>
      rw [collected_stays hs, if_pos he]
      exact every_append.2 ⟨ihb, ihr⟩
    | around hs he =>
      rw [collected_stays hs, if_neg (by simp [he])]
      exact ⟨fun _ => hs, ihb, ihr⟩

theorem collected_tree (h : e.node.span.isEmpty = false) : ∃ c, (tree e b).collected = tree e c := by
  have hs := e.node.shows 0
  generalize e.node.showing 0 = w at hs
  cases hs with
  | gone _ he | through _ he => simp [h] at he
  | omitted hs | spliced hs | replaced hs => exact ⟨nil, by simp [tree, collected, *]⟩
  | around hs => exact ⟨b.collected, by simp [tree, collected_stays hs, h, collected]⟩

/-! ## The text inside a node -/

section Inside

variable {source : List UInt8} {pos stop : Nat} {waiting : List UInt8}

theorem inside_added (h : e.node.status = .added) : (node e b r).inside source pos stop waiting =
    r.inside source pos stop (waiting ++ e.node.alone source) := by
  cases b <;> rw [inside, if_pos h]

theorem inside_inPlace (h : e.node.status ≠ .added) : (node e b r).inside source pos stop waiting =
    sourceText source pos e.node.span.start ++ waiting ++ e.node.print source (b.inside? source e.node.span) ++
      r.inside source e.node.span.stop stop [] := by
  cases b <;> rw [inside, if_neg h] <;> rfl

theorem nextInPlace?_added (h : e.node.status = .added) :
    ((node e b r).ranges d).nextInPlace? = (r.ranges d).nextInPlace? := by
  simp [ranges, nextInPlace?, Node.range, h]

theorem nextInPlace?_inPlace (h : e.node.status ≠ .added) :
    ((node e b r).ranges d).nextInPlace? = some e.node.span.start := by
  simp [ranges, nextInPlace?, Node.range, ofNode, h]

theorem inside_next {p : Nat} (h : (f.ranges d).nextInPlace? = some p) :
    f.inside source pos stop waiting = sourceText source pos p ++ waiting ++ f.inside source p stop [] := by
  induction f generalizing pos waiting with
  | nil => cases h
  | node e b r _ ihr =>
    by_cases ha : e.node.status = .added
    · rw [nextInPlace?_added ha] at h
      rw [inside_added ha, inside_added ha, ihr h, @ihr p ([] ++ _) h, sourceText_empty le_rfl]
      simp only [List.nil_append, List.append_assoc]
    · rw [nextInPlace?_inPlace ha, Option.some.injEq] at h
      rw [inside_inPlace ha, inside_inPlace ha, h, sourceText_empty le_rfl]
      simp only [List.nil_append, List.append_nil, List.append_assoc]

theorem inside_none (h : (f.ranges d).nextInPlace? = none) :
    f.inside source pos stop waiting = waiting ++ f.inside source pos stop [] := by
  induction f generalizing waiting with
  | nil => rfl
  | node e b r _ ihr =>
    by_cases ha : e.node.status = .added
    · rw [nextInPlace?_added ha] at h
      rw [inside_added ha, inside_added ha, ihr h, @ihr ([] ++ _) h]
      simp only [List.nil_append, List.append_assoc]
    · rw [nextInPlace?_inPlace ha] at h
      cases h

end Inside

/-! ## What is written for the cuts -/

end Forest

namespace Range

variable {source : List UInt8} {a : Actions}

theorem written_gap {lo hi : Nat} (c : Range) (h : lo ≤ hi) (ha : a.omitted = false) :
    (gap c lo hi a).cuts.flatMap (written source) = a.before ++ sourceText source lo hi ++ a.after := by
  rw [gap]
  split
  case isTrue =>
    rw [List.flatMap_singleton, written_shown ha, Nat.max_eq_left h]
    simp [opening, closing, Range.text, Actions.before, Actions.after, Utf8.encode]
  case isFalse hn =>
    simp only [Bool.or_eq_true, decide_eq_true_eq, not_or, Bool.not_eq_true', Actions.isEmpty, beq_eq_false_iff_ne,
      ne_eq, not_not] at hn
    rw [hn.2, sourceText_empty (Nat.le_of_not_lt hn.1)]
    rfl

theorem written_text {lo hi : Nat} (c : Range) (h : lo ≤ hi) :
    (gap c lo hi {}).cuts.flatMap (written source) = sourceText source lo hi :=
  (written_gap c h rfl).trans (List.append_nil _)

theorem written_range {n : Node} {d : Nat} (h : n.actions.omitted = false) :
    (n.range d).written source = n.print source none := by
  by_cases hr : n.status = .removed
  · rw [written_omitted (by simp [Node.range, hr]), Node.print_removed hr]
  · have hs : n.requests.omitted = false := by
      unfold Node.requests
      split
      · simp [Actions.union, h]
      · exact h
    have hrange : (n.range d).actions = n.requests := if_neg hr
    rw [written_shown (by rw [hrange, hs]), Node.print_none hr, Node.alone]
    simp only [opening, closing, hrange, Actions.before, Actions.after, List.append_assoc]
    rfl

end Range

namespace Forest

open Range

/-- What a collected node is like: it shows, and if it has anything inside, it stays and asks for nothing before. -/
structure Fits (e : Entry) (below : Forest Entry) : Prop where
  shown : e.node.actions.omitted = false
  around : below ≠ nil → e.node.Stays ∧ e.node.actions.leading = {}

theorem Fits.eq_nil {e : Entry} {below : Forest Entry} (h : Fits e below) (ha : e.node.status = .added) :
    below = nil := by
  by_contra hne
  rcases (h.around hne).1 with hs | ⟨hs, -⟩ <;> simp [hs] at ha

section Written

variable {d : Nat} {e : Entry} {b r f : Forest Entry} {source : List UInt8} {pos lo hi : Nat} {c : Range}

theorem nests_ranges (h : f.Orderly lo hi) (hf : f.Every Fits) : (f.ranges d).Nests lo hi := by
  induction f generalizing lo hi d with
  | nil => exact h
  | node e b r ihb ihr =>
    obtain ⟨he, hb, hr⟩ := hf
    by_cases ha : e.node.status = .added
    · rw [he.eq_nil ha]
      exact .inl ⟨by simp [Node.range, ha], rfl, ihr ((orderly_added ha).1 h) hr⟩
    · obtain ⟨hlo, hin, hafter⟩ := (orderly_inPlace ha).1 h
      exact .inr ⟨by simp [Node.range, ha], hlo, ihb hin hb, ihr hafter hr⟩

theorem Orderly.next {p : Nat} (h : f.Orderly lo hi) (hp : (f.ranges d).nextInPlace? = some p) :
    lo ≤ p ∧ f.Orderly p hi := by
  induction f with
  | nil => cases hp
  | node e b r _ ihr =>
    by_cases ha : e.node.status = .added
    · rw [nextInPlace?_added ha] at hp
      rw [orderly_added ha] at h ⊢
      exact ihr h hp
    · rw [nextInPlace?_inPlace ha, Option.some.injEq] at hp
      rw [orderly_inPlace ha] at h ⊢
      exact ⟨hp ▸ h.1, hp.symm.le, h.2⟩

theorem cutAll_ranges (d : Nat) (e : Entry) (b : Forest Entry) :
    ((tree e b).ranges d).cutAll = cutTree (e.node.range d) (b.ranges (d + 1)) := Cuts.append_empty _

theorem written_leaf (h : e.node.actions.omitted = false) :
    (cutTree (e.node.range d) (ranges (d + 1) nil)).cuts.flatMap (written source) = e.node.print source none :=
  (List.append_nil _).trans (written_range h)

/-- A node is written as it is printed, if that is so for what is inside. -/
theorem written_cutTree (he : Fits e b)
    (h : (cutAround (e.node.range d) e.node.span.start {} (b.ranges (d + 1))).cuts.flatMap (written source) =
      b.inside source e.node.span.start e.node.span.stop [] ++ (e.node.range d).actions.after) :
    (cutTree (e.node.range d) (b.ranges (d + 1))).cuts.flatMap (written source) =
      e.node.print source (b.inside? source e.node.span) := by
  cases b with
  | nil => exact written_leaf he.shown
  | node x y z =>
    obtain ⟨hs, hl⟩ := he.around nofun
    have hrange := hs.range_eq d
    have hkeep : e.node.status ≠ .removed := by rcases hs with hs | ⟨hs, -⟩ <;> simp [hs]
    rw [hrange] at h ⊢
    rw [inside?, Node.print_some hkeep]
    change (cutAround _ e.node.span.start e.node.actions.leading _).cuts.flatMap _ = _
    rw [hl]
    exact h

/-- A container is written as the text inside it, with what it asks for at the end. -/
theorem written_cutAround (h : f.Orderly pos c.stop) (hf : f.Every Fits) :
    (cutAround c pos {} (f.ranges d)).cuts.flatMap (written source) =
      f.inside source pos c.stop [] ++ c.actions.after := by
  induction f generalizing c pos d with
  | nil =>
    rw [ranges, cutAround, Nat.max_eq_left h, written_gap c h rfl]
    rfl
  | node e b r ihb ihr =>
    obtain ⟨he, hb, hr⟩ := hf
    rw [ranges, cutAround_node]
    by_cases ha : e.node.status = .added
    · have hsp : (e.node.range d).spliced = true := by simp [Node.range, ha]
      obtain rfl := he.eq_nil ha
      have hone : (cutTree (e.node.range d) (ranges (d + 1) nil)).cuts.flatMap (written source) =
          e.node.alone source := (written_leaf he.shown).trans (Node.print_none (by simp [ha]))
      rw [orderly_added ha] at h
      simp only [hsp, if_true, Approach.pass]
      -- The text goes up to the next node in place before the new one is written, so the two change places.
      cases hp : (r.ranges d).nextInPlace? with
      | none =>
        rw [inside_added ha, inside_none hp]
        simp only [approach, Cuts.cuts_append, List.flatMap_append, hone, ihr h hr, List.nil_append,
          List.append_assoc]
      | some p =>
        obtain ⟨hlo, h⟩ := h.next hp
        rw [approach_some hlo, inside_added ha, inside_next hp]
        simp only [Cuts.cuts_append, List.flatMap_append, written_text c hlo, hone, ihr h hr, List.nil_append,
          List.append_assoc]
    · have hsp : (e.node.range d).spliced = false := by simp [Node.range, ha]
      obtain ⟨hlo, hin, hafter⟩ := (orderly_inPlace ha).1 h
      have htree := written_cutTree he (ihb (c := e.node.range d) (d := d + 1) hin hb)
      have hle : e.node.span.start ≤ e.node.span.stop := (nests_ranges (d := 0) hin hb).le
      simp only [hsp, Bool.false_eq_true, if_false, Approach.pass, Node.range_start, Node.range_stop]
      rw [approach_some hlo, inside_inPlace ha, Nat.max_eq_right hle]
      simp only [Cuts.cuts_append, List.flatMap_append, written_text c hlo, htree, ihr hafter hr, List.append_nil,
        List.append_assoc]

theorem written_cutAll (he : Fits e b) (hb : b.Every Fits)
    (h : e.node.status ≠ .added → b.Orderly e.node.span.start e.node.span.stop) :
    ((tree e b).ranges d).cutAll.cuts.flatMap (written source) = (tree e b).render source := by
  have htree : (cutTree (e.node.range d) (b.ranges (d + 1))).cuts.flatMap (written source) =
      e.node.print source (b.inside? source e.node.span) := by
    by_cases ha : e.node.status = .added
    · obtain rfl := he.eq_nil ha
      exact written_leaf he.shown
    · exact written_cutTree he (written_cutAround (c := e.node.range d) (h ha) hb)
  rw [cutAll_ranges, htree]
  exact (List.append_nil _).symm

end Written

/-! ## Spliced cuts -/

section Spliced

variable {P : Range → Prop} {c : Range} {f : Forest Range}

theorem forall_cutTree (hdepth : ∀ r, P r → P { r with depth := 0 }) {r : Range} (hr : P r)
    (h : ∀ pos head, ∀ x ∈ (cutAround r pos head f).cuts, P x) : ∀ x ∈ (cutTree r f).cuts, P x := by
  cases f with
  | nil => exact List.forall_mem_singleton.2 (hdepth r hr)
  | node => exact h _ _

variable (hin : ∀ r, r.spliced = false → P r)

include hin

theorem forall_gap (lo hi : Nat) (a : Actions) : ∀ x ∈ (gap c lo hi a).cuts, P x := by
  rw [gap]
  split
  · exact List.forall_mem_singleton.2 (hin _ rfl)
  · exact fun _ hx => absurd hx List.not_mem_nil

theorem forall_approach (pos : Nat) (head : Actions) (child : Range) (upto? : Option Nat) :
    ∀ x ∈ (approach c pos head child upto?).before.cuts, P x := by
  cases upto? with
  | none => exact fun _ hx => absurd hx List.not_mem_nil
  | some upto =>
    intro x hx
    rcases List.mem_append.1 hx with hx | hx
    · split at hx <;> cases hx
    · exact forall_gap hin _ _ _ x hx

/-- What is true of all text in place and of all ranges is true of all cuts. -/
theorem forall_cutAround (hdepth : ∀ r, P r → P { r with depth := 0 }) {pos : Nat} {head : Actions}
    (h : ∀ r ∈ f.members, P r) : ∀ x ∈ (cutAround c pos head f).cuts, P x := by
  induction f generalizing c pos head with
  | nil => exact forall_gap hin _ _ _
  | node r b s ihb ihs =>
    simp only [members_node, List.mem_cons, List.mem_append] at h
    rw [cutAround_node]
    intro x hx
    simp only [Cuts.cuts_append, List.mem_append] at hx
    rcases hx with (hx | hx) | hx
    · exact forall_approach hin _ _ _ _ x hx
    · exact forall_cutTree hdepth (h r (.inl rfl)) (fun _ _ => ihb fun y hy => h y (.inr (.inl hy))) x hx
    · exact ihs (fun y hy => h y (.inr (.inr hy))) x hx

end Spliced

theorem mem_ranges {f : Forest Entry} {d : Nat} {x : Range} (h : x ∈ (f.ranges d).members) :
    ∃ e ∈ f.members, ∃ k, x = e.node.range k := by
  induction f generalizing d with
  | nil => cases h
  | node e b r ihb ihr =>
    simp only [ranges, members_node, List.mem_cons, List.mem_append] at h ⊢
    rcases h with rfl | h | h
    · exact ⟨e, .inl rfl, d, rfl⟩
    · obtain ⟨y, hy, hk⟩ := ihb h
      exact ⟨y, .inr (.inl hy), hk⟩
    · obtain ⟨y, hy, hk⟩ := ihr h
      exact ⟨y, .inr (.inr hy), hk⟩

/-! ## Writing what can be printed -/

namespace Printable

variable {source : List UInt8} {f b : Forest Entry} {e : Entry}

theorem fits (h : f.collected.Printable source) : f.collected.Every Fits :=
  (((every_of_members h.shown).and (stays_collected f)).and h.around).mono fun _ _ ⟨⟨hs, hk⟩, hl⟩ =>
    ⟨hs, fun hne => ⟨hk hne, hl hne⟩⟩

theorem spliced (h : (tree e b).Printable source) {x : Range} (hx : x ∈ ((tree e b).ranges 0).cutAll.cuts)
    (hs : x.spliced = true) : x.actions.omitted = false ∧ x.stop ≤ source.length := by
  have hall : ∀ r ∈ ((tree e b).ranges 0).members, r.spliced = true →
      r.actions.omitted = false ∧ r.stop ≤ source.length := by
    intro r hr hsp
    obtain ⟨y, hy, k, rfl⟩ := mem_ranges hr
    have ha : y.node.status = .added := by simpa [Node.range] using hsp
    exact ⟨by simp [Node.range, Node.requests, ha, Actions.union, h.shown y hy], h.added y hy ha⟩
  have hcuts := forall_cutTree (P := fun r => r.spliced = true → r.actions.omitted = false ∧ r.stop ≤ source.length)
    (fun _ hr => hr) (hall _ List.mem_cons_self) fun _ _ =>
      forall_cutAround (fun r hr hsp => by simp [hr] at hsp) (fun _ hr => hr) fun r hr =>
        hall r (List.mem_cons_of_mem _ (List.mem_append_left _ hr))
  rw [cutAll_ranges] at hx
  exact hcuts x hx hs

theorem orderly_below (h : (tree e b).Printable source) (ha : e.node.status ≠ .added) :
    b.Orderly e.node.span.start e.node.span.stop ∧ e.node.span.stop ≤ source.length := by
  obtain ⟨-, hb, hle⟩ := (orderly_inPlace ha).1 h.orderly
  exact ⟨hb, hle⟩

theorem covers (h : (tree e b).Printable source) (hf : (tree e b).Every Fits) :
    ∃ lo hi, hi ≤ source.length ∧ Covers lo hi ((tree e b).ranges 0).cutAll := by
  obtain ⟨he, hb, -⟩ := hf
  rw [cutAll_ranges]
  by_cases ha : e.node.status = .added
  · obtain rfl := he.eq_nil ha
    exact ⟨0, 0, Nat.zero_le _, covers_spliced (by simp [Node.range, ha])⟩
  · obtain ⟨hin, hle⟩ := h.orderly_below ha
    have hn := nests_ranges (d := 1) hin hb
    exact ⟨_, _, hle, covers_cutTree (r := e.node.range 0) (by simp [Node.range, ha]) hn.le hn.covers⟩

end Printable

end Forest

namespace Tree

variable {t : Tree} {source : List UInt8}

/-- **Writing a tree prints it.** Whatever became of the nodes of a tree, if those that have a place in the text are
nested and in order, writing the tree from its source gives the printed tree, and nothing fails. -/
theorem output_eq_render (ho : t.Owned) (hroot : t.parent? .root = none) (hspan : (t.span .root).isEmpty = false)
    (h : t.forest.collected.Printable source) :
    (t.emit (some (.file (.bytes source.toArray)))).output = t.render source ∧
      (t.emit (some (.file (.bytes source.toArray)))).failedChunks = 0 ∧
      (t.emit (some (.file (.bytes source.toArray)))).log = [] := by
  have hsize : 0 < t.size := by
    by_contra hn
    have hout : ¬Slot.root.index < t.size := hn
    rw [span, node_eq_default hout] at hspan
    cases hspan
  have hstands := ho.stands_forest hroot hsize
  obtain ⟨b, hb⟩ := forest_eq hsize
  obtain ⟨c, hc⟩ := Forest.collected_tree (b := b) (e := ⟨.root, t.node .root⟩) hspan
  have hf := h.fits
  rw [hb] at hstands h hf
  have hcuts : t.cuts = ((Forest.tree ⟨.root, t.node .root⟩ c).ranges 0).cutAll := by
    rw [Presentable.cuts_eq hstands rfl, Forest.ranged_eq_ranges, hc]
  rw [hc] at h hf
  obtain ⟨lo, hi, hle, hcover⟩ := h.covers hf
  have hw : Range.Wrote (Range.emit (some (.file (.bytes source.toArray))) .acceptAll t.cuts.cuts)
      (t.render source) := by
    rw [render, hb, hc, ← Forest.written_cutAll hf.1 hf.2.1 fun ha => (h.orderly_below ha).1, hcuts]
    exact Range.Writable.wrote ⟨hcover.contiguous, hle, fun x hx => h.spliced hx⟩ (Nat.zero_le lo)
  rw [← hcuts] at hcover
  refine ⟨hw.output, hw.failedChunks, ?_⟩
  simp only [Tree.emit, Tree.emitTo, hcover.overlaps, List.map_nil, List.nil_append]
  exact hw.log

/-- A replaced, a new and a removed node, one inside a node without text, and a new one at the end. -/
def patched : Tree where
  nodes := #[
    { construct := .unit [], span := ⟨0, 11⟩, children := [⟨1⟩, ⟨2⟩, ⟨3⟩, ⟨4⟩, ⟨6⟩] },
    { construct := .identifier "a", span := ⟨0, 1⟩, status := .modified, parent? := some .root, lead? := some "("
      replacement? := some "x" },
    { construct := .identifier "d", span := ⟨9, 10⟩, status := .added, parent? := some .root },
    { construct := .identifier "b", span := ⟨3, 5⟩, status := .removed, parent? := some .root },
    { construct := .group, children := [⟨5⟩], parent? := some .root },
    { construct := .identifier "c", span := ⟨6, 7⟩, status := .modified, actions := { braceAfter := true }
      parent? := some ⟨4⟩ },
    { construct := .emptyStatement, status := .added, parent? := some .root, replacement? := some "y" }]

theorem owned_patched : patched.Owned := owned_of_slots (by decide) (by decide) (by decide)

theorem output_eq_render_patched :
    patched.forest.collected.Printable (Utf8.encode "a; b; c; d;") ∧
      (patched.emit (some (.file (.bytes (Utf8.encode "a; b; c; d;").toArray)))).output =
        Utf8.encode "(x; \nd; c\n\x7d\ny;; d;" ∧
      (patched.emit (some (.file (.bytes (Utf8.encode "a; b; c; d;").toArray)))).failedChunks = 0 ∧
      (patched.emit (some (.file (.bytes (Utf8.encode "a; b; c; d;").toArray)))).log = [] := by
  have h : patched.forest.collected.Printable (Utf8.encode "a; b; c; d;") := by decide +kernel
  obtain ⟨houtput, hrest⟩ := output_eq_render owned_patched rfl rfl h
  exact ⟨h, houtput.trans (by decide +kernel), hrest⟩

/-- A node with other text in its stead, marked as if nothing had become of it. -/
def revived (t : Tree) (s : Slot) : Tree := (t.replaceText s "X").setStatus s .clean

set_option maxRecDepth 100000 in
/-- A clean node that was replaced keeps its own text if it has anything inside, and is replaced if not. -/
theorem output_revived :
    ∃ t, ((Assembly.start []).build (Utf8.encode "void f()\x7b g(); \x7d")).1 = .ok t ∧
      (t.revived ⟨2⟩).forest.collected.Printable (Utf8.encode "void f()\x7b g(); \x7d") ∧
      ((t.revived ⟨2⟩).emit (some (.file (.bytes (Utf8.encode "void f()\x7b g(); \x7d").toArray)))).output =
        Utf8.encode "void f()\x7b g(); \x7d" ∧
      (t.revived ⟨4⟩).forest.collected.Printable (Utf8.encode "void f()\x7b g(); \x7d") ∧
      ((t.revived ⟨4⟩).emit (some (.file (.bytes (Utf8.encode "void f()\x7b g(); \x7d").toArray)))).output =
        Utf8.encode "void f()\x7b X(); \x7d" := by
  exact ⟨_, Assembly.build_get _ _ (by decide +kernel), by decide +kernel⟩

end Tree

end Deferral
