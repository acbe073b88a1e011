import Deferral.Proofs.Emitting
import Deferral.Proofs.Layout

/-!
# Writing a tree

A tree whose nodes may have been edited is written from its forest. If the text of the nodes that were not added is
nested and in order (`Forest.InOrder`), so are the ranges, and the cuts of the whole tree cover the source.
-/

namespace Deferral

open Range

variable {source : List UInt8}

/-- Neither new nor replaced. -/
structure Entry.InPlace (e : Entry) : Prop where
  status : e.node.status ≠ .added
  own : e.node.replacement? = none

theorem Entry.Plain.inPlace {e : Entry} (h : e.Plain) : e.InPlace := ⟨by simp [h.status_eq], h.replacement?_eq⟩

namespace Forest

/-- The text of what was not added lies between `lo` and `hi`, that of a child inside its parent's, and siblings are in
order. What has no text stands for itself, and so does what is below it. -/
def InOrder : Nat → Nat → Forest Entry → Prop
  | lo, hi, nil => lo ≤ hi
  | lo, hi, node e below rest =>
    if e.node.status = .added then InOrder lo hi rest
    else
      (e.node.span = .absent ∧ e.node.replacement? = none ∧ InOrder lo lo below ∧ InOrder lo hi rest) ∨
        (lo ≤ e.node.span.start ∧ InOrder e.node.span.start e.node.span.stop below ∧ InOrder e.node.span.stop hi rest)

section InOrder

variable {lo mid hi d : Nat} {e : Entry} {b r f g : Forest Entry}

theorem inOrder_added (h : e.node.status = .added) : (node e b r).InOrder lo hi ↔ r.InOrder lo hi := by
  simp [InOrder, h]

theorem inOrder_inPlace (h : e.node.status ≠ .added) : (node e b r).InOrder lo hi ↔
    (e.node.span = .absent ∧ e.node.replacement? = none ∧ b.InOrder lo lo ∧ r.InOrder lo hi) ∨
      (lo ≤ e.node.span.start ∧ b.InOrder e.node.span.start e.node.span.stop ∧ r.InOrder e.node.span.stop hi) := by
  simp [InOrder, h]

theorem ranged_append (d : Nat) (f g : Forest Entry) : (f ++ g).ranged d = f.ranged d ++ g.ranged d := by
  induction f with
  | nil => rfl
  | node e b r _ ihr => simp only [node_append, ranged, ihr, append_assoc]

theorem Within.inOrder_node {x : Entry} {b' r' : Forest Entry} (h : (node e b r).Within lo hi) (hx : x.InPlace)
    (hspan : x.node.span = e.node.span) (hb : ∀ {lo hi}, b.Within lo hi → b'.InOrder lo hi)
    (hr : ∀ {lo}, r.Within lo hi → r'.InOrder lo hi) : (node x b' r').InOrder lo hi := by
  rw [inOrder_inPlace hx.status, hspan]
  rcases h with ⟨ha, rfl, h⟩ | ⟨_, hlo, hbelow, h⟩
  · exact .inl ⟨ha, hx.own, hb le_rfl, hr h⟩
  · exact .inr ⟨hlo, hb hbelow, hr h⟩

theorem Within.inOrder (h : f.Within lo hi) (hp : f.Every fun e _ => e.InPlace) : f.InOrder lo hi := by
  induction f generalizing lo hi with
  | nil => exact h
  | node e b r ihb ihr => exact h.inOrder_node hp.1 rfl (ihb · hp.2.1) (ihr · hp.2.2)

theorem InOrder.nests (h : f.InOrder lo hi) : (f.ranged d).Nests lo hi := by
  induction f generalizing lo hi d with
  | nil => exact h
  | node e b r ihb ihr =>
    have hs := e.node.shows d
    rw [ranged]
    generalize e.node.showing d = s at hs
    by_cases ha : e.node.status = .added
    · have hr := ihr (d := d) ((inOrder_added ha).1 h)
      cases hs with
      | spliced => exact .inl ⟨rfl, rfl, hr⟩
      | gone hs | omitted hs | replaced hs => simp [hs] at ha
      | through hs | around hs => rcases hs with hs | hs <;> simp [hs] at ha
    · rcases (inOrder_inPlace ha).1 h with ⟨hsp, hnone, hb, hr⟩ | ⟨hlo, hb, hr⟩
      · cases hs with
        | gone => exact ihr hr
        | spliced hs => exact absurd hs ha
        | replaced _ hsome => simp [hnone] at hsome
        | through => exact (ihb hb).append (ihr hr)
        | omitted _ he | around _ he => simp [hsp, Span.isEmpty, Span.absent] at he
      · have hout := hlo.trans (ihb hb (d := d)).le
        cases hs with
        | gone => exact (ihr hr).mono_left hout
        | spliced hs => exact absurd hs ha
        | omitted | replaced => exact .inr ⟨rfl, hlo, (ihb hb (d := d)).le, ihr hr⟩
        | through => exact ((ihb hb).mono_left hlo).append (ihr hr)
        | around => exact .inr ⟨rfl, hlo, ihb hb, ihr hr⟩

end InOrder

/-- Nodes that stay ask for things of a sort only, and have nothing but their own text. -/
def Tame (A : Actions → Prop) : Forest Entry → Prop :=
  Every fun e _ => e.node.Stays → A e.node.actions ∧ e.node.lead? = none ∧ e.node.replacement? = none

theorem Tame.bareAround {A : Actions → Prop} {f : Forest Entry} {d : Nat} (h : f.Tame A) :
    (f.ranged d).BareAround A := by
  induction f generalizing d with
  | nil => trivial
  | node e b r ihb ihr =>
    obtain ⟨he, hb, hr⟩ := h
    have hs := e.node.shows d
    rw [ranged]
    generalize e.node.showing d = s at hs
    cases hs with
    | gone => exact ihr hr
    | omitted | spliced | replaced => exact ⟨fun h => absurd rfl h, trivial, ihr hr⟩
    | through => exact every_append.2 ⟨ihb hb, ihr hr⟩
    | around hs =>
      obtain ⟨ha, hl, hn⟩ := he hs
      exact ⟨fun _ => ⟨rfl, ha, hl, hn⟩, ihb hb, ihr hr⟩

/-- Added nodes show, with text from the first `n` bytes of the source. -/
def Splices (n : Nat) (f : Forest Entry) : Prop :=
  ∀ e ∈ f.members, e.node.status = .added → e.node.actions.omitted = false ∧ e.node.span.stop ≤ n

theorem Splices.ranged {n d : Nat} {f : Forest Entry} (h : f.Splices n) {r : Range} (hr : r ∈ (f.ranged d).members)
    (hsp : r.spliced = true) : r.actions.omitted = false ∧ r.stop ≤ n := by
  obtain ⟨e, he, k, hs⟩ := exists_shows hr
  rcases hs with hs | hs
  · cases hs with
    | spliced hs => exact ⟨by simp [Actions.union, (h e he hs).1], (h e he hs).2⟩
    | omitted | replaced => cases hsp
  · cases hs
    cases hsp

end Forest

/-! ## The cuts of a tree -/

theorem Tree.wrote_of_writable {t : Tree} {lo hi : Nat} (h : Writable source lo hi t.cuts.cuts)
    (ho : t.cuts.overlaps = []) :
    Wrote (t.emit (some (.file (.bytes source.toArray)))) (t.cuts.cuts.flatMap (written source)) := by
  have hw : Wrote (Range.emit (some (.file (.bytes source.toArray))) .acceptAll t.cuts.cuts)
      (t.cuts.cuts.flatMap (written source)) := h.wrote (Nat.zero_le lo)
  exact ⟨hw.output, hw.bytesWritten, hw.failedChunks, by simp [Tree.emit, Tree.emitTo, ho, hw.log]⟩

theorem requests_shown : Requests (·.omitted = false) where
  none := rfl
  leading _ := rfl
  trailing _ := rfl
  union ha hb := by simp [Actions.union, ha, hb]

/-- A tree whose root is kept and covers the source, ready to be written. -/
structure Presentable (n : Nat) (e : Entry) (b : Forest Entry) : Prop where
  stays : e.node.Stays
  span : e.node.span = ⟨0, n⟩
  empty : n = 0 → b = .nil
  inOrder : b.InOrder 0 n
  tame : (Forest.tree e b).Tame (·.omitted = false)
  splices : (Forest.tree e b).Splices n

namespace Presentable

variable {n : Nat} {e : Entry} {b : Forest Entry} {t : Tree} {low : Nat}

/-- The range of the whole source. -/
def whole (e : Entry) : Range := { ofNode e.node 0 with actions := e.node.actions }

theorem covers (h : Presentable n e b) : Forest.Covers 0 n ((Forest.tree e b).ranged 0).cutAll := by
  rw [Forest.tree, Forest.ranged, h.stays.showing_eq, Node.kept]
  rcases Nat.eq_zero_or_pos n with rfl | hn
  · have hempty : e.node.span.isEmpty = true := by simp [h.span, Span.isEmpty]
    rw [hempty, h.empty rfl]
    exact Forest.covers_nothing
  · have hempty : e.node.span.isEmpty = false := by simpa [h.span, Span.isEmpty] using hn.ne'
    rw [hempty]
    have hstart : (whole e).start = 0 := congrArg Span.start h.span
    have hstop : (whole e).stop = n := congrArg Span.stop h.span
    have hb : (b.ranged 1).Nests (whole e).start (whole e).stop := by
      rw [hstart, hstop]
      exact h.inOrder.nests
    have htree := Forest.covers_cutTree rfl hb.le (hb.covers (c := whole e))
    rw [hstart, hstop] at htree
    exact htree.append Forest.covers_nothing

theorem cuts_eq (hs : t.Stands none low (.tree e b)) (he : e.slot = .root) :
    t.cuts = ((Forest.tree e b).ranged 0).cutAll := by
  rw [Tree.cuts, collect_eq_members hs he, squash_members (Forest.levelled_ranged _ 0)]

theorem writable (h : Presentable source.length e b) :
    Writable source 0 source.length ((Forest.tree e b).ranged 0).cutAll.cuts := by
  refine ⟨h.covers.contiguous, le_rfl, ?_⟩
  refine Forest.forall_cutAll requests_shown (fun r hr hsp => ?_) (fun _ _ hr => hr) h.tame.bareAround fun r hr =>
    h.splices.ranged hr
  simp [hr.inPlace] at hsp

theorem contiguous (h : Presentable n e b) (hs : t.Stands none low (.tree e b)) (he : e.slot = .root) :
    Contiguous 0 n t.cuts.cuts := by
  rw [cuts_eq hs he]
  exact h.covers.contiguous

theorem wrote (h : Presentable source.length e b) (hs : t.Stands none low (.tree e b))
    (he : e.slot = .root) :
    Wrote (t.emit (some (.file (.bytes source.toArray)))) (t.cuts.cuts.flatMap (written source)) := by
  have hcuts := cuts_eq hs he
  exact Tree.wrote_of_writable (hcuts ▸ h.writable) (hcuts ▸ h.covers.overlaps)

end Presentable

end Deferral
