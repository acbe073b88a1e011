import Deferral.Proofs.Absorbing
import Mathlib.Logic.Relation

/-!
# Parents and children

Whatever its nodes are, a tree in slots is one only if children and parents agree: each child is a child once and of one
node, which is its parent, and following parents comes to an end (`Tree.Owned`). The changes that build a tree keep
this, each under what it needs: a child that has no parent yet, and a parent that is not below the child.
-/

namespace Deferral.Tree

open List

variable {t t' : Tree} {s u v p c g : Slot}

/-! ## Fields after a change -/

theorem node_eq_default (h : ¬s.index < t.size) : t.node s = default := by
  simp [node, size] at h ⊢
  simp [h]

section Setters

variable {construct : Construct} {span : Span}

@[simp] theorem size_setConstruct : (t.setConstruct s construct).size = t.size := size_modify t s _

@[simp] theorem children_setConstruct : (t.setConstruct s construct).children u = t.children u := by
  rw [children, setConstruct, node_modify]
  split <;> rfl

@[simp] theorem parent?_setConstruct : (t.setConstruct s construct).parent? u = t.parent? u := by
  rw [parent?, setConstruct, node_modify]
  split <;> rfl

theorem construct_setConstruct : (t.setConstruct s construct).construct u =
    if u = s ∧ s.index < t.size then construct else t.construct u := by
  rw [Tree.construct, setConstruct, node_modify]
  split <;> rfl

@[simp] theorem size_setSpan : (t.setSpan s span).size = t.size := size_modify t s _

@[simp] theorem children_setSpan : (t.setSpan s span).children u = t.children u := by
  rw [children, setSpan, node_modify]
  split <;> rfl

@[simp] theorem parent?_setSpan : (t.setSpan s span).parent? u = t.parent? u := by
  rw [parent?, setSpan, node_modify]
  split <;> rfl

@[simp] theorem construct_setSpan : (t.setSpan s span).construct u = t.construct u := by
  rw [Tree.construct, setSpan, node_modify]
  split <;> rfl

@[simp] theorem tag_setSpan : (t.setSpan s span).tag u = t.tag u := by
  rw [tag, setSpan, node_modify]
  split <;> rfl

end Setters

theorem tag_eq (t : Tree) (s : Slot) : t.tag s = (t.construct s).tag := rfl

theorem tag_setConstruct {construct : Construct} (h : construct.tag = t.tag s) :
    (t.setConstruct s construct).tag u = t.tag u := by
  rw [tag_eq, construct_setConstruct]
  split
  case isTrue hu => rw [h, hu.1]
  case isFalse => rfl

section Push

variable {construct : Construct} {span : Span}

theorem construct_push : (t.push construct span).2.construct u = if u = ⟨t.size⟩ then construct else t.construct u := by
  rw [Tree.construct, node_push]
  by_cases h : u = ⟨t.size⟩
  · simp [h]
  · rw [if_neg h, if_neg fun hi => h (by cases u; exact congrArg Slot.mk hi)]
    rfl

@[simp] theorem children_push : (t.push construct span).2.children u = t.children u := by
  rw [children, node_push]
  split
  case isTrue h => rw [children, node_eq_default (by omega)]; rfl
  case isFalse => rfl

@[simp] theorem parent?_push : (t.push construct span).2.parent? u = t.parent? u := by
  rw [parent?, node_push]
  split
  case isTrue h => rw [parent?, node_eq_default (by omega)]; rfl
  case isFalse => rfl

end Push

theorem children_eq_nil (h : ¬s.index < t.size) : t.children s = [] := by rw [children, node_eq_default h]; rfl

theorem parent?_eq_none (h : ¬s.index < t.size) : t.parent? s = none := by rw [parent?, node_eq_default h]; rfl

theorem lt_size_of_tag (h : t.tag s ≠ .emptyStatement) : s.index < t.size := by
  by_contra hs
  exact h (by rw [tag, node_eq_default hs]; rfl)

section Attach

@[simp] theorem construct_attach : (t.attach p c).construct u = t.construct u := by
  rw [attach, Tree.construct, node_modify, node_modify]
  split <;> split <;> rfl

@[simp] theorem tag_attach : (t.attach p c).tag u = t.tag u := by simp only [tag_eq, construct_attach]

theorem parent?_attach (hc : c.index < t.size) :
    (t.attach p c).parent? u = if u = c then some p else t.parent? u := by
  rw [attach, parent?, node_modify, node_modify]
  by_cases h : u = c
  · rw [if_pos (c := u = c ∧ _) ⟨h, hc⟩, if_pos h]
    split <;> rfl
  · rw [if_neg (c := u = c ∧ _) fun h' => h h'.1, if_neg h]
    split <;> rfl

theorem children_attach (hp : p.index < t.size) :
    (t.attach p c).children u = if u = p then t.children u ++ [c] else t.children u := by
  rw [attach, children, node_modify, size_modify]
  by_cases h : u = p
  · rw [if_pos ⟨h, hp⟩, if_pos h, node_modify]
    split <;> rfl
  · rw [if_neg fun h' => h h'.1, if_neg h, node_modify]
    split <;> rfl

@[simp] theorem construct_attachAll : ∀ (cs : List Slot) (t : Tree), (t.attachAll p cs).construct u = t.construct u
  | [], _ => rfl
  | c :: cs, t => (construct_attachAll cs (t.attach p c)).trans construct_attach

theorem children_attachAll : ∀ (cs : List Slot) (t : Tree), p.index < t.size →
    (t.attachAll p cs).children u = if u = p then t.children u ++ cs else t.children u
  | [], t, _ => by simp [attachAll]
  | c :: cs, t, hp => by
    have h := children_attachAll cs (t.attach p c) (by rwa [size_attach])
    rw [show t.attachAll p (c :: cs) = (t.attach p c).attachAll p cs from rfl, h, children_attach hp]
    split <;> simp

theorem parent?_tie (hc : c.index < t.size) :
    (t.modify c ({ · with parent? := some p })).parent? u = if u = c then some p else t.parent? u := by
  rw [parent?, node_modify]
  by_cases hu : u = c
  · rw [if_pos ⟨hu, hc⟩, if_pos hu]
  · rw [if_neg fun h => hu h.1, if_neg hu]
    rfl

end Attach

/-! ## Following parents -/

/-- From `s` one comes to `u` by following parents. -/
abbrev Leads (t : Tree) : Slot → Slot → Prop := Relation.ReflTransGen fun s u => t.parent? s = some u

/-- Following parents comes to an end. -/
inductive Ends (t : Tree) : Slot → Prop
  | top {s : Slot} (h : t.parent? s = none) : Ends t s
  | up {s p : Slot} (h : t.parent? s = some p) (hp : Ends t p) : Ends t s

theorem Leads.eq_of_none (h : t.Leads s u) (hs : t.parent? s = none) : u = s := by
  rcases h.cases_head with rfl | ⟨v, hv, -⟩
  · rfl
  · simp [hs] at hv

theorem Leads.congr (h : t.Leads s u) (hp : ∀ v, t.Leads s v → t'.parent? v = t.parent? v) : t'.Leads s u := by
  induction h with
  | refl => exact .refl
  | tail hv hu ih => exact ih.tail ((hp _ hv).trans hu)

theorem Ends.congr (h : t.Ends s) (hp : ∀ v, t.Leads s v → t'.parent? v = t.parent? v) : t'.Ends s := by
  induction h with
  | top hs => exact .top ((hp _ .refl).trans hs)
  | up hs _ ih => exact .up ((hp _ .refl).trans hs) (ih fun v hv => hp v (.head hs hv))

theorem Ends.not_leads (h : t.Ends s) (hp : t.parent? s = some p) : ¬t.Leads p s := by
  induction h generalizing p with
  | top hs => simp [hs] at hp
  | up hs _ ih =>
    obtain rfl := Option.some.inj (hs.symm.trans hp)
    intro hback
    rcases hback.cases_head with rfl | ⟨v, hv, hvs⟩
    · exact ih hs .refl
    · exact ih hv (hvs.tail hs)

section Link

variable (hlink : ∀ v, t'.parent? v = if v = c then some p else t.parent? v)

include hlink

theorem Ends.link (h : t.Ends s) (hc : t.parent? c = none) (hfar : ¬t.Leads p c) (hp : t.Ends p) : t'.Ends s := by
  have hp' : t'.Ends p := hp.congr fun v hv => by
    rw [hlink, if_neg]
    rintro rfl
    exact hfar hv
  induction h with
  | @top s hs =>
    by_cases h : s = c
    · exact .up ((hlink s).trans (if_pos h)) hp'
    · exact .top ((hlink s).trans ((if_neg h).trans hs))
  | @up s q hs _ ih =>
    have h : s ≠ c := fun h => by simp [h, hc] at hs
    exact .up ((hlink s).trans ((if_neg h).trans hs)) ih

theorem Leads.of_link (h : t'.Leads s u) : t.Leads s u ∨ t.Leads s c ∧ t.Leads p u := by
  induction h with
  | refl => exact .inl .refl
  | @tail v w hv hw ih =>
    rw [hlink] at hw
    split at hw
    case isTrue h =>
      cases hw
      subst h
      rcases ih with ih | ih
      · exact .inr ⟨ih, .refl⟩
      · exact .inr ⟨ih.1, .refl⟩
    case isFalse => exact ih.imp (·.tail hw) (And.imp_right (·.tail hw))

end Link

/-! ## Header groups above a node -/

/-- Whether a header group is the node or below it. -/
def Heavy (t : Tree) (s : Slot) : Prop := ∃ g, t.tag g = .group ∧ t.Leads g s

theorem Heavy.of_link (hlink : ∀ v, t'.parent? v = if v = c then some p else t.parent? v)
    (htag : ∀ v, t'.tag v = t.tag v) (h : t'.Heavy s) : t.Heavy s ∨ t.Heavy c ∧ t.Leads p s := by
  obtain ⟨g, hg, hl⟩ := h
  rw [htag] at hg
  exact (Leads.of_link hlink hl).imp (⟨g, hg, ·⟩) (And.imp_left (⟨g, hg, ·⟩))

theorem Heavy.of_leads (htag : ∀ v, t'.tag v = t.tag v) (hl : ∀ v, t'.Leads v s → t.Leads v s) (h : t'.Heavy s) :
    t.Heavy s := by
  obtain ⟨g, hg, h⟩ := h
  exact ⟨g, htag g ▸ hg, hl g h⟩

theorem Leads.of_parent (hp : ∀ v, t'.parent? v = t.parent? v) (h : t'.Leads s u) : t.Leads s u :=
  h.congr fun v _ => (hp v).symm

/-! ## Owned nodes -/

/-- Children and parents agree. -/
structure Owned (t : Tree) : Prop where
  /-- A child is in use, and its parent is the node that has it. -/
  child : ∀ {p c}, c ∈ t.children p → c.index < t.size ∧ t.parent? c = some p
  /-- A node has a child once. -/
  nodup : ∀ p, (t.children p).Nodup
  /-- A parent has the node among its children, or is a function that has it as a parameter. -/
  parent : ∀ {c p}, t.parent? c = some p → c ∈ t.children p ∨ c ∈ (t.construct p).params
  ends : ∀ s, t.Ends s

namespace Owned

theorem unique (h : t.Owned) (hp : c ∈ t.children p) (hs : c ∈ t.children s) : p = s :=
  Option.some.inj ((h.child hp).2.symm.trans (h.child hs).2)

theorem ofPath (path : Path) : (Tree.ofPath path).Owned := by
  have hc : ∀ s, (Tree.ofPath path).children s = [] ∧ (Tree.ofPath path).parent? s = none := by
    rintro ⟨_ | i⟩
    · exact ⟨rfl, rfl⟩
    · exact ⟨children_eq_nil (by simp [Tree.ofPath, size]), parent?_eq_none (by simp [Tree.ofPath, size])⟩
  exact {
    child := fun h => by simp [(hc _).1] at h
    nodup := fun p => by simp [(hc p).1]
    parent := fun h => by simp [(hc _).2] at h
    ends := fun s => .top (hc s).2 }

theorem congr (h : t.Owned) (hsize : t.size ≤ t'.size) (hc : ∀ s, t'.children s = t.children s)
    (hp : ∀ s, t'.parent? s = t.parent? s)
    (hparams : ∀ {s c}, t.parent? c = some s → c ∈ (t.construct s).params → c ∈ (t'.construct s).params) :
    t'.Owned where
  child hm := by
    rw [hc] at hm
    rw [hp]
    exact ⟨Nat.lt_of_lt_of_le (h.child hm).1 hsize, (h.child hm).2⟩
  nodup p := by
    rw [hc]
    exact h.nodup p
  parent hm := by
    rw [hp] at hm
    rw [hc]
    exact (h.parent hm).imp_right (hparams hm)
  ends s := (h.ends s).congr fun v _ => hp v

theorem setSpan (h : t.Owned) (s : Slot) (span : Span) : (t.setSpan s span).Owned :=
  h.congr (Nat.le_of_eq size_setSpan.symm) (fun _ => children_setSpan) (fun _ => parent?_setSpan) fun _ hm => by
    rwa [construct_setSpan]

theorem setConstruct (h : t.Owned) {construct : Construct} (hparams : construct.params = (t.construct s).params) :
    (t.setConstruct s construct).Owned :=
  h.congr (Nat.le_of_eq size_setConstruct.symm) (fun _ => children_setConstruct) (fun _ => parent?_setConstruct)
    fun {v _} _ hm => by
      rw [construct_setConstruct]
      split
      case isTrue hv => rwa [hparams, ← hv.1]
      case isFalse => exact hm

theorem push (h : t.Owned) (construct : Construct) (span : Span) : (t.push construct span).2.Owned :=
  h.congr (by simp) (fun _ => children_push) (fun _ => parent?_push) fun {v c} hc hm => by
    rw [construct_push, if_neg]
    · exact hm
    rintro rfl
    simp [Tree.construct, node_eq_default, Construct.params, default] at hm

theorem not_leads_of_none (hp : t.parent? p = none) (hne : p ≠ c) : ¬t.Leads p c := fun h => hne (h.eq_of_none hp).symm

/-- A node without parent becomes a child of one that is not below it, at some place among the children. -/
theorem link (h : t.Owned) (hc : c.index < t.size) (hroot : t.parent? c = none) (hfar : ¬t.Leads p c)
    (hsize : t'.size = t.size) (hconstruct : ∀ u, t'.construct u = t.construct u)
    (hparent : ∀ u, t'.parent? u = if u = c then some p else t.parent? u)
    (hother : ∀ u, u ≠ p → t'.children u = t.children u) (hperm : (t'.children p).Perm (c :: t.children p)) :
    t'.Owned := by
  have hnew : ∀ q, c ∉ t.children q := fun q hq => by simp [(h.child hq).2] at hroot
  have hmem : ∀ {q x}, x ∈ t'.children q ↔ q = p ∧ x = c ∨ x ∈ t.children q := fun {q x} => by
    by_cases hq : q = p
    · rw [hq, hperm.mem_iff, mem_cons]
      simp
    · rw [hother q hq]
      simp [hq]
  refine ⟨fun {q x} hx => ?_, fun q => ?_, fun {x q} hx => ?_,
    fun s => Ends.link hparent (h.ends s) hroot hfar (h.ends p)⟩
  · rw [hparent, hsize]
    rcases hmem.1 hx with ⟨rfl, rfl⟩ | hx
    · exact ⟨hc, if_pos rfl⟩
    · rw [if_neg fun he : x = c => hnew q (he ▸ hx)]
      exact h.child hx
  · by_cases hq : q = p
    · rw [hq, hperm.nodup_iff, nodup_cons]
      exact ⟨hnew p, h.nodup p⟩
    · rw [hother q hq]
      exact h.nodup q
  · rw [hparent] at hx
    rw [hmem, hconstruct]
    split at hx
    case isTrue he => exact .inl (.inl ⟨(Option.some.inj hx).symm, he⟩)
    case isFalse => exact (h.parent hx).imp_left .inr

theorem attach (h : t.Owned) (hp : p.index < t.size) (hc : c.index < t.size) (hroot : t.parent? c = none)
    (hfar : ¬t.Leads p c) : (t.attach p c).Owned := by
  refine h.link hc hroot hfar (size_attach t p c) (fun _ => construct_attach) (fun _ => parent?_attach hc)
    (fun u hu => ?_) ?_
  · rw [children_attach hp, if_neg hu]
  · rw [children_attach hp, if_pos rfl]
    exact perm_append_singleton c (t.children p)

theorem tie (h : t.Owned) (hc : c.index < t.size) (hroot : t.parent? c = none) (hfar : ¬t.Leads p c)
    (hparam : c ∈ (t.construct p).params) : (t.modify c ({ · with parent? := some p })).Owned := by
  have hlink : ∀ v, (t.modify c ({ · with parent? := some p })).parent? v = if v = c then some p else t.parent? v :=
    fun v => parent?_tie hc
  have hch : ∀ v, (t.modify c ({ · with parent? := some p })).children v = t.children v := by
    intro v
    rw [children, node_modify]
    split <;> rfl
  have hco : ∀ v, (t.modify c ({ · with parent? := some p })).construct v = t.construct v := by
    intro v
    rw [Tree.construct, node_modify]
    split <;> rfl
  refine ⟨fun {q x} hx => ?_, fun q => (hch q).symm ▸ h.nodup q, fun {x q} hx => ?_,
    fun s => Ends.link hlink (h.ends s) hroot hfar (h.ends p)⟩
  · rw [hch] at hx
    rw [hlink, size_modify, if_neg fun he => ?_]
    · exact h.child hx
    · simp [← he, (h.child hx).2] at hroot
  · rw [hlink] at hx
    rw [hch, hco]
    split at hx
    case isTrue he =>
      cases hx
      exact .inr (he ▸ hparam)
    case isFalse => exact h.parent hx

end Owned

/-! ## Dissolved scopes -/

section Dissolve

variable {outer inner : Slot}

@[simp] theorem construct_dissolve : (t.dissolve outer inner).construct u = t.construct u := by
  simp only [dissolve, Tree.construct, node_forget]
  rw [node_modify, node_modify, node_foldl_parent]
  split <;> split <;> split <;> rfl

theorem parent?_dissolve (hi : inner.index < t.size) (hm : ∀ c ∈ t.children inner, c.index < t.size) :
    (t.dissolve outer inner).parent? u =
      if u = inner then none else if u ∈ t.children inner then some outer else t.parent? u := by
  simp only [dissolve, parent?, node_forget]
  by_cases h : u = inner
  · subst h
    rw [node_modify_self (by rwa [size_modify, size_foldl_modify]), if_pos rfl]
  · rw [node_modify_ne h, if_neg h, node_modify, node_foldl_parent]
    by_cases hu : u ∈ t.children inner
    · rw [if_pos hu, if_pos (c := u ∈ t.children inner ∧ _) ⟨hu, hm u hu⟩]
      split <;> rfl
    · rw [if_neg hu, if_neg (c := u ∈ t.children inner ∧ _) fun h' => hu h'.1]
      split <;> rfl

theorem children_dissolve {l r : List Slot} (ho : outer.index < t.size) (hi : inner.index < t.size)
    (hne : outer ≠ inner)
    (hlr : t.children outer = l ++ inner :: r) (hl : inner ∉ l) : (t.dissolve outer inner).children u =
      if u = inner then [] else if u = outer then l ++ t.children inner ++ r else t.children u := by
  simp only [dissolve, children, node_forget]
  by_cases h : u = inner
  · subst h
    rw [node_modify_self (by rwa [size_modify, size_foldl_modify]), if_pos rfl]
  · rw [node_modify_ne h, if_neg h]
    by_cases hu : u = outer
    · subst hu
      have hsame : ((t.node inner).children.foldl (fun t c => t.modify c ({ · with parent? := some u })) t).node u =
          { t.node u with
            parent? := (if u ∈ (t.node inner).children ∧ u.index < t.size then some u else t.parent? u) } := by
        rw [node_foldl_parent]
        split <;> rfl
      have hbefore : (l ++ inner :: r).takeWhile (· != inner) = l := by
        rw [takeWhile_append_of_pos fun x hx => by simpa using fun he : x = inner => hl (he ▸ hx)]
        simp
      rw [if_pos rfl, node_modify_self (by rwa [size_foldl_modify]), hsame]
      dsimp only
      rw [show (t.node u).children = l ++ inner :: r from hlr, hbefore, ← drop_drop, drop_left]
      rfl
    · rw [if_neg hu, node_modify_ne hu, node_foldl_parent]
      split <;> rfl

end Dissolve

namespace Owned

variable {outer inner : Slot}

theorem lt_of_child (hc : c ∈ t.children p) : p.index < t.size := by
  by_contra hp
  simp [children_eq_nil hp] at hc

theorem ne_of_child (h : t.Owned) (hc : c ∈ t.children p) : p ≠ c := fun he =>
  (h.ends c).not_leads (h.child hc).2 (he ▸ .refl)

section

variable (h : t.Owned) (hi : inner ∈ t.children outer)
include h hi

theorem exists_split :
    ∃ l r, t.children outer = l ++ inner :: r ∧ inner ∉ l ∧ inner ∉ r := by
  obtain ⟨l, r, hlr⟩ := append_of_mem hi
  have hnd := h.nodup outer
  rw [hlr, nodup_append, nodup_cons] at hnd
  exact ⟨l, r, hlr, fun hl => hnd.2.2 inner hl inner mem_cons_self rfl, hnd.2.1.1⟩

theorem parent?_dissolve : (t.dissolve outer inner).parent? u =
    if u = inner then none else if u ∈ t.children inner then some outer else t.parent? u :=
  Tree.parent?_dissolve (h.child hi).1 fun _ hc => (h.child hc).1

theorem leads_of_dissolve (hl : (t.dissolve outer inner).Leads s u) :
    t.Leads s u := by
  induction hl with
  | refl => exact .refl
  | @tail v w _ hw ih =>
    rw [h.parent?_dissolve hi] at hw
    split at hw
    case isTrue => cases hw
    case isFalse =>
      split at hw
      case isTrue hv =>
        cases hw
        exact (ih.tail (h.child hv).2).tail (h.child hi).2
      case isFalse => exact ih.tail hw

theorem dissolve (hparams : (t.construct inner).params = []) :
    (t.dissolve outer inner).Owned := by
  obtain ⟨l, r, hlr, hl, hr⟩ := h.exists_split hi
  have hne := h.ne_of_child hi
  have hpar : ∀ u, (t.dissolve outer inner).parent? u = _ := fun u => h.parent?_dissolve hi
  have hch : ∀ u, (t.dissolve outer inner).children u =
      if u = inner then [] else if u = outer then l ++ t.children inner ++ r else t.children u := fun u =>
    children_dissolve (lt_of_child hi) (h.child hi).1 hne hlr hl
  have hmem : ∀ {x}, x ∈ l ∨ x ∈ r → x ∈ t.children outer := by
    rintro x (hx | hx) <;> simp [hlr, hx]
  -- A child of one node is not a child of another.
  have hother : ∀ {x q}, x ∈ t.children q → q ≠ inner → x ∉ t.children inner := fun hx hq hx' =>
    hq (h.unique hx hx')
  have houter : (t.dissolve outer inner).Ends outer := by
    refine (h.ends outer).congr fun v hv => ?_
    have hvi : v ≠ inner := by
      rintro rfl
      exact (h.ends v).not_leads (h.child hi).2 hv
    rw [hpar, if_neg hvi, if_neg]
    exact fun hm => (h.ends inner).not_leads (h.child hi).2 (hv.tail (h.child hm).2)
  refine ⟨fun {q x} hx => ?_, fun q => ?_, fun {x q} hx => ?_, fun s => ?_⟩
  · rw [hch] at hx
    rw [hpar, size_dissolve]
    split at hx
    case isTrue => simp at hx
    case isFalse hqi =>
      split at hx
      case isTrue hq =>
        subst hq
        rw [append_assoc, mem_append, mem_append] at hx
        rcases hx with hx | hx | hx
        · rw [if_neg fun he : x = inner => hl (he ▸ hx), if_neg (hother (hmem (.inl hx)) hqi)]
          exact h.child (hmem (.inl hx))
        · rw [if_neg fun he : x = inner => h.ne_of_child hx he.symm, if_pos hx]
          exact ⟨(h.child hx).1, rfl⟩
        · rw [if_neg fun he : x = inner => hr (he ▸ hx), if_neg (hother (hmem (.inr hx)) hqi)]
          exact h.child (hmem (.inr hx))
      case isFalse hq =>
        rw [if_neg fun he : x = inner => hq (h.unique (he ▸ hx) hi), if_neg (hother hx hqi)]
        exact h.child hx
  · rw [hch]
    split
    · exact nodup_nil
    · split
      · have hnd := h.nodup outer
        simp only [hlr, nodup_append, nodup_cons, mem_cons] at hnd
        have hd : ∀ {x}, x ∈ l ∨ x ∈ r → x ∉ t.children inner := fun hx => hother (hmem hx) hne
        refine nodup_append.2 ⟨nodup_append.2 ⟨hnd.1, h.nodup inner, fun x hx y hy he => ?_⟩, hnd.2.1.2,
          fun x hx y hy he => ?_⟩
        · exact hd (.inl hx) (he ▸ hy)
        · rcases mem_append.1 hx with hx | hx
          · exact hnd.2.2 x hx y (.inr hy) he
          · exact hd (.inr hy) (he ▸ hx)
      · exact h.nodup q
  · rw [hpar] at hx
    rw [hch, construct_dissolve]
    split at hx
    case isTrue => cases hx
    case isFalse hxi =>
      split at hx
      case isTrue hm =>
        cases hx
        rw [if_neg hne, if_pos rfl]
        exact .inl (by simp [hm])
      case isFalse hm =>
        rcases h.parent hx with hc | hc
        · rw [if_neg fun he : q = inner => hm (he ▸ hc)]
          split
          case isTrue hq =>
            rw [hq, hlr] at hc
            refine .inl ?_
            simp only [mem_append, mem_cons] at hc ⊢
            rcases hc with hc | hc | hc
            · exact .inl (.inl hc)
            · exact absurd hc hxi
            · exact .inr hc
          case isFalse => exact .inl hc
        · exact .inr hc
  · induction h.ends s with
    | @top s hs =>
      refine .top ?_
      rw [hpar]
      split
      · rfl
      · rw [if_neg fun hm => by simp [(h.child hm).2] at hs]
        exact hs
    | @up s p hs _ ih =>
      by_cases hsi : s = inner
      · exact .top ((hpar s).trans (if_pos hsi))
      · by_cases hm : s ∈ t.children inner
        · exact .up ((hpar s).trans ((if_neg hsi).trans (if_pos hm))) houter
        · exact .up ((hpar s).trans ((if_neg hsi).trans ((if_neg hm).trans hs))) ih

end

end Owned

/-! ## Scopes that add nothing -/

theorem mem_children_of_redundantBody? (h : t.redundantBody? s = some u) : u ∈ t.children s ∧ t.tag u = .scope := by
  have beside : ∀ {cs : List Slot}, redundantBody?.besideGroup t cs = some u → u ∈ cs ∧ t.tag u = .scope := by
    intro cs hb
    obtain ⟨hf, hsc⟩ := besideGroup_eq_some hb
    have hm : u ∈ cs.filter (t.tag · != .group) := by simp [hf]
    exact ⟨(mem_filter.1 hm).1, by simpa [isScope] using hsc⟩
  unfold redundantBody? at h
  dsimp only at h
  split at h
  case h_1 =>
    split at h
    case h_1 body hc =>
      split at h
      case isTrue hsc =>
        cases h
        exact ⟨by simp [hc], by simpa [isScope] using hsc⟩
      case isFalse => cases h
    case h_2 => cases h
  case h_2 =>
    split at h
    · cases h
    · exact beside h
  case h_3 => exact beside h
  case h_4 => exact beside h
  case h_5 => cases h

/-- The tree after the scope `body` is dissolved into `s`. -/
def foldBody (t : Tree) (s body : Slot) : Tree :=
  (t.dissolve s body).modify s fun node => { node with construct := node.construct.setBraced (t.construct body).braced }

/-- The scopes that are dissolved into `s` in at most `steps` rounds. -/
def absorbedIn (s : Slot) : (steps : Nat) → Tree → List Slot
  | 0, _ => []
  | n + 1, t =>
    match t.redundantBody? s with
    | none => []
    | some body => body :: absorbedIn s n (t.foldBody s body)

/-- The scopes that are dissolved into `s` because they add nothing to it. -/
def absorbed (t : Tree) (s : Slot) : List Slot := absorbedIn s t.size t

theorem absorbIn_succ (n : Nat) (h : t.redundantBody? s = some u) :
    (absorbIn s (n + 1) t).2 = (absorbIn s n (t.foldBody s u)).2 := by
  rw [absorbIn, h]
  rfl

/-- What dissolving one redundant scope keeps is kept when all of them are dissolved. -/
theorem absorbIn_induction {motive : Tree → Prop}
    (step : ∀ {t body}, motive t → t.redundantBody? s = some body → motive (t.foldBody s body)) :
    ∀ (n : Nat) {t : Tree}, motive t → motive (absorbIn s n t).2
  | 0, _, h => h
  | n + 1, t, h => by
    cases hb : t.redundantBody? s with
    | none =>
      rw [absorbIn, hb]
      exact h
    | some body =>
      rw [absorbIn_succ n hb]
      exact absorbIn_induction step n (step h hb)

section Fold

variable {body : Slot}

@[simp] theorem size_foldBody : (t.foldBody s body).size = t.size := by simp [foldBody]

@[simp] theorem children_foldBody : (t.foldBody s body).children u = (t.dissolve s body).children u := by
  rw [children, foldBody, node_modify]
  split <;> rfl

@[simp] theorem parent?_foldBody : (t.foldBody s body).parent? u = (t.dissolve s body).parent? u := by
  rw [parent?, foldBody, node_modify]
  split <;> rfl

theorem construct_foldBody : (t.foldBody s body).construct u = t.construct u ∨
    (t.foldBody s body).construct u = (t.construct u).setBraced (t.construct body).braced := by
  rw [Tree.construct, foldBody, node_modify]
  split
  · refine .inr ?_
    change ((t.dissolve s body).construct u).setBraced _ = _
    rw [construct_dissolve]
  · exact .inl construct_dissolve

@[simp] theorem tag_foldBody : (t.foldBody s body).tag u = t.tag u := by
  rw [tag_eq, tag_eq]
  have hc : (t.foldBody s body).construct u = _ ∨ _ := construct_foldBody
  rcases hc with h | h <;> simp [h]

theorem params_foldBody : ((t.foldBody s body).construct u).params = (t.construct u).params := by
  have hc : (t.foldBody s body).construct u = _ ∨ _ := construct_foldBody
  rcases hc with h | h <;> simp [h, Construct.params_setBraced]

theorem Owned.foldBody (h : t.Owned) (hb : t.redundantBody? s = some body) : (t.foldBody s body).Owned := by
  obtain ⟨hm, htag⟩ := mem_children_of_redundantBody? hb
  have hparams : (t.construct body).params = [] := by
    rw [tag_eq] at htag
    cases hc : t.construct body <;> simp_all [Construct.tag, Construct.params]
  refine (h.dissolve hm hparams).congr (by simp) (fun _ => children_foldBody) (fun _ => parent?_foldBody) fun _ hp => ?_
  rwa [construct_dissolve, ← params_foldBody] at hp

end Fold

theorem Owned.absorb (h : t.Owned) (s : Slot) : (t.absorb s).2.Owned :=
  absorbIn_induction (fun ho hb => ho.foldBody hb) t.size h

/-! ## Numbers -/

/-- Nodes have the numbers of their slots, and all but those in `gone` are found by them. -/
structure Indexed (t : Tree) (gone : List Slot) : Prop where
  old : ∀ s ∈ gone, s.index < t.size
  id : ∀ s, s.index < t.size → (t.node s).id = s.index
  find : ∀ s, s.index < t.size → t.find? s.index = if s ∈ gone then none else some s

theorem find?_push (construct : Construct) (span : Span) (n : Nat) :
    (t.push construct span).2.find? n = if n = t.size then some ⟨t.size⟩ else t.find? n := by
  by_cases h : n = t.size
  · simp [find?, push, h]
  · simp [find?, push, h, Ne.symm h]

theorem find?_forget (id n : Nat) : (t.forget id).find? n = if n = id then none else t.find? n := by
  simp only [find?, forget, find?_filter]
  by_cases h : n = id
  · simp [h]
  · rw [if_neg h]
    congr 2
    funext x
    by_cases hx : x.1 = n <;> simp [hx, h]

namespace Indexed

variable {gone : List Slot} {change : Node → Node}

theorem modify (h : t.Indexed gone) (hc : ∀ n, (change n).id = n.id) (s : Slot) : (t.modify s change).Indexed gone where
  old u hu := by simpa using h.old u hu
  id u hu := by
    rw [size_modify] at hu
    rw [node_modify]
    split
    · exact (hc _).trans (h.id u hu)
    · exact h.id u hu
  find u hu := h.find u (by simpa using hu)

theorem setConstruct (h : t.Indexed gone) (s : Slot) (construct : Construct) :
    (t.setConstruct s construct).Indexed gone :=
  modify h (fun _ => by rfl) s

theorem setSpan (h : t.Indexed gone) (s : Slot) (span : Span) : (t.setSpan s span).Indexed gone :=
  modify h (fun _ => by rfl) s

theorem modifyAll (hc : ∀ n, (change n).id = n.id) : ∀ (ss : List Slot) {t : Tree}, t.Indexed gone →
    (ss.foldl (fun t s => t.modify s change) t).Indexed gone
  | [], _, h => h
  | s :: ss, _, h => modifyAll hc ss (h.modify hc s)

theorem attach (h : t.Indexed gone) (p c : Slot) : (t.attach p c).Indexed gone := by
  unfold Tree.attach
  exact modify (modify h (fun _ => by rfl) c) (fun _ => by rfl) p

theorem attachAll (p : Slot) : ∀ (cs : List Slot) {t : Tree}, t.Indexed gone → (t.attachAll p cs).Indexed gone
  | [], _, h => h
  | c :: cs, _, h => attachAll p cs (h.attach p c)

theorem push (h : t.Indexed gone) (construct : Construct) (span : Span) : (t.push construct span).2.Indexed gone where
  old u hu := by
    have := h.old u hu
    rw [size_push]
    omega
  id u hu := by
    rw [size_push] at hu
    rw [node_push]
    split
    case isTrue he => exact he.symm
    case isFalse he => exact h.id u (by omega)
  find u hu := by
    rw [size_push] at hu
    rw [find?_push]
    split
    case isTrue he =>
      rw [if_neg fun hg => by have := h.old u hg; omega, ← he]
    case isFalse he => exact h.find u (by omega)

theorem forget (h : t.Indexed gone) (hs : s.index < t.size) {n : Nat} (hn : n = s.index) :
    (t.forget n).Indexed (gone ++ [s]) where
  old u hu := by
    rcases mem_append.1 hu with hu | hu
    · exact h.old u hu
    · rwa [mem_singleton.1 hu]
  id := h.id
  find u hu := by
    rw [find?_forget, hn, h.find u hu]
    by_cases he : u = s
    · simp [he]
    · rw [if_neg fun hi => he (by cases u; cases s; exact congrArg Slot.mk hi)]
      simp [he]

theorem foldBody (h : t.Indexed gone) {body : Slot} (hb : body.index < t.size) (s : Slot) :
    (t.foldBody s body).Indexed (gone ++ [body]) := by
  refine modify ?_ (fun _ => by rfl) s
  unfold Tree.dissolve
  have hsize : body.index <
      ((t.children body).foldl (fun t c => t.modify c ({ · with parent? := some s })) t).size := by
    rwa [size_foldl_modify]
  refine forget (modify (modify (modifyAll (fun _ => by rfl) _ h) (fun _ => by rfl) s) (fun _ => by rfl) body)
    (by simpa) ?_
  exact id (modify (modifyAll (fun _ => by rfl) _ h) (fun _ => by rfl) s) body (by simpa)

theorem absorbIn : ∀ (n : Nat) {t : Tree} {gone : List Slot}, t.Owned → t.Indexed gone →
    (absorbIn s n t).2.Indexed (gone ++ absorbedIn s n t)
  | 0, _, _, _, h => by simpa [Tree.absorbIn, absorbedIn] using h
  | n + 1, t, gone, ho, h => by
    cases hb : t.redundantBody? s with
    | none => simpa [Tree.absorbIn, absorbedIn, hb] using h
    | some body =>
      have hm := (mem_children_of_redundantBody? hb).1
      rw [absorbIn_succ n hb, absorbedIn, hb]
      simpa using absorbIn n (ho.foldBody hb) (h.foldBody (ho.child hm).1 s)

end Indexed

end Deferral.Tree
