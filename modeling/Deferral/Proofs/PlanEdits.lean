import Deferral.Proofs.Layout
import Deferral.Proofs.PlanWalk

/-!
# The edits of a plan

What a plan changes depends on the scopes that are open and on what is armed, and on nothing else: `Firing.edits` gives
the edits of a forest together with what is armed after it. From it we read which nodes an edit can be about
(`Firing.Sound`) and which values are stored.
-/

namespace Deferral.Firing

open Forest
open List hiding append_assoc append_nil nil_append

variable {t : Tree} {jump : Slot} {f : Forest Entry}

/-! ## Edits as a recursion -/

/-- Sorts of nodes that open a scope. -/
def opens : Construct.Tag → Bool
  | .scope | .function | .loop | .branch | .caseLabel => true
  | _ => false

/-- How a node leaves scopes. -/
def exit? : Construct → Option Exit
  | .returned _ => some .returned
  | .jump .break => some .break
  | .jump .continue => some .continue
  | _ => none

namespace Plan

variable {p : Plan} {s : Slot} {d : Nat}

theorem enter_opens (h : opens (t.tag s) = true) : p.enter t s d = p.open s d := by
  change opens (t.construct s).tag = true at h
  unfold enter
  generalize t.construct s = c at h
  cases c <;> first | rfl | cases h

theorem enter_exit {exit : Exit} (h : exit? (t.construct s) = some exit) : p.enter t s d = p.exitEarly t s exit := by
  unfold enter
  generalize t.construct s = c at h
  cases c with
  | returned => cases h; rfl
  | jump j => cases j <;> cases h <;> rfl
  | _ => cases h

theorem enter_passes (hd : t.tag s ≠ .deferred) (ho : opens (t.tag s) = false) (h : exit? (t.construct s) = none) :
    p.enter t s d = p := by
  change (t.construct s).tag ≠ .deferred at hd
  change opens (t.construct s).tag = false at ho
  unfold enter
  generalize t.construct s = c at hd ho h
  cases c with
  | scope | function | loop | branch | caseLabel => cases ho
  | deferred => exact absurd rfl hd
  | returned => cases h
  | jump j => cases j <;> cases h
  | _ => rfl

/-- What a node changes when the walk comes to it. -/
def jumpEdits (t : Tree) (p : Plan) (s : Slot) : List Edit :=
  match exit? (t.construct s) with
  | some exit => p.exitEdits t s exit
  | none => []

/-- A node that opens no scope only changes the edits, firings and messages. -/
theorem enter_keeps (hd : t.tag s ≠ .deferred) (ho : opens (t.tag s) = false) :
    ∃ fs, p.enter t s d = p.after t (p.jumpEdits t s) fs := by
  cases hx : exit? (t.construct s) with
  | some exit =>
    refine ⟨(p.owed t exit).map fun y => ⟨y.1.slot, y.2, exit⟩, ?_⟩
    rw [enter_exit hx, exitEarly_eq, jumpEdits, hx]
  | none => exact ⟨[], by rw [enter_passes hd ho hx, jumpEdits, hx, after_nil]⟩

theorem closeFrom_one {l : List Placed} (hs : p.scopes = ⟨s, d⟩ :: l) (hl : ∀ x ∈ l.head?, x.depth < d) :
    p.closeFrom t d = { p.exitAtEnd t ⟨s, d⟩ with scopes := l } := by
  have hrest : l.takeWhile (d ≤ ·.depth) = [] ∧ l.dropWhile (d ≤ ·.depth) = l := by
    cases l with
    | nil => exact ⟨rfl, rfl⟩
    | cons x l =>
      have hx : ¬d ≤ x.depth := Nat.not_le.2 (hl x rfl)
      simp [hx]
  rw [closeFrom_eq, hs]
  simp [hrest]

end Plan

/-- What is changed in a forest at a depth, and what is armed after it. -/
def edits (t : Tree) (d : Nat) (scopes armed : List Placed) : Forest Entry → List Edit × List Placed
  | .nil => ([], armed)
  | .node e below rest =>
    if t.tag e.slot = .deferred then
      let after := edits t d scopes (⟨e.slot, d⟩ :: armed) rest
      (.remove e.slot :: after.1, after.2)
    else if opens (t.tag e.slot) then
      let inside := edits t (d + 1) (⟨e.slot, d⟩ :: scopes) armed below
      let after := edits t d scopes (inside.2.filter (·.depth != d + 1)) rest
      (inside.1 ++ Plan.endEdits t { armed := inside.2 } ⟨e.slot, d⟩ ++ after.1, after.2)
    else
      let inside := edits t (d + 1) scopes armed below
      let after := edits t d scopes inside.2 rest
      (Plan.jumpEdits t { scopes, armed } e.slot ++ inside.1 ++ after.1, after.2)

section Recursion

variable {d : Nat} {scopes armed : List Placed} {e : Entry} {b r : Forest Entry}

theorem edits_deferred (h : t.tag e.slot = .deferred) : edits t d scopes armed (.node e b r) =
    (.remove e.slot :: (edits t d scopes (⟨e.slot, d⟩ :: armed) r).1,
      (edits t d scopes (⟨e.slot, d⟩ :: armed) r).2) := by
  rw [edits, if_pos h]

theorem edits_opens (h : opens (t.tag e.slot) = true) : edits t d scopes armed (.node e b r) =
    let inside := edits t (d + 1) (⟨e.slot, d⟩ :: scopes) armed b
    let after := edits t d scopes (inside.2.filter (·.depth != d + 1)) r
    (inside.1 ++ Plan.endEdits t { armed := inside.2 } ⟨e.slot, d⟩ ++ after.1, after.2) := by
  have hd : t.tag e.slot ≠ .deferred := fun hd => by rw [hd] at h; cases h
  rw [edits, if_neg hd, if_pos h]

theorem edits_passes (hd : t.tag e.slot ≠ .deferred) (h : opens (t.tag e.slot) = false) :
    edits t d scopes armed (.node e b r) =
      let inside := edits t (d + 1) scopes armed b
      let after := edits t d scopes inside.2 r
      (Plan.jumpEdits t { scopes, armed } e.slot ++ inside.1 ++ after.1, after.2) := by
  rw [edits, if_neg hd, if_neg (by simp [h])]

theorem fire_eq {p : Plan} (h : p.Above d) : (fire t d f p).scopes = p.scopes ∧
    (fire t d f p).edits.toList = p.edits.toList ++ (edits t d p.scopes p.armed f).1 ∧
      (fire t d f p).armed = (edits t d p.scopes p.armed f).2 := by
  induction f generalizing d p with
  | nil => exact ⟨rfl, (List.append_nil _).symm, rfl⟩
  | node e b r ihb ihr =>
    by_cases hd : t.tag e.slot = .deferred
    · rw [fire, if_pos hd, Plan.enter_deferred hd, edits_deferred hd]
      obtain ⟨hs, he, ha⟩ := ihr (p := p.arm t e.slot d) h
      refine ⟨hs, ?_, ha⟩
      rw [he]
      simp [Plan.arm, Plan.edit]
    · rw [fire, if_neg hd]
      obtain ⟨hs, he, ha⟩ := ihb (Plan.above_enter (t := t) p h e.slot)
      by_cases ho : opens (t.tag e.slot) = true
      · rw [edits_opens ho]
        rw [Plan.enter_opens ho] at hs he ha ⊢
        generalize fire t (d + 1) b (p.open e.slot d) = q at hs he ha
        rw [Plan.closeFrom_one hs h, Plan.exitAtEnd_eq]
        obtain ⟨hs', he', ha'⟩ := ihr (p := { { q with armed := q.armed.filter (·.depth != d + 1) }.after t
          (q.endEdits t ⟨e.slot, d⟩) (q.endFirings t ⟨e.slot, d⟩) with scopes := p.scopes }) h
        simp only [Plan.open] at he ha
        have hend : q.endEdits t ⟨e.slot, d⟩ = Plan.endEdits t { armed := q.armed } ⟨e.slot, d⟩ := rfl
        refine ⟨hs', ?_, ?_⟩
        · rw [he']
          simp only [Plan.edits_after, Plan.armed_after, he, hend, ha, List.append_assoc]
        · rw [ha']
          simp only [Plan.armed_after, ha]
      · have ho : opens (t.tag e.slot) = false := by simpa using ho
        obtain ⟨fs, hfs⟩ := Plan.enter_keeps (p := p) (d := d) hd ho
        rw [edits_passes hd ho]
        rw [hfs] at hs he ha ⊢
        generalize fire t (d + 1) b (p.after t (p.jumpEdits t e.slot) fs) = q at hs he ha
        have habove : q.Above d := by rw [Plan.Above, hs]; exact h
        rw [habove.closeFrom_eq]
        obtain ⟨hs', he', ha'⟩ := ihr habove
        rw [hs, ha] at he' ha'
        refine ⟨hs'.trans hs, ?_, ha'⟩
        rw [he', he]
        simp only [Plan.edits_after, Plan.scopes_after, Plan.armed_after, List.append_assoc]
        rfl

end Recursion

section Whole

variable {e : Entry} {b : Forest Entry} {low : Nat}

theorem plan_fire (h : t.Stands none low (.tree e b)) (he : e.slot = .root) :
    (plan t).edits = (fire t 0 (.tree e b) {}).edits ∧ (plan t).firings = (fire t 0 (.tree e b) {}).firings := by
  have habove : ({} : Plan).Above 0 := nofun
  obtain ⟨hs, -⟩ := fire_eq (t := t) (f := .tree e b) habove
  have hclose : (fire t 0 (.tree e b) {}).closeFrom t 0 = fire t 0 (.tree e b) {} :=
    Plan.Above.closeFrom_eq (by rw [Plan.Above, hs]; exact habove)
  rw [plan_eq h he, Plan.finish, hclose]
  split <;> exact ⟨rfl, rfl⟩

theorem edits_plan (h : t.Stands none low (.tree e b)) (he : e.slot = .root) :
    (plan t).edits.toList = (edits t 0 [] [] (.tree e b)).1 := by
  have habove : ({} : Plan).Above 0 := nofun
  obtain ⟨-, hedits, -⟩ := fire_eq (t := t) (f := .tree e b) habove
  rw [(plan_fire h he).1]
  simpa using hedits

end Whole

/-! ## What edits are about -/

/-- The nodes that are below no deferred statement. -/
def outer (t : Tree) : Forest Entry → List Slot
  | .nil => []
  | .node e below rest => e.slot :: ((if t.tag e.slot = .deferred then [] else outer t below) ++ outer t rest)

theorem outer_deferred {e : Entry} {b r : Forest Entry} (h : t.tag e.slot = .deferred) :
    outer t (.node e b r) = e.slot :: outer t r := by
  rw [outer, if_pos h, List.nil_append]

theorem outer_passes {e : Entry} {b r : Forest Entry} (h : t.tag e.slot ≠ .deferred) :
    outer t (.node e b r) = e.slot :: (outer t b ++ outer t r) := by
  rw [outer, if_neg h]

theorem outer_sublist (f : Forest Entry) : (outer t f).Sublist f.slots := by
  induction f with
  | nil => exact .slnil
  | node e b r ihb ihr =>
    by_cases h : t.tag e.slot = .deferred
    · rw [outer_deferred h, slots_node]
      exact (ihr.trans (sublist_append_right ..)).cons_cons _
    · rw [outer_passes h, slots_node]
      exact (ihb.append ihr).cons_cons _

theorem rootSlots_subset_outer (f : Forest Entry) : f.rootSlots ⊆ outer t f := by
  induction f with
  | nil => exact nil_subset _
  | node e b r _ ihr =>
    rw [outer, rootSlots_node]
    exact cons_subset_cons _ (List.Subset.trans ihr (subset_append_right ..))

/-- A deferred statement among some nodes. -/
structure Deferred (t : Tree) (nodes : List Slot) (s : Slot) : Prop where
  mem : s ∈ nodes
  tag : t.tag s = .deferred

/-- A node that opens a scope, among some nodes. -/
structure Opening (t : Tree) (nodes : List Slot) (s : Slot) : Prop where
  mem : s ∈ nodes
  opens : opens (t.tag s) = true

/-- A node that leaves scopes, among some nodes. -/
structure Leaving (t : Tree) (nodes : List Slot) (s : Slot) : Prop where
  mem : s ∈ nodes
  exits : (exit? (t.construct s)).isSome = true

/-- Edits that a plan can have at some nodes, with operations of deferred statements among others. -/
inductive Sound (t : Tree) (nodes defers : List Slot) : Edit → Prop
  | remove {d : Slot} (hd : Deferred t nodes d) : Sound t nodes defers (.remove d)
  | append {host d : Slot} (hh : Opening t nodes host) (hd : Deferred t defers d) :
    Sound t nodes defers (.append host (operation t d))
  | insertBefore {anchor d : Slot} (ha : Leaving t nodes anchor) (hd : Deferred t defers d) (brace : Bool) :
    Sound t nodes defers (.insertBefore anchor (operation t d) brace)
  | bindValue {ret value : Slot} (hr : Leaving t nodes ret) (hv : t.construct ret = .returned (some value))
    (type : String) : Sound t nodes defers (.bindValue ret value type)
  | closeBrace {anchor : Slot} (ha : Leaving t nodes anchor) : Sound t nodes defers (.closeBrace anchor)

theorem binding?_eq {value : Slot} {target? : Option Slot} {type : String}
    (h : binding? t jump target? = some (value, type)) : t.construct jump = .returned (some value) := by
  unfold binding? at h
  split at h
  next v f hc hf =>
    split at h
    · cases h
    · obtain ⟨type', -, heq⟩ := Option.map_eq_some_iff.1 h
      rw [hc, (Prod.mk.inj heq).1]
  next => cases h

theorem isConstant_of_binding? {value : Slot} {target? : Option Slot} {type : String}
    (h : binding? t jump target? = some (value, type)) : isConstant t value = false := by
  unfold binding? at h
  split at h
  next v f hc hf =>
    split at h
    next => cases h
    next hn =>
      obtain ⟨type', -, heq⟩ := Option.map_eq_some_iff.1 h
      exact (Prod.mk.inj heq).1 ▸ Bool.not_eq_true _ ▸ hn
  next => cases h

section Sound

variable {nodes defers : List Slot} {p : Plan} {d : Nat} {scopes armed : List Placed}

theorem mem_insertions {brace : Bool} {owed : List (Placed × Slot)} {e : Edit}
    (h : e ∈ insertions t jump brace owed) : ∃ y ∈ owed, ∃ b, e = .insertBefore jump (operation t y.1.slot) b := by
  induction owed generalizing brace with
  | nil => cases h
  | cons y owed ih =>
    rw [insertions, mem_cons] at h
    rcases h with rfl | h
    · exact ⟨y, mem_cons_self, brace, rfl⟩
    · obtain ⟨y, hy, hb⟩ := ih h
      exact ⟨y, mem_cons_of_mem _ hy, hb⟩

section

variable (ha : ∀ a ∈ p.armed, Deferred t defers a.slot)
include ha

theorem sound_endEdits {x : Placed} (hx : Opening t nodes x.slot) :
    ∀ e ∈ p.endEdits t x, Sound t nodes defers e := by
  intro e he
  unfold Plan.endEdits at he
  split at he
  · obtain ⟨a, hmem, rfl⟩ := mem_map.1 he
    exact .append hx (ha a (mem_filter.1 hmem).1)
  · cases he

theorem sound_exitEdits (hj : Leaving t nodes jump)
    (exit : Exit) : ∀ e ∈ p.exitEdits t jump exit, Sound t nodes defers e := by
  have howed : ∀ y ∈ p.owed t exit, Deferred t defers y.1.slot := by
    intro y hy
    obtain ⟨x, -, hy⟩ := mem_flatMap.1 hy
    obtain ⟨a, hmem, rfl⟩ := mem_map.1 hy
    exact ha a (mem_filter.1 hmem).1
  intro e he
  unfold Plan.exitEdits at he
  split at he
  · cases he
  · rcases mem_append.1 he with he | he
    · rcases mem_append.1 he with he | he
      · split at he
        next value type hb =>
          obtain rfl := mem_singleton.1 he
          exact .bindValue hj (binding?_eq hb) type
        next => cases he
      · obtain ⟨y, hy, b, rfl⟩ := mem_insertions he
        exact .insertBefore hj (howed y hy) b
    · split at he
      · obtain rfl := mem_singleton.1 he
        exact .closeBrace hj
      · cases he

theorem sound_jumpEdits {s : Slot} (hs : s ∈ nodes) :
    ∀ e ∈ p.jumpEdits t s, Sound t nodes defers e := by
  unfold Plan.jumpEdits
  cases hx : exit? (t.construct s) with
  | some exit => exact sound_exitEdits ha ⟨hs, by simp [hx]⟩ exit
  | none => nofun

end

/-- The edits of a forest are at its nodes. What fires was armed before it or is in it. -/
theorem sound_edits (hf : ∀ s ∈ outer t f, s ∈ nodes) (hds : ∀ s ∈ outer t f, s ∈ defers)
    (ha : ∀ a ∈ armed, Deferred t defers a.slot) :
    (∀ e ∈ (edits t d scopes armed f).1, Sound t nodes defers e) ∧
      ∀ a ∈ (edits t d scopes armed f).2, Deferred t defers a.slot := by
  induction f generalizing d scopes armed with
  | nil => exact ⟨nofun, ha⟩
  | node e b r ihb ihr =>
    have hmem : e.slot ∈ nodes := hf _ (by simp [outer])
    have hr : ∀ s ∈ outer t r, s ∈ outer t (.node e b r) := fun s hs => by simp [outer, hs]
    have ihr := fun d scopes armed => @ihr d scopes armed (fun s hs => hf s (hr s hs)) fun s hs => hds s (hr s hs)
    by_cases hd : t.tag e.slot = .deferred
    · rw [edits_deferred hd]
      obtain ⟨hes, hafter⟩ := ihr d scopes (⟨e.slot, d⟩ :: armed)
        (forall_mem_cons.2 ⟨⟨hds _ (by simp [outer]), hd⟩, ha⟩)
      exact ⟨forall_mem_cons.2 ⟨.remove ⟨hmem, hd⟩, hes⟩, hafter⟩
    · have hb : ∀ s ∈ outer t b, s ∈ outer t (.node e b r) := fun s hs => by simp [outer, hd, hs]
      have ihb := fun d scopes armed => @ihb d scopes armed (fun s hs => hf s (hb s hs)) fun s hs => hds s (hb s hs)
      by_cases ho : opens (t.tag e.slot) = true
      · rw [edits_opens ho]
        obtain ⟨hes, hinside⟩ := ihb (d + 1) (⟨e.slot, d⟩ :: scopes) armed ha
        obtain ⟨hes', hafter⟩ := ihr d scopes _
          fun a hm => hinside a (mem_filter.1 hm).1
        have hend := sound_endEdits (p := { armed := _ }) hinside (x := ⟨e.slot, d⟩) ⟨hmem, ho⟩
        refine ⟨fun x hx => ?_, hafter⟩
        simp only [mem_append] at hx
        rcases hx with (hx | hx) | hx
        · exact hes x hx
        · exact hend x hx
        · exact hes' x hx
      · rw [edits_passes hd (by simpa using ho)]
        obtain ⟨hes, hinside⟩ := ihb (d + 1) scopes armed ha
        obtain ⟨hes', hafter⟩ := ihr d scopes _ hinside
        have hjump := sound_jumpEdits (p := { scopes, armed }) ha hmem
        refine ⟨fun x hx => ?_, hafter⟩
        simp only [mem_append] at hx
        rcases hx with (hx | hx) | hx
        · exact hjump x hx
        · exact hes x hx
        · exact hes' x hx

end Sound

/-! ## What is stored -/

/-- The value that an edit stores, with its type. -/
def Edit.bound? : Edit → Option (Slot × String)
  | .bindValue _ value type => some (value, type)
  | _ => none

section Extracts

variable {p : Plan} {s : Slot} {d : Nat} {scopes armed : List Placed}

theorem filterMap_insertions {β : Type} {g : Edit → Option β}
    (hg : ∀ a op b, g (.insertBefore a op b) = none) (jump : Slot)
    (brace : Bool) (owed : List (Placed × Slot)) : (insertions t jump brace owed).filterMap g = [] := by
  refine filterMap_eq_nil_iff.2 fun e he => ?_
  obtain ⟨y, -, b, rfl⟩ := mem_insertions he
  exact hg ..

theorem filterMap_endEdits {β : Type} {g : Edit → Option β} (hg : ∀ a op, g (.append a op) = none) (x : Placed) :
    (p.endEdits t x).filterMap g = [] := by
  refine filterMap_eq_nil_iff.2 fun e he => ?_
  unfold Plan.endEdits at he
  split at he
  · obtain ⟨a, -, rfl⟩ := mem_map.1 he
    exact hg ..
  · cases he

section Values

variable {e : Entry} {b r : Forest Entry}

theorem bound_deferred (h : t.tag e.slot = .deferred) :
    (edits t d scopes armed (.node e b r)).1.filterMap Edit.bound? =
      (edits t d scopes (⟨e.slot, d⟩ :: armed) r).1.filterMap Edit.bound? := by
  rw [edits_deferred h, filterMap_cons]
  rfl

theorem bound_opens (h : opens (t.tag e.slot) = true) :
    (edits t d scopes armed (.node e b r)).1.filterMap Edit.bound? =
      let inside := edits t (d + 1) (⟨e.slot, d⟩ :: scopes) armed b
      inside.1.filterMap Edit.bound? ++
        (edits t d scopes (inside.2.filter (·.depth != d + 1)) r).1.filterMap Edit.bound? := by
  rw [edits_opens h, filterMap_append, filterMap_append, filterMap_endEdits (fun _ _ => rfl), List.append_nil]

theorem bound_passes (hd : t.tag e.slot ≠ .deferred) (h : opens (t.tag e.slot) = false) :
    (edits t d scopes armed (.node e b r)).1.filterMap Edit.bound? =
      let inside := edits t (d + 1) scopes armed b
      (Plan.jumpEdits t { scopes, armed } e.slot).filterMap Edit.bound? ++
        (inside.1.filterMap Edit.bound? ++ (edits t d scopes inside.2 r).1.filterMap Edit.bound?) := by
  rw [edits_passes hd h, filterMap_append, filterMap_append, List.append_assoc]

end Values

theorem isOperand_passes (h : (t.tag s).isOperand = true) :
    t.tag s ≠ .deferred ∧ opens (t.tag s) = false ∧ exit? (t.construct s) = none := by
  change (t.construct s).tag.isOperand = true at h
  change (t.construct s).tag ≠ .deferred ∧ opens (t.construct s).tag = false ∧ _
  generalize t.construct s = c at h ⊢
  cases c <;> first | cases h; done | exact ⟨by simp [Construct.tag], rfl, rfl⟩

theorem exit?_passes (h : (exit? (t.construct s)).isSome = true) : t.tag s ≠ .deferred ∧ opens (t.tag s) = false := by
  change (t.construct s).tag ≠ .deferred ∧ opens (t.construct s).tag = false
  generalize t.construct s = c at h ⊢
  cases c <;> first | cases h; done | exact ⟨by simp [Construct.tag], rfl⟩

theorem edits_operands (h : ∀ s ∈ f.slots, (t.tag s).isOperand = true) :
    edits t d scopes armed f = ([], armed) := by
  induction f generalizing d with
  | nil => rfl
  | node e b r ihb ihr =>
    obtain ⟨hd, ho, hx⟩ := isOperand_passes (h e.slot (by simp))
    have hb := ihb (d := d + 1) fun s hs => h s (by simp [hs])
    have hr := ihr (d := d) fun s hs => h s (by simp [hs])
    simp [edits_passes hd ho, hb, hr, Plan.jumpEdits, hx]

/-- Jumps have nothing but operands below them, and a value that is returned is all there is. -/
def PlainExits (t : Tree) : Forest Entry → Prop :=
  Every fun e below => (exit? (t.construct e.slot)).isSome = true → (∀ s ∈ below.slots, (t.tag s).isOperand = true) ∧
    ∀ value, t.construct e.slot = .returned (some value) → below.rootSlots = [value]

end Extracts

end Deferral.Firing
