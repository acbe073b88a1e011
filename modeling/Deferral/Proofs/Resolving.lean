import Deferral.Proofs.Applying
import Deferral.Proofs.Building
import Deferral.Proofs.PlanEdits

/-!
# Resolved forests

What resolving does to a tree, said of its forest alone. `Firing.Resolves` follows the plan through the forest: deferred
statements are marked as removed, copies of their operations stand at the end of scopes and before jumps
(`Firing.Copies`), and a value that has to be computed is stored before them. Resolving the tree of a source gives a
tree that holds such a forest (`Firing.exists_resolves`).
-/

namespace Deferral

open List hiding append_assoc append_nil map_nil nil_append

variable {dss : List (List Change)}

/-- An entry with one more mark. -/
def Entry.mark (m : Mark) (e : Entry) : Entry := ⟨e.slot, m.apply e.node⟩

namespace Firing

open Forest Change

variable {t : Tree} {whole f : Forest Entry} {d : Nat} {scopes armed : List Placed}

/-! ## The relation -/

/-- Copies of the operations of deferred statements, one after the other, the first perhaps after a brace. -/
inductive Copies (t : Tree) (whole : Forest Entry) : (brace : Bool) → (deferred : List Slot) → Forest Entry → Prop
  | nil (brace : Bool) : Copies t whole brace [] .nil
  | cons {brace : Bool} {s : Slot} {ss : List Slot} {op : Entry} {b g gs : Forest Entry} (h : (op, b) ∈ whole.subtrees)
    (hop : op.slot = operation t s) (hg : Splice op b { braceBefore := brace } none g)
    (hgs : Copies t whole false ss gs) : Copies t whole brace (s :: ss) (g ++ gs)

/-- What fires at the end of a scope, the latest first. -/
def ended (t : Tree) (armed : List Placed) (scope : Placed) : List Slot :=
  if fallsOffEnd t scope.slot then (Plan.owned { armed } scope).map (·.slot) else []

/-- What fires before a jump, the latest first. -/
def left (t : Tree) (scopes armed : List Placed) (exit : Exit) : List Slot :=
  (Plan.owed t { scopes, armed } exit).map (·.1.slot)

/-- `Resolves t whole d scopes armed f armed' f'`: at depth `d` of the `whole`, where `scopes` are open and `armed` is
armed, resolving makes `f'` of `f`, and then `armed'` is armed. -/
inductive Resolves (t : Tree) (whole : Forest Entry) :
    Nat → List Placed → List Placed → Forest Entry → List Placed → Forest Entry → Prop
  | nil {d : Nat} {scopes armed : List Placed} : Resolves t whole d scopes armed .nil armed .nil
  | deferred {d : Nat} {scopes armed armed' : List Placed} {e : Entry} {b r r' : Forest Entry}
    (hd : t.tag e.slot = .deferred) (hr : Resolves t whole d scopes (⟨e.slot, d⟩ :: armed) r armed' r') :
    Resolves t whole d scopes armed (.node e b r) armed' (.node (e.mark .removed) (b.map (.mark .removed)) r')
  | opens {d : Nat} {scopes armed inner armed' : List Placed} {e : Entry} {b b' c r r' : Forest Entry}
    (ho : opens (t.tag e.slot) = true) (hb : Resolves t whole (d + 1) (⟨e.slot, d⟩ :: scopes) armed b inner b')
    (hc : Copies t whole false (ended t inner ⟨e.slot, d⟩) c)
    (hr : Resolves t whole d scopes (inner.filter (·.depth != d + 1)) r armed' r') :
    Resolves t whole d scopes armed (.node e b r) armed' (.node e (b' ++ c) r')
  /-- Nothing is done at other nodes, nor at jumps at which nothing fires. -/
  | passes {d : Nat} {scopes armed inner armed' : List Placed} {e : Entry} {b b' r r' : Forest Entry}
    (hd : t.tag e.slot ≠ .deferred) (ho : Firing.opens (t.tag e.slot) = false)
    (hx : ∀ exit, exit? (t.construct e.slot) = some exit → left t scopes armed exit = [])
    (hb : Resolves t whole (d + 1) scopes armed b inner b') (hr : Resolves t whole d scopes inner r armed' r') :
    Resolves t whole d scopes armed (.node e b r) armed' (.node e b' r')
  | leaves {d : Nat} {scopes armed armed' : List Placed} {exit : Exit} {e : Entry} {b c r r' : Forest Entry}
    (hx : exit? (t.construct e.slot) = some exit) (hne : left t scopes armed exit ≠ [])
    (hv : Plan.boundBy? t { scopes, armed } e.slot exit = none)
    (hc : Copies t whole (Plan.bracesAt t { scopes, armed } e.slot exit) (left t scopes armed exit) c)
    (hr : Resolves t whole d scopes armed r armed' r') :
    Resolves t whole d scopes armed (.node e b r) armed'
      (c ++ .node (if Plan.bracesAt t { scopes, armed } e.slot exit then e.mark .closed else e) b r')
  /-- The value is stored before what fires. -/
  | stores {d : Nat} {scopes armed armed' : List Placed} {type : String} {e v : Entry} {k g c r r' : Forest Entry}
    (hx : t.construct e.slot = .returned (some v.slot)) (hne : left t scopes armed .returned ≠ [])
    (hv : Plan.boundBy? t { scopes, armed } e.slot .returned = some (v.slot, type))
    (hg : Splice v k { braceBefore := true } (some (declares type)) g)
    (hc : Copies t whole false (left t scopes armed .returned) c)
    (hr : Resolves t whole d scopes armed r armed' r') :
    Resolves t whole d scopes armed (.node e (tree v k) r) armed'
      (g ++ (c ++ .node (e.mark .closed) (tree (v.mark (.replaced storedValue)) k) r'))

/-! ## What edits make -/

section Makes

variable {ds : List Change} {s : Slot}

theorem Makes.of_remove (h : Makes f (.remove s) ds) :
    ∃ e b, (e, b) ∈ f.subtrees ∧ e.slot = s ∧ ds = [.mark (tree e b).slots .removed] := by
  cases h with
  | remove h => exact ⟨_, _, h, rfl, rfl⟩

theorem Makes.of_append {host : Slot} (h : Makes f (.append host s) ds) :
    ∃ op b g, (op, b) ∈ f.subtrees ∧ op.slot = s ∧ Splice op b {} none g ∧ ds = [.put (.last host) g] := by
  cases h with
  | append _ h hg => exact ⟨_, _, _, h, rfl, hg, rfl⟩

theorem Makes.of_insertBefore {anchor : Slot} {brace : Bool} (h : Makes f (.insertBefore anchor s brace) ds) :
    ∃ op b g, (op, b) ∈ f.subtrees ∧ op.slot = s ∧ Splice op b { braceBefore := brace } none g ∧
      ds = [.put (.before anchor) g] := by
  cases h with
  | insertBefore _ h hg => exact ⟨_, _, _, h, rfl, hg, rfl⟩

theorem Makes.of_bindValue {ret : Slot} {type : String} (h : Makes f (.bindValue ret s type) ds) :
    ∃ v b g, (v, b) ∈ f.subtrees ∧ v.slot = s ∧ Splice v b { braceBefore := true } (some (declares type)) g ∧
      ds = [.put (.before ret) g, .mark [s] (.replaced storedValue)] := by
  cases h with
  | bindValue _ h hg => exact ⟨_, _, _, h, rfl, hg, rfl⟩

theorem Makes.of_closeBrace (h : Makes f (.closeBrace s) ds) : ds = [.mark [s] .closed] := by
  cases h with
  | closeBrace => rfl

end Makes

theorem exists_append_of_forall₂ {α β : Type} {R : α → β → Prop} {l₁ l₂ : List α} {k : List β}
    (h : List.Forall₂ R (l₁ ++ l₂) k) : ∃ k₁ k₂, k = k₁ ++ k₂ ∧ List.Forall₂ R l₁ k₁ ∧ List.Forall₂ R l₂ k₂ := by
  induction l₁ generalizing k with
  | nil => exact ⟨[], k, rfl, .nil, h⟩
  | cons a l ih =>
    cases h with
    | cons ha h =>
      obtain ⟨k₁, k₂, rfl, h₁, h₂⟩ := ih h
      exact ⟨_ :: k₁, k₂, rfl, .cons ha h₁, h₂⟩

theorem exists_copies_append {host : Slot} {ss : List Slot}
    (h : List.Forall₂ (Makes whole) (ss.map fun s => .append host (operation t s)) dss) :
    ∃ gs, dss.flatten = gs.map (.put (.last host)) ∧ Copies t whole false ss (join gs) := by
  induction ss generalizing dss with
  | nil =>
    cases h
    exact ⟨[], rfl, .nil _⟩
  | cons s ss ih =>
    cases h with
    | cons hm h =>
      obtain ⟨op, b, g, hop, hslot, hg, rfl⟩ := hm.of_append
      obtain ⟨gs, hgs, hc⟩ := ih h
      exact ⟨g :: gs, by simp [hgs], .cons hop hslot hg hc⟩

theorem exists_copies_insertions {jump : Slot} {brace : Bool} {owed : List (Placed × Slot)}
    (h : List.Forall₂ (Makes whole) (insertions t jump brace owed) dss) :
    ∃ gs, dss.flatten = gs.map (.put (.before jump)) ∧ Copies t whole brace (owed.map (·.1.slot)) (join gs) := by
  induction owed generalizing brace dss with
  | nil =>
    cases h
    exact ⟨[], rfl, .nil _⟩
  | cons y owed ih =>
    rw [insertions] at h
    cases h with
    | cons hm h =>
      obtain ⟨op, b, g, hop, hslot, hg, rfl⟩ := hm.of_insertBefore
      obtain ⟨gs, hgs, hc⟩ := ih h
      exact ⟨g :: gs, by simp [hgs], .cons hop hslot hg hc⟩

/-! ## Parts of a forest -/

/-- What is armed is deferred, and what fires was armed before the forest or is in it. -/
theorem sound_of_armed (ha : ∀ a ∈ armed, t.tag a.slot = .deferred) :
    (∀ e ∈ (edits t d scopes armed f).1, Sound t (outer t f) (outer t f ++ armed.map (·.slot)) e) ∧
      ∀ a ∈ (edits t d scopes armed f).2, t.tag a.slot = .deferred := by
  have harmed : ∀ a ∈ armed, Deferred t (outer t f ++ armed.map (·.slot)) a.slot := fun a hm =>
    ⟨mem_append_right _ (mem_map_of_mem hm), ha a hm⟩
  obtain ⟨hes, hafter⟩ := sound_edits (fun _ hs => hs) (fun s hs => mem_append_left _ hs) harmed
  exact ⟨hes, fun a hm => (hafter a hm).tag⟩

/-- A part of the whole forest. -/
structure Part (t : Tree) (whole f : Forest Entry) : Prop where
  nodup : whole.slots.Nodup
  slots : f.slots.Sublist whole.slots
  subtrees : f.subtrees ⊆ whole.subtrees
  exits : PlainExits t f

namespace Part

variable {e : Entry} {b r : Forest Entry}

theorem below (h : Part t whole (.node e b r)) : Part t whole b where
  nodup := h.nodup
  slots := .trans (.trans (sublist_append_left ..) (slots_node e b r ▸ sublist_cons_self ..)) h.slots
  subtrees x hx := h.subtrees (by simp [Forest.subtrees, hx])
  exits := h.exits.2.1

theorem rest (h : Part t whole (.node e b r)) : Part t whole r where
  nodup := h.nodup
  slots := .trans (.trans (sublist_append_right ..) (slots_node e b r ▸ sublist_cons_self ..)) h.slots
  subtrees x hx := h.subtrees (by simp [Forest.subtrees, hx])
  exits := h.exits.2.2

/-- A tree and what comes after it are apart, and so are its root and what is below. -/
theorem apart (h : Part t whole (.node e b r)) :
    (∀ s ∈ (tree e b).slots, s ∉ r.slots) ∧ (∀ s ∈ r.slots, s ∉ (tree e b).slots) ∧ ∀ s ∈ b.slots, s ∉ [e.slot] := by
  have hn := h.slots.nodup h.nodup
  rw [← tree_append, slots_append, nodup_append, slots_tree, nodup_cons] at hn
  obtain ⟨⟨hb, -⟩, -, hr⟩ := hn
  refine ⟨fun s hs hm => hr s (by simpa using hs) s hm rfl, fun s hs hm => hr s (by simpa using hm) s hs rfl, ?_⟩
  rintro s hs hm
  exact hb (mem_singleton.1 hm ▸ hs)

theorem about (h : Part t whole f) {defers : List Slot} {edit : Edit} {ds : List Change}
    (hs : Sound t (outer t f) defers edit) (hm : Makes whole edit ds) : About f.slots ds := by
  have houter := (outer_sublist (t := t) f).subset
  cases hs with
  | remove hd =>
    obtain ⟨e, b, hmem, rfl, rfl⟩ := hm.of_remove
    obtain ⟨e', b', hmem', hslot⟩ := exists_subtree_slot (houter hd.mem)
    obtain ⟨rfl, rfl⟩ := subtree_unique h.nodup hmem (h.subtrees hmem') hslot.symm
    exact about_mark.2 (slots_subset hmem')
  | append hh =>
    obtain ⟨_, _, _, -, -, -, rfl⟩ := hm.of_append
    exact about_put.2 (houter hh.mem)
  | insertBefore ha =>
    obtain ⟨_, _, _, -, -, -, rfl⟩ := hm.of_insertBefore
    exact about_put.2 (houter ha.mem)
  | @bindValue ret value hr hv =>
    obtain ⟨_, _, _, -, -, -, rfl⟩ := hm.of_bindValue
    obtain ⟨e, b, hmem, rfl⟩ := exists_subtree_slot (houter hr.mem)
    have hvalue := (h.exits.of_mem hmem hr.exits).2 value hv
    have hmem' : value ∈ b.slots := rootSlots_subset (hvalue ▸ mem_singleton_self value)
    refine about_cons.2 ⟨about_put.2 (houter hr.mem), about_mark.2 ?_⟩
    simpa using slots_subset hmem (by simp [hmem'])
  | closeBrace ha =>
    obtain rfl := hm.of_closeBrace
    exact about_mark.2 (by simpa using houter ha.mem)

theorem about_edits (h : Part t whole f) (ha : ∀ a ∈ armed, t.tag a.slot = .deferred)
    (hm : List.Forall₂ (Makes whole) (edits t d scopes armed f).1 dss) : About f.slots dss.flatten := by
  obtain ⟨hs, -⟩ := @sound_of_armed t f d scopes armed ha
  clear ha
  generalize (edits t d scopes armed f).1 = es at hs hm
  induction hm with
  | nil => exact nofun
  | cons hm _ ih =>
    obtain ⟨he, hs⟩ := forall_mem_cons.1 hs
    exact about_append.2 ⟨h.about he hm, ih hs⟩

end Part

/-! ## The edited forest -/

section Edited

variable {e : Entry} {b r : Forest Entry} {cs ds : List Change}

namespace Part

section

variable (h : Part t whole (.node e b r))
include h

theorem edited_node (hcs : About (tree e b).slots cs) (hds : About r.slots ds) :
    (Forest.node e b r).edited (cs ++ ds) =
      trees (.before e.slot) cs ++ .node (e.marked cs) (b.edited cs ++ trees (.last e.slot) cs) (r.edited ds) := by
  obtain ⟨htree, hrest, -⟩ := h.apart
  have he := htree e.slot (by simp)
  have hentry : e.marked (cs ++ ds) = e.marked cs := by rw [Entry.marked, marked_append, hds.marked_eq he]; rfl
  rw [edited, trees_append, trees_append, hds.trees_eq (.before e.slot) he,
    hds.trees_eq (.last e.slot) he, hentry, edited_append_right hds (fun s hs => htree s (by simp [hs])) cs,
    edited_append_left hcs hrest ds, append_nil, append_nil]

theorem edited_removed (hds : About r.slots ds) :
    (Forest.node e b r).edited ([.mark (tree e b).slots .removed] ++ ds) =
      .node (e.mark .removed) (b.map (.mark .removed)) (r.edited ds) := by
  have hbelow : b.edited [.mark (tree e b).slots .removed] = b.map (.mark .removed) := by
    rw [edited_of_quiet fun _ _ => ⟨rfl, rfl⟩]
    refine map_congr fun x hx => ?_
    simp [Entry.marked, marked_mark, mem_slots hx, Entry.mark]
  have hentry : e.marked [.mark (tree e b).slots .removed] = e.mark .removed := by
    simp [Entry.marked, marked_mark, Entry.mark]
  rw [h.edited_node (about_mark.2 (List.Subset.refl _)) hds, hbelow, hentry, trees_mark, trees_mark, nil_append,
    append_nil]

theorem edited_opens (hcs : About b.slots cs) (hds : About r.slots ds)
    (gs : List (Forest Entry)) : (Forest.node e b r).edited (cs ++ gs.map (.put (.last e.slot)) ++ ds) =
      .node e (b.edited cs ++ join gs) (r.edited ds) := by
  have he : e.slot ∉ b.slots := fun hm => h.apart.2.2 _ hm (mem_singleton_self _)
  have hputs := about_puts (.last e.slot) gs
  have hall : About (tree e b).slots (cs ++ gs.map (.put (.last e.slot))) :=
    about_append.2 ⟨hcs.mono (by simp), hputs.mono (by simp)⟩
  have hentry : e.marked (cs ++ gs.map (.put (.last e.slot))) = e := by
    rw [Entry.marked, marked_append, hcs.marked_eq he, marked_puts]
  rw [h.edited_node hall hds, hentry, edited_append_right hputs h.apart.2.2 cs, trees_append, trees_append, trees_puts,
    trees_puts_ne _ gs (.before e.slot) (by simp), hcs.trees_eq (.before e.slot) he,
    hcs.trees_eq (.last e.slot) he]
  rfl

/-- Trees are put before a jump, and perhaps a brace is closed after it. -/
theorem edited_leaves (hds : About r.slots ds) (gs : List (Forest Entry))
    (braces : Bool) : (Forest.node e b r).edited
      (gs.map (.put (.before e.slot)) ++ (if braces then [.mark [e.slot] .closed] else []) ++ ds) =
        join gs ++ .node (if braces then e.mark .closed else e) b (r.edited ds) := by
  have hall : About [e.slot] (gs.map (.put (.before e.slot)) ++ if braces then [.mark [e.slot] .closed] else []) := by
    refine about_append.2 ⟨about_puts _ gs, ?_⟩
    cases braces
    · exact nofun
    · exact about_mark.2 (List.Subset.refl _)
  have htrees : ∀ site, trees site (if braces then [Change.mark [e.slot] .closed] else []) = .nil := by
    intro site
    cases braces <;> rfl
  have hentry : e.marked (gs.map (.put (.before e.slot)) ++ if braces then [.mark [e.slot] .closed] else []) =
      if braces then e.mark .closed else e := by
    rw [Entry.marked, marked_append, marked_puts]
    cases braces
    · rfl
    · simp [marked_mark, Entry.mark]
  rw [h.edited_node (hall.mono (by simp)) hds, hentry, edited_elsewhere hall h.apart.2.2, trees_append, trees_append,
    trees_puts, trees_puts_ne _ gs (.last e.slot) (by simp), htrees, htrees, append_nil, append_nil, append_nil]

end

theorem edited_stores {v : Entry} {k : Forest Entry} (h : Part t whole (.node e (tree v k) r)) (hds : About r.slots ds)
    (text : String) (g : Forest Entry) (gs : List (Forest Entry)) : (Forest.node e (tree v k) r).edited
      ([.put (.before e.slot) g, .mark [v.slot] (.replaced text)] ++ (gs.map (.put (.before e.slot)) ++
        [.mark [e.slot] .closed]) ++ ds) =
        g ++ (join gs ++ .node (e.mark .closed) (tree (v.mark (.replaced text)) k) (r.edited ds)) := by
  have hve : v.slot ≠ e.slot := fun heq => h.apart.2.2 v.slot (by simp) (by simp [heq])
  have hke : ∀ s ∈ k.slots, s ∉ [v.slot] ∧ s ∉ [e.slot] := fun s hs => by
    have hn := h.below.slots.nodup h.nodup
    refine ⟨fun hm => ?_, h.apart.2.2 s (by simp [hs])⟩
    exact (nodup_cons.1 (slots_tree v k ▸ hn)).1 (mem_singleton.1 hm ▸ hs)
  have hfirst : About [v.slot, e.slot] [.put (.before e.slot) g, .mark [v.slot] (.replaced text)] := by
    simp [About, touched]
  have hsecond : About [e.slot] (gs.map (.put (.before e.slot)) ++ [.mark [e.slot] .closed]) :=
    about_append.2 ⟨about_puts _ gs, about_mark.2 (List.Subset.refl _)⟩
  have hall : About (tree e (tree v k)).slots ([.put (.before e.slot) g, .mark [v.slot] (.replaced text)] ++
      (gs.map (.put (.before e.slot)) ++ [.mark [e.slot] .closed])) :=
    about_append.2 ⟨hfirst.mono (by simp), hsecond.mono (by simp)⟩
  have hvalue : (tree v k).edited [.put (.before e.slot) g, .mark [v.slot] (.replaced text)] =
      tree (v.mark (.replaced text)) k := by
    have hk : k.edited [.put (.before e.slot) g, .mark [v.slot] (.replaced text)] = k :=
      edited_elsewhere hfirst fun s hs hm => by
        have := hke s hs
        simp_all
    simp [tree, edited, trees, hve.symm, hk, Entry.marked, marked, Entry.mark]
  rw [h.edited_node hall hds, edited_append_right hsecond h.apart.2.2, hvalue]
  have hlast := trees_puts_ne (.before e.slot) gs (.last e.slot) (by simp)
  simp [trees_append, trees, trees_puts, hlast, Entry.marked, marked_append, marked, marked_puts, hve.symm, Entry.mark,
    append_assoc, tree]

end Part

end Edited

/-! ## Plans resolve forests -/

theorem endEdits_eq (scope : Placed) : Plan.endEdits t { armed } scope =
    (ended t armed scope).map fun s => .append scope.slot (operation t s) := by
  unfold Plan.endEdits ended
  split <;> simp

section Exits

variable {exit : Exit} {jump : Slot}

theorem exitEdits_of_left (h : left t scopes armed exit ≠ []) : Plan.exitEdits t { scopes, armed } jump exit =
    (match Plan.boundBy? t { scopes, armed } jump exit with
      | some (value, type) => [.bindValue jump value type]
      | none => []) ++
      (insertions t jump (Plan.bracesAt t { scopes, armed } jump exit &&
        (Plan.boundBy? t { scopes, armed } jump exit).isNone) (Plan.owed t { scopes, armed } exit) ++
      if Plan.bracesAt t { scopes, armed } jump exit then [.closeBrace jump] else []) := by
  have hne : (Plan.owed t { scopes, armed } exit).isEmpty = false := by
    simpa [left] using h
  rw [Plan.exitEdits, hne, List.append_assoc]
  rfl

theorem jumpEdits_of_left (h : ∀ exit, exit? (t.construct jump) = some exit → left t scopes armed exit = []) :
    Plan.jumpEdits t { scopes, armed } jump = [] := by
  unfold Plan.jumpEdits
  split
  next exit hx =>
    have hnil : Plan.owed t { scopes, armed } exit = [] := by simpa [left] using h exit hx
    simp [Plan.exitEdits, hnil]
  next => rfl

theorem bound_of_left {e : Entry} {b r : Forest Entry} (hx : exit? (t.construct e.slot) = some exit)
    (hne : left t scopes armed exit ≠ []) (hb : ∀ s ∈ b.slots, (t.tag s).isOperand = true) :
    (edits t d scopes armed (.node e b r)).1.filterMap Edit.bound? =
      (Plan.boundBy? t { scopes, armed } e.slot exit).toList ++
        (edits t d scopes armed r).1.filterMap Edit.bound? := by
  obtain ⟨hd, ho⟩ := exit?_passes (by rw [hx]; rfl)
  rw [bound_passes hd ho, edits_operands hb, Plan.jumpEdits, hx]
  simp only [exitEdits_of_left hne, filterMap_append, filterMap_insertions (g := Edit.bound?) fun _ _ _ => rfl]
  congr 1
  cases Plan.boundBy? t { scopes, armed } e.slot exit <;>
    cases Plan.bracesAt t { scopes, armed } e.slot exit <;> rfl

theorem boundBy?_eq_some {value : Slot} {type : String} (hx : exit? (t.construct jump) = some exit)
    (h : Plan.boundBy? t { scopes, armed } jump exit = some (value, type)) :
    t.construct jump = .returned (some value) ∧ exit = .returned ∧
    Plan.bracesAt t { scopes, armed } jump exit = true := by
  have hc := binding?_eq h
  rw [hc] at hx
  exact ⟨hc, (Option.some.inj hx).symm, by simp [Plan.bracesAt, h]⟩

theorem flatten_close {braces : Bool}
    (h : List.Forall₂ (Makes whole) (if braces then [.closeBrace jump] else []) dss) :
    dss.flatten = if braces then [.mark [jump] .closed] else [] := by
  cases braces with
  | false =>
    cases h
    rfl
  | true =>
    cases h with
    | cons hm h =>
      cases h
      simp [hm.of_closeBrace]

end Exits

theorem Part.resolves_exit {e : Entry} {b r : Forest Entry} {armed' : List Placed} {exit : Exit} {ds : List Change}
    {djs : List (List Change)} (h : Part t whole (.node e b r)) (hx : exit? (t.construct e.slot) = some exit)
    (hne : left t scopes armed exit ≠ [])
    (hm : List.Forall₂ (Makes whole) (Plan.exitEdits t { scopes, armed } e.slot exit) djs) (hds : About r.slots ds)
    (hr : Resolves t whole d scopes armed r armed' (r.edited ds)) :
    Resolves t whole d scopes armed (.node e b r) armed' ((Forest.node e b r).edited (djs.flatten ++ ds)) := by
  rw [exitEdits_of_left hne] at hm
  obtain ⟨dbs, dls, rfl, hbind, hm⟩ := exists_append_of_forall₂ hm
  obtain ⟨dks, dcs, rfl, hcopies, hclose⟩ := exists_append_of_forall₂ hm
  obtain ⟨gs, hgs, hc⟩ := exists_copies_insertions hcopies
  rw [flatten_append, flatten_append, hgs, flatten_close hclose]
  cases hv : Plan.boundBy? t { scopes, armed } e.slot exit with
  | none =>
    simp only [hv] at hbind
    cases hbind
    rw [hv, Option.isNone_none, Bool.and_true] at hc
    rw [flatten_nil, List.nil_append, h.edited_leaves hds]
    exact .leaves hx hne hv hc hr
  | some bound =>
    obtain ⟨value, type⟩ := bound
    obtain ⟨hreturn, rfl, hbraces⟩ := boundBy?_eq_some hx hv
    obtain ⟨v, k, rfl, rfl⟩ := exists_tree_of_rootSlots ((h.exits.1 (by simp [hx])).2 value hreturn)
    simp only [hv] at hbind
    cases hbind with
    | cons hvalue hbind =>
      cases hbind
      obtain ⟨v', k', g, hmem, hslot, hg, rfl⟩ := hvalue.of_bindValue
      have hmem' : (v, k) ∈ whole.subtrees := h.below.subtrees (by simp [tree, Forest.subtrees])
      obtain ⟨rfl, rfl⟩ := subtree_unique h.nodup hmem hmem' hslot
      rw [hv, Option.isNone_some, Bool.and_false] at hc
      rw [hbraces, if_pos rfl, flatten_cons, flatten_nil, List.append_nil, h.edited_stores hds]
      exact .stores hreturn hne hv hg hc hr

theorem resolves_edits (h : Part t whole f) (ha : ∀ a ∈ armed, t.tag a.slot = .deferred)
    (hm : List.Forall₂ (Makes whole) (edits t d scopes armed f).1 dss) :
    Resolves t whole d scopes armed f (edits t d scopes armed f).2 (f.edited dss.flatten) := by
  induction f generalizing d scopes armed dss with
  | nil => exact .nil
  | node e b r ihb ihr =>
    have hself : (e, b) ∈ whole.subtrees := h.subtrees (by simp [Forest.subtrees])
    by_cases hd : t.tag e.slot = .deferred
    · rw [edits_deferred hd] at hm ⊢
      cases hm with
      | cons hremove hm =>
        obtain ⟨x, k, hmem, hslot, rfl⟩ := hremove.of_remove
        obtain ⟨rfl, rfl⟩ := subtree_unique h.nodup hmem hself hslot
        have ha' : ∀ a ∈ ⟨x.slot, d⟩ :: armed, t.tag a.slot = .deferred := forall_mem_cons.2 ⟨hd, ha⟩
        rw [flatten_cons, h.edited_removed (h.rest.about_edits ha' hm)]
        exact .deferred hd (ihr h.rest ha' hm)
    · by_cases ho : opens (t.tag e.slot) = true
      · rw [edits_opens ho] at hm ⊢
        obtain ⟨dss, das, rfl, hm, hafter⟩ := exists_append_of_forall₂ hm
        obtain ⟨dis, des, rfl, hinside, hend⟩ := exists_append_of_forall₂ hm
        obtain ⟨-, ha'⟩ := @sound_of_armed t b (d + 1) (⟨e.slot, d⟩ :: scopes) armed ha
        replace ha' := fun a (hm : a ∈ List.filter (·.depth != d + 1) _) => ha' a (mem_filter.1 hm).1
        rw [endEdits_eq] at hend
        obtain ⟨gs, hgs, hc⟩ := exists_copies_append hend
        rw [flatten_append, flatten_append, hgs,
          h.edited_opens (h.below.about_edits ha hinside) (h.rest.about_edits ha' hafter)]
        exact .opens ho (ihb h.below ha hinside) hc (ihr h.rest ha' hafter)
      · have ho : opens (t.tag e.slot) = false := by simpa using ho
        rw [edits_passes hd ho] at hm ⊢
        obtain ⟨dss, das, rfl, hm, hafter⟩ := exists_append_of_forall₂ hm
        obtain ⟨djs, dis, rfl, hjump, hinside⟩ := exists_append_of_forall₂ hm
        by_cases hx : ∀ exit, exit? (t.construct e.slot) = some exit → left t scopes armed exit = []
        · rw [jumpEdits_of_left hx] at hjump
          cases hjump
          obtain ⟨-, ha'⟩ := @sound_of_armed t b (d + 1) scopes armed ha
          have hedited := h.edited_opens (h.below.about_edits ha hinside) (h.rest.about_edits ha' hafter) []
          simp only [List.map_nil, List.append_nil, join_nil, append_nil] at hedited
          rw [flatten_append, List.nil_append, hedited]
          exact .passes hd ho hx (ihb h.below ha hinside) (ihr h.rest ha' hafter)
        · simp only [not_forall] at hx
          obtain ⟨exit, hx, hne⟩ := hx
          rw [edits_operands (h.exits.1 (by simp [hx])).1] at hinside hafter ⊢
          cases hinside
          simp only [Plan.jumpEdits, hx] at hjump
          rw [List.append_nil, flatten_append]
          exact h.resolves_exit hx hne hjump (h.rest.about_edits ha hafter) (ihr h.rest ha hafter)

theorem Resolves.armed_eq {f' : Forest Entry} {armed' : List Placed}
    (h : Resolves t whole d scopes armed f armed' f') (hx : PlainExits t f) :
    armed' = (edits t d scopes armed f).2 := by
  induction h with
  | nil => rfl
  | deferred hd _ ih => rw [edits_deferred hd, ih hx.2.2]
  | opens ho _ _ _ ihb ihr => rw [edits_opens ho, ihr hx.2.2, ihb hx.2.1]
  | passes hd ho _ _ _ ihb ihr => rw [edits_passes hd ho, ihr hx.2.2, ihb hx.2.1]
  | leaves he _ _ _ _ ih =>
    obtain ⟨hd, ho⟩ := exit?_passes (by rw [he]; rfl)
    rw [edits_passes hd ho, ih hx.2.2, edits_operands (hx.1 (by simp [he])).1]
  | stores he _ _ _ _ _ ih =>
    obtain ⟨hd, ho⟩ := exit?_passes (by rw [he]; rfl)
    rw [edits_passes hd ho, ih hx.2.2, edits_operands (hx.1 (by simp [he, exit?])).1]

/-! ## Trees of sources -/

/-- Nodes at which something is put. -/
def Hosts (t : Tree) (f : Forest Entry) (s : Slot) : Prop := Opening t (outer t f) s ∨ Leaving t (outer t f) s

theorem not_hosts_of_deferred {s : Slot} (h : t.tag s = .deferred) : ¬Hosts t f s := by
  have hc : t.construct s = .deferred := Construct.eq_deferred h
  rintro (⟨-, ho⟩ | ⟨-, hx⟩)
  · simp [h, opens] at ho
  · simp [hc, exit?] at hx

theorem not_hosts_of_isOperand {s : Slot} (h : (t.tag s).isOperand = true) : ¬Hosts t f s := by
  obtain ⟨-, ho, hx⟩ := isOperand_passes h
  rintro (h | h)
  · exact absurd h.opens (by simp [ho])
  · exact absurd h.exits (by simp [hx])

theorem not_mem_outer {e : Entry} {b : Forest Entry} (hn : f.slots.Nodup) (h : (e, b) ∈ f.subtrees)
    (hd : t.tag e.slot = .deferred) {s : Slot} (hs : s ∈ b.slots) : s ∉ outer t f := by
  induction f with
  | nil => cases h
  | node x k r ihk ihr =>
    rw [slots_node, nodup_cons, nodup_append, mem_append, not_or] at hn
    obtain ⟨⟨hxk, hxr⟩, hnk, hnr, hkr⟩ := hn
    rw [Forest.subtrees, mem_cons, mem_append] at h
    rcases h with heq | h | h
    · cases heq
      rw [outer_deferred hd, mem_cons, not_or]
      exact ⟨fun heq => hxk (heq ▸ hs), fun hm => hkr s hs s ((outer_sublist r).subset hm) rfl⟩
    · have hsk : s ∈ k.slots := slots_subset h (by simp [hs])
      rw [outer, mem_cons, mem_append, not_or, not_or]
      refine ⟨fun heq => hxk (heq ▸ hsk), ?_, fun hm => hkr s hsk s ((outer_sublist r).subset hm) rfl⟩
      split
      · exact not_mem_nil
      · exact ihk hnk h
    · have hsr : s ∈ r.slots := slots_subset h (by simp [hs])
      rw [outer, mem_cons, mem_append, not_or, not_or]
      refine ⟨fun heq => hxr (heq ▸ hsr), ?_, ihr hnr h⟩
      split
      · exact not_mem_nil
      · exact fun hm => hkr s ((outer_sublist k).subset hm) s hsr rfl

end Firing

namespace Tree.Built

open Forest Firing

variable {t : Tree} {source : List UInt8} {path : Path} {tokens : List Token} {f : Forest Entry}

/-- All of the tree of a source, with its root. -/
abbrev whole (source : List UInt8) (path : Path) (f : Forest Entry) : Forest Entry :=
  .tree (.fresh .root (.unit path) ⟨0, source.length⟩) f

section

variable (h : t.Built source path tokens f)
include h

theorem shape {e : Entry} {b : Forest Entry}
    (hm : (e, b) ∈ (whole source path f).subtrees) : Shape tokens e.node b.roots := (h.shaped.of_mem hm).2.1

theorem node_eq {e : Entry} {b : Forest Entry}
    (hm : (e, b) ∈ (whole source path f).subtrees) : t.node e.slot = e.linked b.rootSlots (t.parent? e.slot) :=
  (h.stands.holds.every.of_mem hm).1

theorem construct_eq {e : Entry} {b : Forest Entry}
    (hm : (e, b) ∈ (whole source path f).subtrees) : t.construct e.slot = e.node.construct := by
  rw [construct, h.node_eq hm]; rfl

theorem reachable_eq : t.reachable = (whole source path f).slots :=
  subtree_eq_slots h.stands.holds h.stands.length_le

theorem plainExits : PlainExits t (whole source path f) := by
  refine every_iff.2 fun e b hm hx => ?_
  have hshape := h.shape hm
  rw [h.construct_eq hm] at hx ⊢
  unfold Shape at hshape
  cases hc : e.node.construct with
  | returned value? =>
    simp only [hc] at hshape
    obtain ⟨-, hroots, hops⟩ := hshape
    refine ⟨fun s hs => ?_, fun value hv => ?_⟩
    · obtain ⟨k, hk, rfl⟩ := mem_map.1 hs
      rw [((h.stands.holds.every.of_mem hm).2).tag_eq hk]
      exact Shaped.isOperand (h.shaped.below hm) (fun k hk => (hops k hk).1.tag) k hk
    · cases hv
      exact hroots
  | jump j =>
    simp only [hc] at hshape
    obtain rfl := eq_nil_of_roots hshape.2
    exact ⟨nofun, nofun⟩
  | _ => simp [hc, exit?] at hx

theorem part : Part t (whole source path f) (whole source path f) :=
  ⟨h.stands.nodup, List.Sublist.refl _, List.Subset.refl _, h.plainExits⟩

theorem exists_operation {e : Entry} {b : Forest Entry}
    (hm : (e, b) ∈ (whole source path f).subtrees) (hd : t.tag e.slot = .deferred) :
    ∃ op k, b = tree op k ∧ operation t e.slot = op.slot := by
  have hshape := h.shape hm
  have hc : e.node.construct = .deferred := h.construct_eq hm ▸ Construct.eq_deferred hd
  simp only [Shape, hc] at hshape
  obtain ⟨-, -, op, hroots, -⟩ := hshape
  obtain ⟨k, rfl⟩ := exists_tree_of_roots hroots
  refine ⟨op, k, rfl, ?_⟩
  rw [operation, children, h.node_eq hm]
  rfl

theorem quiet_deferred {e : Entry} {b : Forest Entry}
    (hm : (e, b) ∈ (whole source path f).subtrees) (hd : t.tag e.slot = .deferred) :
    Quiet (whole source path f) (Hosts t (whole source path f)) e b := by
  refine ⟨hm, fun s hs => ?_⟩
  rw [slots_tree, mem_cons] at hs
  rcases hs with rfl | hs
  · exact not_hosts_of_deferred hd
  · have := not_mem_outer h.stands.nodup hm hd hs
    rintro (ho | hx)
    · exact this ho.mem
    · exact this hx.mem

theorem exists_quiet_operation {s : Slot}
    (hs : Deferred t (outer t (whole source path f)) s) :
    ∃ op k, operation t s = op.slot ∧ Quiet (whole source path f) (Hosts t (whole source path f)) op k := by
  obtain ⟨e, b, hm, rfl⟩ := exists_subtree_slot ((outer_sublist _).subset hs.mem)
  obtain ⟨op, k, rfl, hop⟩ := h.exists_operation hm hs.tag
  have hquiet := h.quiet_deferred hm hs.tag
  refine ⟨op, k, hop, subtrees_below hm (by simp [tree, subtrees]), fun s hs => hquiet.quiet s ?_⟩
  simpa using Or.inr hs

theorem construct_root : t.construct .root = .unit path :=
  h.construct_eq (e := .fresh .root (.unit path) ⟨0, source.length⟩) (b := f) (by simp [tree, subtrees])

theorem fits {edit : Edit}
    (hs : Firing.Sound t (outer t (whole source path f)) (outer t (whole source path f)) edit) :
    Fits (whole source path f) (Hosts t (whole source path f)) edit := by
  have houter := (outer_sublist (t := t) (whole source path f)).subset
  have hroot : ∀ s, Leaving t (outer t (whole source path f)) s → s ∉ (whole source path f).rootSlots := by
    rintro s ⟨-, hx⟩ hs
    obtain rfl : s = .root := by simpa using hs
    rw [h.construct_root] at hx
    cases hx
  cases hs with
  | remove hd =>
    obtain ⟨e, b, hm, rfl⟩ := exists_subtree_slot (houter hd.mem)
    exact .remove (h.quiet_deferred hm hd.tag)
  | append hh hd =>
    obtain ⟨op, k, hop, hq⟩ := h.exists_quiet_operation hd
    rw [hop]
    exact .append (.inl hh) (houter hh.mem) hq
  | insertBefore ha hd brace =>
    obtain ⟨op, k, hop, hq⟩ := h.exists_quiet_operation hd
    rw [hop]
    exact .insertBefore (.inr ha) (houter ha.mem) (hroot _ ha) hq brace
  | @bindValue ret value hr hv type =>
    obtain ⟨e, b, hm, rfl⟩ := exists_subtree_slot (houter hr.mem)
    obtain ⟨hops, hroots⟩ := h.plainExits.of_mem hm hr.exits
    obtain ⟨v, k, rfl, rfl⟩ := exists_tree_of_rootSlots (hroots value hv)
    exact .bindValue (.inr hr) (houter hr.mem) (hroot _ hr)
      ⟨subtrees_below hm (by simp [tree, subtrees]), fun s hs => not_hosts_of_isOperand (hops s hs)⟩ type
  | closeBrace ha => exact .closeBrace (houter ha.mem)

end

end Tree.Built

namespace Firing

open Forest Tree.Built

variable {t : Tree} {source : List UInt8} {path : Path} {tokens : List Token} {f : Forest Entry}
  (h : t.Built source path tokens f)
include h

theorem stage_start {site : Slot → Prop} :
    Stage t (whole source path f) site [] t where
  frame := ⟨Change.new_nil _, h.stands.nodup, fun s hs => (h.stands.bound s hs).2, fun _ _ => ⟨rfl, rfl⟩⟩
  stands := by rw [edited_nil]; exact h.stands
  size := le_rfl
  outside := fun _ _ _ => rfl

theorem edits_built :
    (plan t).edits.toList = (edits t 0 [] [] (whole source path f)).1 := edits_plan h.stands rfl

theorem fits_plan :
    ∀ e ∈ (plan t).edits.toList, Fits (whole source path f) (Hosts t (whole source path f)) e := by
  have hsound : ∀ e ∈ (edits t 0 [] [] (whole source path f)).1,
      Sound t (outer t (whole source path f)) (outer t (whole source path f)) e :=
    (sound_edits (fun _ hs => hs) (fun _ hs => hs) (by simp)).1
  rw [edits_built h]
  exact fun e he => h.fits (hsound e he)

/-- Resolving the tree of a source resolves its forest, and changes nothing but its nodes. -/
theorem exists_resolves :
    ∃ armed f', Resolves t (whole source path f) 1 [] [] f armed f' ∧
      (resolve t).tree.Stands none 0 (whole source path f') ∧ Outside t (whole source path f) (resolve t).tree := by
  obtain ⟨dss, hmakes, hstage⟩ := (stage_start h).applyAll (fits_plan h)
  rw [edits_built h] at hmakes
  have hresolves := resolves_edits h.part (by simp) hmakes
  have hstands := hstage.stands
  rw [List.nil_append] at hstands
  generalize (whole source path f).edited dss.flatten = g at hresolves hstands
  have hroot : t.construct (Entry.fresh .root (.unit path) ⟨0, source.length⟩).slot = .unit path := h.construct_root
  cases hresolves with
  | deferred hd => rw [Tree.tag, Node.tag, ← Tree.construct, hroot] at hd; cases hd
  | opens ho => rw [Tree.tag, Node.tag, ← Tree.construct, hroot] at ho; cases ho
  | leaves hx | stores hx => rw [hroot] at hx; cases hx
  | passes _ _ _ hb hr =>
    cases hr
    exact ⟨_, _, hb, hstands, hstage.outside⟩

end Firing

end Deferral
