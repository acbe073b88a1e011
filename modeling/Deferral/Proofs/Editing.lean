import Deferral.Proofs.Copying
import Deferral.Proofs.Insertion

/-!
# Edited forests

Changes are made one after the other, but each of them concerns one place: a tree is put before a node or at the end of
what is below it, or nodes are marked. So a forest after all changes is found node by node (`Forest.edited`), and what
one more change does to the tree that holds it is what it does to that forest.
-/

namespace Deferral

open List hiding append_nil

/-- A change of a node that leaves its links alone. -/
inductive Mark where
  | removed
  | replaced (text : String)
  /-- A brace is closed after the node. -/
  | closed

def Mark.apply : Mark → Node → Node
  | .removed, n => { n with status := .removed }
  | .replaced text, n => { n with replacement? := some text, status := .modified }
  | .closed, n => { n with status := .modified, actions := n.actions.union { braceAfter := true } }

/-- A place for a tree. -/
inductive Site where
  | before (anchor : Slot)
  | last (host : Slot)
  deriving DecidableEq

/-- The node that a place is named after. -/
def Site.slot : Site → Slot
  | .before anchor => anchor
  | .last host => host

@[simp] theorem Site.slot_before (s : Slot) : (before s).slot = s := rfl

@[simp] theorem Site.slot_last (s : Slot) : (last s).slot = s := rfl

/-- One change of a forest. -/
inductive Change where
  | put (site : Site) (added : Forest Entry)
  | mark (slots : List Slot) (mark : Mark)

variable {m : Mark} {s anchor : Slot}

namespace Change

/-- The trees put at a place, in order. -/
def trees (site : Site) : List Change → Forest Entry
  | [] => .nil
  | .put place added :: cs => if place = site then added ++ trees site cs else trees site cs
  | .mark _ _ :: cs => trees site cs

/-- A node with its marks. -/
def marked (s : Slot) : List Change → Node → Node
  | [], n => n
  | .mark slots m :: cs, n => marked s cs (if s ∈ slots then m.apply n else n)
  | .put _ _ :: cs, n => marked s cs n

theorem trees_append (site : Site) (cs ds : List Change) : trees site (cs ++ ds) = trees site cs ++ trees site ds := by
  induction cs with
  | nil => rfl
  | cons c cs ih =>
    cases c with
    | mark => exact ih
    | put place added =>
      by_cases h : place = site <;> simp [trees, h, ih, Forest.append_assoc]

theorem trees_put (site place : Site) (added : Forest Entry) :
    trees site [.put place added] = if place = site then added else .nil := by
  simp [trees]

@[simp] theorem trees_mark (site : Site) (slots : List Slot) (m : Mark) : trees site [.mark slots m] = .nil := rfl

theorem marked_append (s : Slot) (cs ds : List Change) (n : Node) :
    marked s (cs ++ ds) n = marked s ds (marked s cs n) := by
  induction cs generalizing n with
  | nil => rfl
  | cons c cs ih => cases c <;> exact ih _

@[simp] theorem marked_put (s : Slot) (site : Site) (added : Forest Entry) (n : Node) :
    marked s [.put site added] n = n := rfl

theorem marked_mark (s : Slot) (slots : List Slot) (m : Mark) (n : Node) :
    marked s [.mark slots m] n = if s ∈ slots then m.apply n else n := rfl

theorem Mark.construct_apply (m : Mark) (n : Node) : (m.apply n).construct = n.construct := by cases m <;> rfl

theorem Mark.span_apply (m : Mark) (n : Node) : (m.apply n).span = n.span := by cases m <;> rfl

theorem marked_construct_span (s : Slot) (cs : List Change) (n : Node) :
    (marked s cs n).construct = n.construct ∧ (marked s cs n).span = n.span := by
  induction cs generalizing n with
  | nil => exact ⟨rfl, rfl⟩
  | cons c cs ih =>
    cases c with
    | put => exact ih n
    | mark slots m =>
      by_cases h : s ∈ slots
      · simpa [marked, h, Mark.construct_apply, Mark.span_apply] using ih (m.apply n)
      · simpa [marked, h] using ih n

/-- The slots that a change is about. -/
def touched : Change → List Slot
  | .put site _ => [site.slot]
  | .mark slots _ => slots

/-- All changes are about some slots. -/
def About (slots : List Slot) (cs : List Change) : Prop := ∀ c ∈ cs, ∀ s ∈ c.touched, s ∈ slots

section About

variable {slots : List Slot} {cs ds : List Change}

theorem about_cons {c : Change} : About slots (c :: cs) ↔ About slots [c] ∧ About slots cs := by
  simp [About]

theorem about_append : About slots (cs ++ ds) ↔ About slots cs ∧ About slots ds := by
  simp [About, or_imp, forall_and]

theorem about_put {site : Site} {g : Forest Entry} : About slots [.put site g] ↔ site.slot ∈ slots := by
  simp [About, touched]

theorem about_mark {marks : List Slot} : About slots [.mark marks m] ↔ marks ⊆ slots := by
  simp [About, touched, subset_def]

theorem About.mono {more : List Slot} (h : About slots cs) (hs : slots ⊆ more) : About more cs :=
  fun c hc s hm => hs (h c hc s hm)

theorem About.trees_eq (h : About slots cs) (site : Site) (hs : site.slot ∉ slots) : trees site cs = .nil := by
  induction cs with
  | nil => rfl
  | cons c cs ih =>
    obtain ⟨hc, hcs⟩ := forall_mem_cons.1 h
    cases c with
    | mark => exact ih hcs
    | put place added =>
      have hne : place ≠ site := fun heq => hs (heq ▸ hc place.slot (by simp [touched]))
      simpa [trees, hne] using ih hcs

theorem About.marked_eq (h : About slots cs) (hs : s ∉ slots) (n : Node) : marked s cs n = n := by
  induction cs with
  | nil => rfl
  | cons c cs ih =>
    obtain ⟨hc, hcs⟩ := forall_mem_cons.1 h
    cases c with
    | put => exact ih hcs
    | mark marks m =>
      have hne : s ∉ marks := fun hm => hs (hc s hm)
      simpa [marked, hne] using ih hcs

end About

section Puts

variable (site : Site) (gs : List (Forest Entry))

theorem about_puts : About [site.slot] (gs.map (.put site)) := by
  simp [About, touched]

theorem trees_puts : trees site (gs.map (.put site)) = .join gs := by
  induction gs with
  | nil => rfl
  | cons g gs ih => simp [trees, ih]

theorem trees_puts_ne (place : Site) (h : site ≠ place) : trees place (gs.map (.put site)) = .nil := by
  induction gs with
  | nil => rfl
  | cons g gs ih => simpa [trees, h] using ih

theorem marked_puts (s : Slot) (n : Node) : marked s (gs.map (.put site)) n = n := by
  induction gs with
  | nil => rfl
  | cons g gs ih => exact ih

end Puts

end Change

/-- An entry with its marks. -/
def Entry.marked (cs : List Change) (e : Entry) : Entry := ⟨e.slot, Change.marked e.slot cs e.node⟩

namespace Forest

open Change

/-- A forest with all changes made. -/
def edited (cs : List Change) : Forest Entry → Forest Entry
  | nil => nil
  | node e below rest =>
    trees (.before e.slot) cs ++ node (e.marked cs) (below.edited cs ++ trees (.last e.slot) cs) (rest.edited cs)

variable {cs : List Change} {f : Forest Entry}

theorem edited_nil (f : Forest Entry) : f.edited [] = f := by
  induction f with
  | nil => rfl
  | node e b r ihb ihr => simp [edited, trees, ihb, ihr, Entry.marked, marked]

theorem edited_of_quiet (h : ∀ s ∈ f.slots, trees (.before s) cs = nil ∧ trees (.last s) cs = nil) :
    f.edited cs = f.map (.marked cs) := by
  induction f with
  | nil => rfl
  | node e b r ihb ihr =>
    have he := h e.slot (by simp)
    rw [edited, he.1, he.2, ihb fun s hs => h s (by simp [hs]), ihr fun s hs => h s (by simp [hs])]
    simp

theorem slots_marked (cs : List Change) (f : Forest Entry) : (f.map (.marked cs)).slots = f.slots := by
  simp only [slots, members_map, List.map_map]
  rfl

theorem copied_marked (cs : List Change) (rename : Slot → Slot) (f : Forest Entry) :
    (f.map (Entry.marked cs)).map (Entry.copied rename) = f.map (Entry.copied rename) := by
  rw [map_map]
  refine map_congr fun e _ => ?_
  simp [Entry.copied, Entry.marked, (marked_construct_span e.slot cs e.node).1,
    (marked_construct_span e.slot cs e.node).2]

theorem edited_congr {ds : List Change} (h : ∀ s ∈ f.slots, trees (.before s) cs = trees (.before s) ds ∧
    trees (.last s) cs = trees (.last s) ds ∧ ∀ n, marked s cs n = marked s ds n) : f.edited cs = f.edited ds := by
  induction f with
  | nil => rfl
  | node e b r ihb ihr =>
    obtain ⟨hbefore, hlast, hmarked⟩ := h e.slot (by simp)
    rw [edited, edited, hbefore, hlast, ihb fun s hs => h s (by simp [hs]), ihr fun s hs => h s (by simp [hs]),
      Entry.marked, Entry.marked, hmarked]

theorem edited_append_left {slots : List Slot} (h : About slots cs) (hf : ∀ s ∈ f.slots, s ∉ slots) (ds : List Change) :
    f.edited (cs ++ ds) = f.edited ds :=
  edited_congr fun s hs => by
    simp [trees_append, marked_append, h.trees_eq (.before s) (hf s hs), h.trees_eq (.last s) (hf s hs),
      h.marked_eq (hf s hs)]

theorem edited_append_right {slots : List Slot} (h : About slots cs) (hf : ∀ s ∈ f.slots, s ∉ slots)
    (ds : List Change) :
    f.edited (ds ++ cs) = f.edited ds :=
  edited_congr fun s hs => by
    simp [trees_append, marked_append, h.trees_eq (.before s) (hf s hs), h.trees_eq (.last s) (hf s hs),
      h.marked_eq (hf s hs)]

theorem edited_elsewhere {slots : List Slot} (h : About slots cs) (hf : ∀ s ∈ f.slots, s ∉ slots) :
    f.edited cs = f := by
  have := edited_append_left h hf []
  rwa [List.append_nil, edited_nil] at this

theorem edited_put_of_not_mem (site : Site) (added : Forest Entry) (h : site.slot ∉ f.slots) :
    f.edited (cs ++ [.put site added]) = f.edited cs :=
  edited_append_right (about_puts site [added]) (fun _ hs hm => h (mem_singleton.1 hm ▸ hs)) cs

theorem mem_slots_edited (cs : List Change) (h : s ∈ f.slots) : s ∈ (f.edited cs).slots := by
  induction f with
  | nil => cases h
  | node e b r ihb ihr =>
    simp only [slots_node, mem_cons, mem_append] at h
    simp only [edited, slots_append, slots_node, mem_cons, mem_append]
    rcases h with rfl | h | h
    · exact .inr (.inl rfl)
    · exact .inr (.inr (.inl (.inl (ihb h))))
    · exact .inr (.inr (.inr (ihr h)))

theorem mem_slots_of_edited (h : s ∈ (f.edited cs).slots) :
    s ∈ f.slots ∨ ∃ site, s ∈ (trees site cs).slots := by
  induction f with
  | nil => cases h
  | node e b r ihb ihr =>
    simp only [edited, slots_append, slots_node, mem_cons, mem_append] at h
    rcases h with h | rfl | (h | h) | h
    · exact .inr ⟨_, h⟩
    · exact .inl (by simp [Entry.marked])
    · exact (ihb h).imp_left fun h => by simp [h]
    · exact .inr ⟨_, h⟩
    · exact (ihr h).imp_left fun h => by simp [h]

theorem grafted_last (cs : List Change) {host : Slot} (added : Forest Entry) (h : host ∈ f.slots)
    (hnd : f.slots.Nodup) :
    ∃ l, Grafted host l added nil (f.edited cs) (f.edited (cs ++ [.put (.last host) added])) := by
  induction f with
  | nil => cases h
  | node e b r ihb ihr =>
    simp only [slots_node, nodup_cons, mem_append, not_or, nodup_append] at hnd
    obtain ⟨⟨heb, her⟩, hndb, hndr, hbr⟩ := hnd
    simp only [slots_node, mem_cons, mem_append] at h
    have hmark : e.marked (cs ++ [.put (.last host) added]) = e.marked cs := by simp [Entry.marked, marked_append]
    simp only [edited, trees_append, trees_put, hmark, reduceCtorEq, if_false, append_nil, Site.last.injEq]
    rcases h with rfl | h | h
    · rw [edited_put_of_not_mem (.last _) added heb, edited_put_of_not_mem (.last _) added her,
        if_pos rfl, ← append_assoc]
      refine ⟨b.edited cs ++ trees (.last e.slot) cs, Grafted.append_left ?_ _⟩
      have := Grafted.here (q := e.slot) (c := added) (r := nil) (l := b.edited cs ++ trees (.last e.slot) cs)
        (e := e.marked cs) (r.edited cs) rfl
      simpa only [append_nil] using this
    · have hne : host ≠ e.slot := fun heq => heb (heq ▸ h)
      have hr : host ∉ r.slots := fun hr => hbr host h host hr rfl
      obtain ⟨l, hl⟩ := ihb h hndb
      rw [edited_put_of_not_mem (.last host) added hr, if_neg hne, append_nil]
      exact ⟨l, (Grafted.inside _ _ (hl.append_right _)).append_left _⟩
    · have hne : host ≠ e.slot := fun heq => her (heq ▸ h)
      have hb : host ∉ b.slots := fun hb => hbr host hb host h rfl
      obtain ⟨l, hl⟩ := ihr h hndr
      rw [edited_put_of_not_mem (.last host) added hb, if_neg hne, append_nil]
      exact ⟨l, (Grafted.beside _ _ hl).append_left _⟩

theorem edited_before_root (cs : List Change) (added : Forest Entry) (h : anchor ∈ f.rootSlots)
    (hnd : f.slots.Nodup) :
    ∃ l r, f.edited cs = l ++ r ∧ f.edited (cs ++ [.put (.before anchor) added]) = l ++ (added ++ r) ∧
      r.rootSlots.head? = some anchor := by
  induction f with
  | nil => cases h
  | node e b s _ ihs =>
    simp only [slots_node, nodup_cons, mem_append, not_or, nodup_append] at hnd
    obtain ⟨⟨heb, hes⟩, -, hnds, hbs⟩ := hnd
    have hmark : e.marked (cs ++ [.put (.before anchor) added]) = e.marked cs := by simp [Entry.marked, marked_append]
    simp only [edited, trees_append, trees_put, hmark, reduceCtorEq, if_false, append_nil, Site.before.injEq]
    rw [rootSlots_node, mem_cons] at h
    rcases h with rfl | h
    · refine ⟨trees (.before e.slot) cs, node (e.marked cs) (b.edited cs ++ trees (.last e.slot) cs) (s.edited cs), rfl,
        ?_, rfl⟩
      rw [edited_put_of_not_mem (.before _) added heb, edited_put_of_not_mem (.before _) added hes,
        if_pos rfl, append_assoc]
    · have hs := rootSlots_subset h
      have hne : anchor ≠ e.slot := fun heq => hes (heq ▸ hs)
      have hb : anchor ∉ b.slots := fun hb => hbs anchor hb anchor hs rfl
      obtain ⟨l, r, hl, hr, hhead⟩ := ihs h hnds
      refine ⟨trees (.before e.slot) cs ++ node (e.marked cs) (b.edited cs ++ trees (.last e.slot) cs) l, r, ?_, ?_,
        hhead⟩
      · rw [hl, append_assoc, node_append]
      · rw [edited_put_of_not_mem (.before anchor) added hb, if_neg hne, append_nil, hr, append_assoc, node_append]

theorem grafted_before (cs : List Change) (added : Forest Entry) (h : anchor ∈ f.slots)
    (hroot : anchor ∉ f.rootSlots) (hnd : f.slots.Nodup) :
    ∃ q l r, Grafted q l added r (f.edited cs) (f.edited (cs ++ [.put (.before anchor) added])) ∧
      r.rootSlots.head? = some anchor := by
  induction f with
  | nil => cases h
  | node e b s ihb ihs =>
    simp only [slots_node, nodup_cons, mem_append, not_or, nodup_append] at hnd
    obtain ⟨-, hndb, hnds, hbs⟩ := hnd
    simp only [rootSlots_node, mem_cons, not_or] at hroot
    simp only [slots_node, mem_cons, mem_append, hroot.1, false_or] at h
    have hmark : e.marked (cs ++ [.put (.before anchor) added]) = e.marked cs := by simp [Entry.marked, marked_append]
    simp only [edited, trees_append, trees_put, hmark, reduceCtorEq, if_false, append_nil, Site.before.injEq, hroot.1]
    rcases h with h | h
    · have hs : anchor ∉ s.slots := fun hs => hbs anchor h anchor hs rfl
      rw [edited_put_of_not_mem (.before anchor) added hs]
      by_cases hb : anchor ∈ b.rootSlots
      · obtain ⟨l, r, hl, hr, hhead⟩ := edited_before_root cs added hb hndb
        refine ⟨e.slot, l, r ++ trees (.last e.slot) cs, Grafted.append_left ?_ _, ?_⟩
        · rw [hl, hr, append_assoc, append_assoc, append_assoc]
          exact .here _ rfl
        · simp [hhead]
      · obtain ⟨q, l, r, hg, hhead⟩ := ihb h hb hndb
        exact ⟨q, l, r, (Grafted.inside _ _ (hg.append_right _)).append_left _, hhead⟩
    · have hb : anchor ∉ b.slots := fun hb => hbs anchor hb anchor h rfl
      rw [edited_put_of_not_mem (.before anchor) added hb]
      obtain ⟨q, l, r, hg, hhead⟩ := ihs h hroot.2 hnds
      exact ⟨q, l, r, (Grafted.beside _ _ hg).append_left _, hhead⟩

theorem slots_edited_mark (slots : List Slot) (m : Mark) :
    (f.edited (cs ++ [.mark slots m])).slots = (f.edited cs).slots ∧
      (f.edited (cs ++ [.mark slots m])).rootSlots = (f.edited cs).rootSlots := by
  induction f with
  | nil => exact ⟨rfl, rfl⟩
  | node e b s ihb ihs =>
    simp [edited, trees_append, ihb, ihs, Entry.marked]

end Forest

/-- All trees that were put somewhere are in slots from `n` on. -/
def Change.New (n : Nat) (cs : List Change) : Prop := ∀ site, ∀ s ∈ (trees site cs).slots, n ≤ s.index

theorem Change.new_nil (n : Nat) : New n [] := by simp [New, trees]

theorem Change.New.mark {n : Nat} {cs : List Change} (h : New n cs) (slots : List Slot) (m : Mark) :
    New n (cs ++ [.mark slots m]) := by
  simpa [New, trees_append] using h

theorem Change.New.put {n : Nat} {cs : List Change} (h : New n cs) (site : Site) {added : Forest Entry}
    (ha : ∀ s ∈ added.slots, n ≤ s.index) : New n (cs ++ [.put site added]) := by
  intro place s hs
  rw [trees_append, Forest.slots_append, mem_append, trees_put] at hs
  rcases hs with hs | hs
  · exact h place s hs
  · split at hs
    · exact ha s hs
    · cases hs

namespace Tree

open Forest Change

variable {t t' : Tree} {p? : Option Slot} {low n : Nat} {cs : List Change} {f : Forest Entry}

theorem Mark.apply_linked (m : Mark) (e : Entry) (children : List Slot) (parent? : Option Slot) :
    m.apply (e.linked children parent?) = (⟨e.slot, m.apply e.node⟩ : Entry).linked children parent? := by
  cases m <;> rfl

theorem Holds.mark {slots : List Slot} (h : t.Holds p? (f.edited cs)) (hn : New n cs)
    (hslots : ∀ s ∈ slots, s.index < n) (hf : ∀ s ∈ f.slots, s ∈ slots → t'.node s = m.apply (t.node s))
    (hother : ∀ s, s ∉ slots → t'.node s = t.node s) : t'.Holds p? (f.edited (cs ++ [.mark slots m])) := by
  have hnew : ∀ site x?, t.Holds x? (trees site cs) → t'.Holds x? (trees site cs) := by
    intro site x? hx
    refine hx.congr fun s hs => hother s fun hmem => ?_
    have := hslots s hmem
    have := hn site s hs
    omega
  induction f generalizing p? with
  | nil => trivial
  | node e b r ihb ihr =>
    simp only [edited, trees_append, trees_mark, append_nil] at h ⊢
    obtain ⟨hbefore, he, hb, hr⟩ := holds_append.1 h
    obtain ⟨hb, hlast⟩ := holds_append.1 hb
    have hroots : (b.edited (cs ++ [.mark slots m]) ++ trees (.last e.slot) cs).rootSlots =
        (b.edited cs ++ trees (.last e.slot) cs).rootSlots := by
      simp [(slots_edited_mark slots m).2]
    refine holds_append.2
      ⟨hnew _ _ hbefore, ?_, holds_append.2 ⟨ihb hb fun s hs => hf s (by simp [hs]), hnew _ _ hlast⟩,
      ihr hr fun s hs => hf s (by simp [hs])⟩
    rw [hroots]
    change t'.node e.slot = _
    by_cases hm : e.slot ∈ slots
    · rw [hf e.slot (by simp) hm]
      change m.apply (t.node (e.marked cs).slot) = _
      rw [he, Mark.apply_linked]
      simp [Entry.marked, marked_append, marked_mark, hm]
    · rw [hother e.slot hm]
      change t.node (e.marked cs).slot = _
      rw [he]
      simp [Entry.marked, marked_append, marked_mark, hm]

theorem Stands.mark {slots : List Slot} (h : t.Stands p? low (f.edited cs)) (hn : New n cs)
    (hslots : ∀ s ∈ slots, s.index < n) (hsize : t.size ≤ t'.size)
    (hf : ∀ s ∈ f.slots, s ∈ slots → t'.node s = m.apply (t.node s))
    (hother : ∀ s, s ∉ slots → t'.node s = t.node s) : t'.Stands p? low (f.edited (cs ++ [.mark slots m])) := by
  refine ⟨h.holds.mark hn hslots hf hother, ?_, fun s hs => ?_⟩
  · rw [(slots_edited_mark slots m).1]
    exact h.nodup
  · rw [(slots_edited_mark slots m).1] at hs
    have := h.bound s hs
    omega

variable {x : Entry} {k : Forest Entry}

theorem Stands.putLast {host : Slot} (h : t.Stands none low (f.edited cs ++ tree x k)) (hf : f.slots.Nodup)
    (hh : host ∈ f.slots) :
    (t.attach host x.slot).Stands none low (f.edited (cs ++ [.put (.last host) (tree x k)])) := by
  obtain ⟨l, hg⟩ := grafted_last cs (tree x k) hh hf
  have hmem := mem_slots_edited cs hh
  have hne : host ≠ x.slot := fun heq => by
    have := (nodup_append.1 (slots_append .. ▸ h.nodup)).2.2 host hmem x.slot (by simp)
    exact this heq
  have hc := hg.children_eq h.left.holds
  rw [append_nil] at hc
  have ha := adopts_attach (k := k) (h.bound host (by simp [hmem])).2 (h.bound x.slot (by simp)).2 hne hc
  refine h.graft hg ?_ (Nat.le_of_eq (size_attach ..).symm)
  simpa using ha

theorem Stands.putBefore (h : t.Stands none low (f.edited cs ++ tree x k)) (hf : f.slots.Nodup)
    (ha : anchor ∈ f.slots) (hroot : anchor ∉ f.rootSlots) : ∃ q, t.parent? anchor = some q ∧
      q ∈ (f.edited cs).slots ∧
      (t.insertBefore q anchor x.slot).Stands none low (f.edited (cs ++ [.put (.before anchor) (tree x k)])) := by
  obtain ⟨q, l, r, hg, hhead⟩ := grafted_before cs (tree x k) ha hroot hf
  obtain ⟨rest, hr⟩ : ∃ rest, r.rootSlots = anchor :: rest := by
    cases hrs : r.rootSlots with
    | nil => simp [hrs] at hhead
    | cons s rest => exact ⟨rest, by simpa [hrs] using hhead⟩
  have hnd := nodup_append.1 (slots_append .. ▸ h.nodup)
  have hne : q ≠ x.slot := hnd.2.2 q hg.mem_slots x.slot (by simp)
  have hl : anchor ∉ l.rootSlots := fun hl => by
    have hlr := nodup_append.1 (slots_append .. ▸ hg.sublist.nodup hnd.1)
    exact hlr.2.2 anchor (rootSlots_subset hl) anchor (rootSlots_subset (by simp [hr])) rfl
  have hc : t.children q = l.rootSlots ++ anchor :: rest := by
    rw [hg.children_eq h.left.holds, rootSlots_append, hr]
  have hadopts := adopts_insertBefore (k := k) (h.bound q (by simp [hg.mem_slots])).2
    (h.bound x.slot (by simp)).2 hne hc hl
  refine ⟨q, hg.parent_eq h.left.holds (by simp [hr]), hg.mem_slots, h.graft hg ?_ (by simp [insertBefore])⟩
  simpa [hr] using hadopts

theorem Holds.edited_subtree (h : t.Holds p? (f.edited cs)) {e : Entry} {b : Forest Entry} (hm : (e, b) ∈ f.subtrees) :
    (∃ q?, t.Holds q? (tree (e.marked cs) (b.edited cs ++ trees (.last e.slot) cs))) ∧
      (tree (e.marked cs) (b.edited cs ++ trees (.last e.slot) cs)).slots.Sublist (f.edited cs).slots := by
  induction f generalizing p? with
  | nil => cases hm
  | node x d r ihd ihr =>
    simp only [Forest.edited] at h ⊢
    obtain ⟨-, hx, hd, hr⟩ := holds_append.1 h
    simp only [slots_append, slots_node]
    rcases mem_cons.1 hm with heq | hm
    · cases heq
      refine ⟨⟨p?, holds_tree.2 ⟨hx, hd⟩⟩, .trans ?_ (sublist_append_right ..)⟩
      rw [slots_tree, slots_append]
      exact (sublist_append_left ..).cons_cons _
    · rcases mem_append.1 hm with hm | hm
      · obtain ⟨hq, hs⟩ := ihd (holds_append.1 hd).1 hm
        refine ⟨hq, hs.trans (.trans ?_ (sublist_append_right ..))⟩
        exact ((sublist_append_left ..).trans (sublist_append_left ..)).cons _
      · obtain ⟨hq, hs⟩ := ihr hr hm
        exact ⟨hq, hs.trans (((sublist_append_right ..).cons _).trans (sublist_append_right ..))⟩

end Tree

end Deferral
