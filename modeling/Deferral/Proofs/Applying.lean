import Deferral.Firing.Apply
import Deferral.Proofs.Editing

/-!
# Edits made to a tree

Each edit of a plan stands for changes of the forest that the tree holds (`Firing.Makes`). If the edits fit the forest,
making them all gives a tree that holds the edited forest, and leaves all slots outside the forest as they were
(`Firing.Stage.applyAll`).
-/

namespace Deferral

variable {b k : Forest Entry} {x : Entry}

/-- A node that was spliced in. -/
def Entry.added (slot : Slot) (construct : Construct) (span : Span) (actions : Actions) (lead? : Option String) :
    Entry :=
  ⟨slot, { construct, span, status := .added, actions, lead?, id := slot.index }⟩

namespace Firing

open Tree Forest Change

/-- A copy of the tree of `e` over `b` that was spliced in, in the slots from `n` on. -/
inductive Splice (e : Entry) (b : Forest Entry) (actions : Actions) (lead? : Option String) : Forest Entry → Prop
  | mk (n : Nat) : Splice e b actions lead? (tree
    (.added (.renamed n (tree e b).slots e.slot) (e.node.construct.mapSlots (.renamed n (tree e b).slots)) e.node.span
      actions lead?)
    (b.map (.copied (.renamed n (tree e b).slots))))

/-- The text in front of a stored value. -/
def declares (type : String) : String := type ++ " " ++ storedValue ++ " = "

/-- The changes that an edit stands for. -/
inductive Makes (f : Forest Entry) : Edit → List Change → Prop
  | remove {e : Entry} {b : Forest Entry} (h : (e, b) ∈ f.subtrees) :
    Makes f (.remove e.slot) [.mark (tree e b).slots .removed]
  | append (host : Slot) {op : Entry} {b : Forest Entry} (h : (op, b) ∈ f.subtrees) {g : Forest Entry}
    (hg : Splice op b {} none g) : Makes f (.append host op.slot) [.put (.last host) g]
  | insertBefore (anchor : Slot) {op : Entry} {b : Forest Entry} (h : (op, b) ∈ f.subtrees) {brace : Bool}
    {g : Forest Entry} (hg : Splice op b { braceBefore := brace } none g) :
    Makes f (.insertBefore anchor op.slot brace) [.put (.before anchor) g]
  | bindValue (ret : Slot) {value : Entry} {b : Forest Entry} (h : (value, b) ∈ f.subtrees) {type : String}
    {g : Forest Entry} (hg : Splice value b { braceBefore := true } (some (declares type)) g) :
    Makes f (.bindValue ret value.slot type) [.put (.before ret) g, .mark [value.slot] (.replaced storedValue)]
  | closeBrace (anchor : Slot) : Makes f (.closeBrace anchor) [.mark [anchor] .closed]

/-- A tree of the forest in which nothing is put. -/
structure Quiet (f : Forest Entry) (site : Slot → Prop) (e : Entry) (b : Forest Entry) : Prop where
  mem : (e, b) ∈ f.subtrees
  quiet : ∀ s ∈ (tree e b).slots, ¬site s

/-- Edits that can be made to a forest, with trees put at `site` nodes only. -/
inductive Fits (f : Forest Entry) (site : Slot → Prop) : Edit → Prop
  | remove {e : Entry} {b : Forest Entry} (h : Quiet f site e b) : Fits f site (.remove e.slot)
  | append {host : Slot} {op : Entry} {b : Forest Entry} (hs : site host) (hh : host ∈ f.slots)
      (h : Quiet f site op b) :
    Fits f site (.append host op.slot)
  | insertBefore {anchor : Slot} {op : Entry} {b : Forest Entry} (hs : site anchor) (ha : anchor ∈ f.slots)
    (hr : anchor ∉ f.rootSlots) (h : Quiet f site op b) (brace : Bool) :
    Fits f site (.insertBefore anchor op.slot brace)
  | bindValue {ret : Slot} {value : Entry} {b : Forest Entry} (hs : site ret) (ha : ret ∈ f.slots)
    (hr : ret ∉ f.rootSlots) (h : Quiet f site value b) (type : String) : Fits f site (.bindValue ret value.slot type)
  | closeBrace {anchor : Slot} (ha : anchor ∈ f.slots) : Fits f site (.closeBrace anchor)

/-- Changes of a forest that was held in `n` slots: new trees are in new slots and at `site` nodes only. -/
structure Frame (n : Nat) (f : Forest Entry) (site : Slot → Prop) (cs : List Change) : Prop where
  new : New n cs
  nodup : f.slots.Nodup
  old : ∀ s ∈ f.slots, s.index < n
  quiet : ∀ s, ¬site s → trees (.before s) cs = .nil ∧ trees (.last s) cs = .nil

variable {o t : Tree} {n : Nat} {f : Forest Entry} {site : Slot → Prop} {cs : List Change}

theorem Frame.mark (h : Frame n f site cs) (slots : List Slot) (m : Mark) : Frame n f site (cs ++ [.mark slots m]) :=
  { h with
    new := h.new.mark slots m
    quiet := fun s hs => by simpa [trees_append] using h.quiet s hs }

theorem Frame.put (h : Frame n f site cs) (place : Site) (hs : site place.slot) {added : Forest Entry}
    (ha : ∀ s ∈ added.slots, n ≤ s.index) : Frame n f site (cs ++ [.put place added]) :=
  { h with
    new := h.new.put place ha
    quiet := fun s hq => by
      have hbefore : place ≠ .before s := by rintro rfl; exact hq hs
      have hlast : place ≠ .last s := by rintro rfl; exact hq hs
      simpa [trees_append, trees_put, hbefore, hlast] using h.quiet s hq }

/-- Slots of `o` that are not in the forest are as they were. -/
def Outside (o : Tree) (f : Forest Entry) (t : Tree) : Prop :=
  ∀ s, s.index < o.size → s ∉ f.slots → t.node s = o.node s

theorem Outside.trans {t' : Tree} (h : Outside o f t) (slots : List Slot)
    (hslots : ∀ s ∈ slots, s ∈ f.slots ∨ o.size ≤ s.index) (hother : ∀ s, s ∉ slots → t'.node s = t.node s) :
    Outside o f t' := by
  intro s hs hf
  rw [hother s fun hm => ?_, h s hs hf]
  rcases hslots s hm with hm | hm
  · exact hf hm
  · omega

/-- A tree after some changes, which was `o` before. -/
structure Stage (o : Tree) (f : Forest Entry) (site : Slot → Prop) (cs : List Change) (t : Tree) : Prop where
  frame : Frame o.size f site cs
  stands : t.Stands none 0 (f.edited cs)
  size : o.size ≤ t.size
  outside : Outside o f t

/-- A tree after some changes, with a lone tree beside it that is to be put in place. -/
structure Beside (o : Tree) (f : Forest Entry) (site : Slot → Prop) (cs : List Change) (t : Tree) (x : Entry)
    (k : Forest Entry) : Prop where
  frame : Frame o.size f site cs
  stands : t.Stands none 0 (f.edited cs ++ tree x k)
  fresh : ∀ s ∈ (tree x k).slots, o.size ≤ s.index
  size : o.size ≤ t.size
  outside : Outside o f t

/-! ## Marks -/

namespace Stage

theorem mark (h : Stage o f site cs t) {t' : Tree} {slots : List Slot} {m : Mark} (hslots : ∀ s ∈ slots, s ∈ f.slots)
    (hsize : t.size ≤ t'.size) (hf : ∀ s ∈ f.slots, s ∈ slots → t'.node s = m.apply (t.node s))
    (hother : ∀ s, s ∉ slots → t'.node s = t.node s) : Stage o f site (cs ++ [.mark slots m]) t' where
  frame := h.frame.mark slots m
  stands := h.stands.mark h.frame.new (fun s hs => h.frame.old s (hslots s hs)) hsize hf hother
  size := Nat.le_trans h.size hsize
  outside := h.outside.trans slots (fun s hs => .inl (hslots s hs)) hother

theorem mark_one (h : Stage o f site cs t) {s : Slot} (hs : s ∈ f.slots) (m : Mark) :
    Stage o f site (cs ++ [.mark [s] m]) (t.modify s m.apply) := by
  refine h.mark (by simpa using hs) (by simp) (fun u _ hu => ?_) fun u hu => node_modify_ne (by simpa using hu)
  obtain rfl : u = s := by simpa using hu
  exact node_modify_self (Nat.lt_of_lt_of_le (h.frame.old u hs) h.size)

theorem subtree (h : Stage o f site cs t) {e : Entry} (hm : Quiet f site e b) :
    ∃ q?, t.Holds q? ((tree e b).map (.marked cs)) ∧ (tree e b).slots.Nodup ∧ (tree e b).members.length ≤ t.size := by
  obtain ⟨⟨q?, hholds⟩, hsub⟩ := h.stands.holds.edited_subtree hm.mem
  have hquiet := fun s hs => h.frame.quiet s (hm.quiet s hs)
  have htree : tree (e.marked cs) (b.edited cs ++ trees (.last e.slot) cs) = (tree e b).map (.marked cs) := by
    rw [edited_of_quiet fun s hs => hquiet s (by simp [hs]), (hquiet e.slot (by simp)).2, append_nil]
    rfl
  rw [htree] at hholds hsub
  rw [slots_marked] at hsub
  refine ⟨q?, hholds, hsub.nodup h.stands.nodup, ?_⟩
  rw [← length_slots]
  exact Nat.le_trans hsub.length_le (by simpa using h.stands.length_le)

theorem remove (h : Stage o f site cs t) {e : Entry} (hm : Quiet f site e b) :
    Stage o f site (cs ++ [.mark (tree e b).slots .removed]) (t.setStatus e.slot .removed) := by
  obtain ⟨q?, hholds, -, hlen⟩ := h.subtree hm
  have hsubtree : t.subtree e.slot = (tree e b).slots := by
    rw [← slots_marked cs]
    exact subtree_eq_slots (e := e.marked cs) hholds (by simpa using hlen)
  have hnode := fun u => node_foldl_modify ({ · with status := .removed }) (fun _ => rfl) u (tree e b).slots t
  have heq : t.setStatus e.slot .removed =
      (tree e b).slots.foldl (fun t u => t.modify u ({ · with status := .removed })) t := by
    rw [setStatus, ← hsubtree]
  refine h.mark (slots_subset hm.mem) (Nat.le_of_eq (by rw [heq, size_foldl_modify]))
    (fun s hs hmem => ?_) fun s hmem => ?_
  · rw [heq, hnode, if_pos ⟨hmem, Nat.lt_of_lt_of_le (h.frame.old s hs) h.size⟩]
    rfl
  · rw [heq, hnode, if_neg fun hs => hmem hs.1]

end Stage

/-! ## Copies -/

theorem Beside.modify (h : Beside o f site cs t x k) (change : Node → Node)
    (hc : ∀ children p?, change (x.linked children p?) = (⟨x.slot, change x.node⟩ : Entry).linked children p?) :
    Beside o f site cs (t.modify x.slot change) ⟨x.slot, change x.node⟩ k := by
  have hs := Stands.modify_root (g := .nil) change (by simpa using h.stands) hc
  refine ⟨h.frame, by simpa using hs, by simpa using h.fresh, by simpa using h.size, ?_⟩
  exact h.outside.trans [x.slot] (fun s hs => .inr (h.fresh s (by simp_all)))
    fun s hs => node_modify_ne (by simpa using hs)

/-- The copy of an operation stands beside the rest, and is a copy whatever is then asked for around it. -/
theorem Stage.spliceIn (h : Stage o f site cs t) {op : Entry} (hop : Quiet f site op b) :
    ∃ c k, Beside o f site cs (Firing.spliceIn t op.slot).2
      (.added (Firing.spliceIn t op.slot).1 c op.node.span {} none) k ∧ ∀ actions lead?,
        Splice op b actions lead? (tree (.added (Firing.spliceIn t op.slot).1 c op.node.span actions lead?) k) := by
  obtain ⟨q?, hholds, hnd, hlen⟩ := h.subtree hop
  have hcopy := Stands.copy hholds (by rwa [← slots_marked cs] at hnd) (by simpa using hlen)
  have hold : (t.copy op.slot).2.Stands none 0 (f.edited cs) :=
    h.stands.congr (by rw [size_copy]; omega) fun s hs => node_copy_old (h.stands.bound s hs).2
  have hboth := hold.append t.size hcopy (Nat.zero_le _) fun s hs => (h.stands.bound s hs).2
  have hform : tree (op.marked cs) (b.map (.marked cs)) = (tree op b).map (.marked cs) := rfl
  rw [hform, slots_marked, copied_marked] at hcopy hboth
  have hslot : Slot.renamed t.size (tree op b).slots op.slot = (t.copy op.slot).1 := by
    simp [Slot.renamed, List.idxOf?_cons, copy_eq]
  have hbeside : Beside o f site cs (t.copy op.slot).2 (.copied (.renamed t.size (tree op b).slots) op)
      (b.map (.copied (.renamed t.size (tree op b).slots))) := by
    refine ⟨h.frame, hboth, fun s hs => Nat.le_trans h.size (hcopy.bound s hs).1,
      by rw [size_copy]; exact Nat.le_add_right_of_le h.size, fun s hs hf => ?_⟩
    rw [node_copy_old (Nat.lt_of_lt_of_le hs h.size), h.outside s hs hf]
  have hadded : Beside o f site cs _ (.added (.renamed t.size (tree op b).slots op.slot) _ op.node.span {} none) _ :=
    hbeside.modify ({ · with status := .added }) fun _ _ => rfl
  rw [show (Entry.copied (.renamed t.size (tree op b).slots) op).slot = _ from hslot, hslot] at hadded
  refine ⟨_, _, hadded, fun actions lead? => ?_⟩
  have hsplice : Splice op b actions lead? _ := .mk t.size
  rw [hslot] at hsplice
  exact hsplice

/-! ## Edits -/

theorem Frame.slots (h : Frame n f site cs) {s : Slot} (hs : s ∈ (f.edited cs).slots) : s ∈ f.slots ∨ n ≤ s.index :=
  (mem_slots_of_edited hs).imp_right fun ⟨place, hp⟩ => h.new place s hp

theorem Beside.putLast (h : Beside o f site cs t x k) {host : Slot} (hs : site host)
    (hh : host ∈ f.slots) : Stage o f site (cs ++ [.put (.last host) (tree x k)]) (t.attach host x.slot) where
  frame := h.frame.put (.last host) hs h.fresh
  stands := h.stands.putLast h.frame.nodup hh
  size := by rw [size_attach]; exact h.size
  outside := h.outside.trans [host, x.slot]
    (by simpa using ⟨.inl hh, .inr (h.fresh x.slot (by simp))⟩)
    fun s hs => by
      simp only [List.mem_cons, List.not_mem_nil, or_false, not_or] at hs
      exact node_attach_ne hs.1 hs.2

theorem Beside.placeBefore (h : Beside o f site cs t x k) {anchor : Slot}
    (hs : site anchor) (ha : anchor ∈ f.slots) (hr : anchor ∉ f.rootSlots) (orphan : String) :
    Stage o f site (cs ++ [.put (.before anchor) (tree x k)]) (placeBefore t anchor x.slot orphan).1 := by
  obtain ⟨q, hq, hmem, hput⟩ := h.stands.putBefore h.frame.nodup ha hr
  rw [Firing.placeBefore, hq]
  refine ⟨h.frame.put (.before anchor) hs h.fresh, hput, by simpa [Tree.insertBefore] using h.size, ?_⟩
  refine h.outside.trans [q, x.slot] (by simpa using ⟨h.frame.slots hmem, .inr (h.fresh x.slot (by simp))⟩) ?_
  intro s hs
  simp only [List.mem_cons, List.not_mem_nil, or_false, not_or] at hs
  simp only [Tree.insertBefore]
  rw [node_modify_ne hs.1, node_modify_ne hs.2]

theorem Stage.apply (h : Stage o f site cs t) {edit : Edit} (hf : Fits f site edit) :
    ∃ ds, Makes f edit ds ∧ Stage o f site (cs ++ ds) (edit.apply t).1 := by
  cases hf with
  | remove hm => exact ⟨_, .remove hm.mem, h.remove hm⟩
  | append hs hh hop =>
    obtain ⟨c, k, hb, hk⟩ := h.spliceIn hop
    exact ⟨_, .append _ hop.mem (hk {} none), hb.putLast hs hh⟩
  | @insertBefore anchor op _ hs ha hr hop brace =>
    obtain ⟨c, k, hb, hk⟩ := h.spliceIn hop
    refine ⟨_, .insertBefore _ hop.mem (hk { braceBefore := brace } none), ?_⟩
    cases brace with
    | false => exact hb.placeBefore hs ha hr "jump"
    | true =>
      have hbrace := hb.modify (fun n => { n with actions := n.actions.union { braceBefore := true } }) fun _ _ => rfl
      exact hbrace.placeBefore hs ha hr "jump"
  | @bindValue ret value _ hs ha hr hop type =>
    obtain ⟨c, k, hb, hk⟩ := h.spliceIn hop
    refine ⟨_, .bindValue _ hop.mem (hk { braceBefore := true } (some (declares type))), ?_⟩
    have hbrace := hb.modify (fun n => { n with actions := n.actions.union { braceBefore := true } }) fun _ _ => rfl
    have hlead := hbrace.modify ({ · with lead? := some (declares type) }) fun _ _ => rfl
    have hput := hlead.placeBefore hs ha hr "return"
    have hmark := hput.mark_one (subtree_slot hop.mem) (.replaced storedValue)
    rw [List.append_assoc] at hmark
    simp only [Edit.apply]
    exact hmark
  | @closeBrace anchor ha =>
    have hi : anchor.index < t.size := Nat.lt_of_lt_of_le (h.frame.old anchor ha) h.size
    refine ⟨_, .closeBrace _, h.mark (by simpa using ha) (by simp [Edit.apply, setStatus, addActions]) ?_ ?_⟩
    · intro s _ hs
      obtain rfl : s = anchor := by simpa using hs
      simp only [Edit.apply, setStatus, addActions]
      rw [node_modify_self (by simpa using hi), node_modify_self hi]
      rfl
    · intro s hs
      have hne : s ≠ anchor := by simpa using hs
      simp only [Edit.apply, setStatus, addActions]
      rw [node_modify_ne hne, node_modify_ne hne]

theorem Stage.applyAll {edits : List Edit} (h : Stage o f site cs t) (hf : ∀ e ∈ edits, Fits f site e) :
    ∃ dss, List.Forall₂ (Makes f) edits dss ∧ Stage o f site (cs ++ dss.flatten) (applyAll t edits).1 := by
  induction edits generalizing cs t with
  | nil => exact ⟨[], .nil, by simpa [Firing.applyAll] using h⟩
  | cons e es ih =>
    obtain ⟨ds, hmakes, hstage⟩ := h.apply (hf e List.mem_cons_self)
    obtain ⟨dss, hrest, hend⟩ := ih hstage fun e he => hf e (List.mem_cons_of_mem _ he)
    refine ⟨ds :: dss, .cons hmakes hrest, ?_⟩
    rw [List.flatten_cons, ← List.append_assoc]
    exact hend

end Firing

end Deferral
