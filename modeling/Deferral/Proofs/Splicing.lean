import Deferral.Proofs.Resolving

/-!
# Parents and children after edits

Making the edits of a plan keeps parents and children in agreement: a copy stands by itself until it is put in its place
(`Tree.Owned.copy`), and no edit takes a node from its parent (`Firing.Tidy.applyAll`).
-/

namespace Deferral

open List

variable {change : Node → Node}

namespace Tree

open Forest

variable {t t' : Tree} {p? : Option Slot} {f : Forest Entry} {s u p c anchor : Slot}

/-! ## Held forests -/

theorem Holds.child : ∀ {f : Forest Entry} {p? : Option Slot}, t.Holds p? f → s ∈ f.slots → c ∈ t.children s →
    c ∈ f.slots ∧ t.parent? c = some s
  | .node e b r, _, h, hs, hc => by
    simp only [slots_node, mem_cons, mem_append] at hs ⊢
    rcases hs with rfl | hs | hs
    · rw [h.children_eq] at hc
      exact ⟨.inr (.inl (rootSlots_subset hc)), h.2.1.parent_root hc⟩
    · exact (h.2.1.child hs hc).imp_left fun hm => .inr (.inl hm)
    · exact (h.2.2.child hs hc).imp_left fun hm => .inr (.inr hm)

theorem Holds.parent : ∀ {f : Forest Entry} {p? : Option Slot}, t.Holds p? f → s ∈ f.slots → t.parent? s = some p →
    p? = some p ∧ s ∈ f.rootSlots ∨ s ∈ t.children p
  | .node e b r, _, h, hs, hp => by
    simp only [slots_node, mem_cons, mem_append] at hs
    rcases hs with rfl | hs | hs
    · exact .inl ⟨h.parent?_eq.symm.trans hp, by simp⟩
    · rcases h.2.1.parent hs hp with ⟨he, hroot⟩ | hc
      · cases he
        rw [h.children_eq]
        exact .inr hroot
      · exact .inr hc
    · exact (h.2.2.parent hs hp).imp_left (And.imp_right fun hroot => mem_cons_of_mem _ hroot)

theorem Holds.nodup_children : ∀ {f : Forest Entry} {p? : Option Slot}, t.Holds p? f → f.slots.Nodup → s ∈ f.slots →
    (t.children s).Nodup
  | .node e b r, _, h, hnd, hs => by
    simp only [slots_node, mem_cons, mem_append, nodup_cons, nodup_append] at hs hnd
    rcases hs with rfl | hs | hs
    · rw [h.children_eq]
      exact (List.Sublist.map _ (roots_sublist b)).nodup hnd.2.1
    · exact h.2.1.nodup_children hnd.2.1 hs
    · exact h.2.2.nodup_children hnd.2.2.1 hs

theorem Holds.ends : ∀ {f : Forest Entry} {p? : Option Slot}, t.Holds p? f → (∀ p, p? = some p → t.Ends p) →
    s ∈ f.slots → t.Ends s
  | .node e b r, p?, h, hp, hs => by
    have he : t.Ends e.slot := by
      cases p? with
      | none => exact .top h.parent?_eq
      | some p => exact .up h.parent?_eq (hp p rfl)
    simp only [slots_node, mem_cons, mem_append] at hs
    rcases hs with rfl | hs | hs
    · exact he
    · exact h.2.1.ends (fun p hp => Option.some.inj hp ▸ he) hs
    · exact h.2.2.ends hp hs

/-! ## Copies -/

namespace Owned

theorem parent_lt (h : t.Owned) (hp : t.parent? s = some p) : p.index < t.size := by
  by_contra hlt
  rcases h.parent hp with hm | hm
  · simp [children_eq_nil hlt] at hm
  · simp [Tree.construct, node_eq_default hlt, Construct.params, default] at hm

theorem beside (h : t.Owned) (hold : ∀ u : Slot, u.index < t.size → t'.node u = t.node u)
    (hf : t'.Stands none t.size f) (hall : ∀ u : Slot, t.size ≤ u.index → u.index < t'.size → u ∈ f.slots)
    (hsize : t.size ≤ t'.size) : t'.Owned := by
  have hcases : ∀ u : Slot, u.index < t.size ∨ u ∈ f.slots ∨ ¬u.index < t'.size := fun u => by
    by_cases hu : u.index < t.size
    · exact .inl hu
    · by_cases hu' : u.index < t'.size
      · exact .inr (.inl (hall u (Nat.le_of_not_lt hu) hu'))
      · exact .inr (.inr hu')
  have hparent : ∀ {u : Slot}, u.index < t.size → t'.parent? u = t.parent? u :=
    fun hu => congrArg Node.parent? (hold _ hu)
  refine ⟨fun {p c} hc => ?_, fun p => ?_, fun {c p} hp => ?_, fun s => ?_⟩
  · rcases hcases p with hp | hp | hp
    · rw [children, hold p hp] at hc
      obtain ⟨hlt, hcp⟩ := h.child hc
      exact ⟨hlt.trans_le hsize, (hparent hlt).trans hcp⟩
    · obtain ⟨hm, hcp⟩ := hf.holds.child hp hc
      exact ⟨(hf.bound c hm).2, hcp⟩
    · simp [children_eq_nil hp] at hc
  · rcases hcases p with hp | hp | hp
    · rw [children, hold p hp]
      exact h.nodup p
    · exact hf.holds.nodup_children hf.nodup hp
    · rw [children_eq_nil hp]
      exact nodup_nil
  · rcases hcases c with hc | hc | hc
    · rw [hparent hc] at hp
      rw [children, Tree.construct, hold p (h.parent_lt hp)]
      exact h.parent hp
    · exact .inl ((hf.holds.parent hc hp).resolve_left fun he => by cases he.1)
    · simp [parent?_eq_none hc] at hp
  · rcases hcases s with hs | hs | hs
    · refine (h.ends s).congr fun v hv => hparent ?_
      induction hv with
      | refl => exact hs
      | tail _ hp _ => exact h.parent_lt hp
    · exact hf.holds.ends (by simp) hs
    · exact .top (parent?_eq_none hs)

theorem copy {e : Entry} {b : Forest Entry} (h : t.Owned) (hh : t.Holds p? (tree e b)) (hnd : (tree e b).slots.Nodup)
    (hn : (tree e b).members.length ≤ t.size) : (t.copy e.slot).2.Owned := by
  have hsub := subtree_eq_slots hh hn
  refine h.beside (fun u hu => node_copy_old hu) (Stands.copy hh hnd hn) (fun u hlo hhi => ?_)
    (by rw [size_copy]; omega)
  rw [slots_copied, Slot.map_renamed hnd]
  rw [size_copy, hsub] at hhi
  exact mem_map.2 ⟨u.index - t.size, mem_range.2 (by omega), by simp [Nat.add_sub_cancel' hlo]⟩

end Owned

theorem find?_slots (l : List Slot) (n : Nat) :
    ((l.map fun u => (u.index, u)).find? (·.1 == n)).map (·.2) = if ⟨n⟩ ∈ l then some ⟨n⟩ else none := by
  induction l with
  | nil => rfl
  | cons u l ih =>
    by_cases hu : u.index = n
    · simp [← hu]
    · have hne : (⟨n⟩ : Slot) ≠ u := fun he => hu (he ▸ rfl)
      simpa [hu, hne] using ih

theorem Indexed.copy {gone : List Slot} (h : t.Indexed gone) (hnd : (t.subtree s).Nodup) :
    (t.copy s).2.Indexed gone := by
  -- The slots of the copy are the next ones.
  have hnew : ∀ u : Slot, u ∈ (t.subtree s).map (Slot.renamed t.size (t.subtree s)) ↔
      t.size ≤ u.index ∧ u.index < (t.copy s).2.size := fun u => by
    rw [Slot.map_renamed hnd, size_copy, mem_map]
    refine ⟨fun ⟨i, hi, he⟩ => ?_, fun ⟨hlo, hhi⟩ => ⟨u.index - t.size, mem_range.2 (by omega), ?_⟩⟩
    · have := mem_range.1 hi
      simp [← he]
      omega
    · simp [Nat.add_sub_cancel' hlo]
  refine ⟨fun u hu => ?_, fun u hu => ?_, fun u hu => ?_⟩
  · have := h.old u hu
    rw [size_copy]
    omega
  · by_cases hlt : u.index < t.size
    · rw [node_copy_old hlt, h.id u hlt]
    · obtain ⟨v, hv, rfl⟩ := mem_map.1 ((hnew u).2 ⟨Nat.le_of_not_lt hlt, hu⟩)
      rw [node_copy_new hnd hv]
      rfl
  · have hfind : (t.copy s).2.find? u.index =
        ((if u ∈ (t.subtree s).map (Slot.renamed t.size (t.subtree s)) then some u else none).or
          (t.find? u.index)) := by
      rw [← find?_slots]
      simp [find?, copy_eq, Function.comp_def, Option.map_or]
    rw [hfind]
    by_cases hlt : u.index < t.size
    · rw [if_neg fun hm => Nat.not_le_of_lt hlt ((hnew u).1 hm).1, Option.none_or, h.find u hlt]
    · rw [if_pos ((hnew u).2 ⟨Nat.le_of_not_lt hlt, hu⟩), if_neg fun hg => hlt (h.old u hg)]
      rfl

theorem parent?_insertBefore (hc : c.index < t.size) :
    (t.insertBefore p anchor c).parent? u = if u = c then some p else t.parent? u := by
  rw [insertBefore, ← parent?_tie (p := p) hc, parent?, node_modify]
  split <;> rfl

theorem construct_insertBefore : (t.insertBefore p anchor c).construct u = t.construct u := by
  rw [insertBefore, Tree.construct, node_modify, node_modify]
  split <;> split <;> rfl

theorem children_insertBefore_ne (h : u ≠ p) : (t.insertBefore p anchor c).children u = t.children u := by
  rw [insertBefore, children, node_modify_ne h, node_modify]
  split <;> rfl

theorem children_insertBefore_perm (h : p.index < t.size) :
    ((t.insertBefore p anchor c).children p).Perm (c :: t.children p) := by
  have hsame : ((t.modify c ({ · with parent? := some p })).node p).children = t.children p := by
    rw [node_modify]
    split <;> rfl
  rw [insertBefore, children, node_modify_self (by rwa [size_modify])]
  dsimp only
  rw [hsame]
  refine perm_middle.trans (List.Perm.cons c ?_)
  rw [Firing.Plan.drop_takeWhile, takeWhile_append_dropWhile]

end Tree

namespace Firing

open Tree Forest

variable {o t t' : Tree} {gone : List Slot} {f : Forest Entry} {site : Slot → Prop} {cs : List Change} {n : Nat}
  {host anchor : Slot}

/-! ## Edits -/

/-- Parents and children agree, the source file is on top, and all nodes but those in `gone` are found. -/
structure Tidy (gone : List Slot) (t : Tree) : Prop where
  owned : t.Owned
  root : t.parent? .root = none
  indexed : t.Indexed gone

/-- A change of what nodes say, but not of how they hang together. -/
def Superficial (change : Node → Node) : Prop := ∀ n : Node, (change n).construct = n.construct ∧
  (change n).children = n.children ∧ (change n).parent? = n.parent? ∧ (change n).id = n.id

theorem Superficial.node (h : Superficial change) (t : Tree) (s u : Slot) :
    (t.modify s change).construct u = t.construct u ∧ (t.modify s change).children u = t.children u ∧
      (t.modify s change).parent? u = t.parent? u := by
  simp only [Tree.construct, children, parent?, node_modify]
  split
  · exact ⟨(h _).1, (h _).2.1, (h _).2.2.1⟩
  · exact ⟨rfl, rfl, rfl⟩

theorem Tidy.modify (h : Tidy gone t) (hc : Superficial change) (s : Slot) : Tidy gone (t.modify s change) where
  owned := h.owned.congr (by simp) (fun u => (hc.node t s u).2.1) (fun u => (hc.node t s u).2.2) fun _ hm => by
    rwa [(hc.node t s _).1]
  root := (hc.node t s .root).2.2.trans h.root
  indexed := h.indexed.modify (fun n => (hc n).2.2.2) s

theorem Tidy.modifyAll (hc : Superficial change) : ∀ (ss : List Slot) {t : Tree}, Tidy gone t →
    Tidy gone (ss.foldl (fun t u => t.modify u change) t)
  | [], _, h => h
  | s :: ss, _, h => Tidy.modifyAll hc ss (h.modify hc s)

theorem superficial_removed : Superficial ({ · with status := .removed }) := fun _ => ⟨rfl, rfl, rfl, rfl⟩

theorem superficial_added : Superficial ({ · with status := .added }) := fun _ => ⟨rfl, rfl, rfl, rfl⟩

theorem root_ne (hn : 0 < n) : Slot.root ≠ ⟨n⟩ := fun he => hn.ne (congrArg Slot.index he)

/-- A tree with a node in slot `n` that is new and has no parent yet. -/
structure Sprout (gone : List Slot) (n : Nat) (t : Tree) : Prop where
  tidy : Tidy gone t
  lt : n < t.size
  loose : t.parent? ⟨n⟩ = none
  /-- The parents of older nodes are older. -/
  older : ∀ {s p : Slot}, s.index < n → t.parent? s = some p → p.index < n

namespace Sprout

theorem modify (h : Sprout gone n t) (hc : Superficial change) (s : Slot) :
    Sprout gone n (t.modify s change) where
  tidy := h.tidy.modify hc s
  lt := by simpa using h.lt
  loose := (hc.node t s _).2.2.trans h.loose
  older hs hp := h.older hs ((hc.node t s _).2.2.symm.trans hp)

theorem not_leads (h : Sprout gone n t) {p : Slot} (hp : p.index < n) : ¬t.Leads p ⟨n⟩ := by
  intro hl
  have hlt : ∀ {u}, t.Leads p u → u.index < n := fun hu => by
    induction hu with
    | refl => exact hp
    | tail _ hq ih => exact h.older ih hq
  exact Nat.lt_irrefl n (hlt hl)

theorem attach (h : Sprout gone n t) (hhost : host.index < n) : Tidy gone (t.attach host ⟨n⟩) where
  owned := h.tidy.owned.attach (hhost.trans h.lt) h.lt h.loose (h.not_leads hhost)
  root := by
    rw [parent?_attach h.lt, if_neg (root_ne (Nat.zero_lt_of_lt hhost))]
    exact h.tidy.root
  indexed := h.tidy.indexed.attach host ⟨n⟩

theorem placeBefore (h : Sprout gone n t) (ha : anchor.index < n) (orphan : String) :
    Tidy gone (placeBefore t anchor ⟨n⟩ orphan).1 := by
  unfold Firing.placeBefore
  split
  case h_2 => exact h.tidy
  case h_1 p hp =>
    have hp' : p.index < n := h.older ha hp
    have hparent : ∀ u, (t.insertBefore p anchor ⟨n⟩).parent? u = _ := fun u => parent?_insertBefore h.lt
    refine ⟨h.tidy.owned.link h.lt h.loose (h.not_leads hp') (by simp [insertBefore]) (fun _ => construct_insertBefore)
      hparent (fun _ hu => children_insertBefore_ne hu) (children_insertBefore_perm (hp'.trans h.lt)), ?_,
      (h.tidy.indexed.modify (fun _ => by rfl) _).modify (fun _ => by rfl) _⟩
    rw [hparent, if_neg (root_ne (Nat.zero_lt_of_lt ha))]
    exact h.tidy.root

end Sprout

theorem Tidy.spliceIn (h : Tidy gone t) (hs : Stage o f site cs t) {op : Entry} {b : Forest Entry}
    (hop : Quiet f site op b) :
    Sprout gone t.size (spliceIn t op.slot).2 := by
  obtain ⟨q?, hholds, hnd, hlen⟩ := hs.subtree hop
  have hlen' : ((tree op b).map (Entry.marked cs)).members.length ≤ t.size := by simpa using hlen
  rw [← slots_marked cs] at hnd
  have hpos : 0 < t.size := Nat.lt_of_lt_of_le (by simp [tree]) hlen
  have hold : ∀ {u : Slot}, u.index < t.size → (t.copy op.slot).2.parent? u = t.parent? u := fun hu =>
    congrArg Node.parent? (node_copy_old hu)
  have hlone := (Stands.copy (e := op.marked cs) hholds hnd hlen').holds.parent?_eq
  have hsprout : Sprout gone t.size (t.copy op.slot).2 := by
    have hsub : t.subtree op.slot = _ := subtree_eq_slots (e := op.marked cs) hholds hlen'
    refine ⟨⟨h.owned.copy (e := op.marked cs) hholds hnd hlen', (hold hpos).trans h.root, h.indexed.copy (hsub ▸ hnd)⟩,
      ?_, ?_, fun hu hp => h.owned.parent_lt ((hold hu).symm.trans hp)⟩
    · rw [size_copy, hsub]
      simp
    · have hslot : Slot.renamed t.size ((tree op b).map (Entry.marked cs)).slots op.slot = ⟨t.size⟩ := by
        simp [slots_marked, Slot.renamed, idxOf?_cons]
      rw [← hslot]
      exact hlone
  exact hsprout.modify superficial_added _

theorem Tidy.apply (h : Tidy gone t) (hs : Stage o f site cs t) {edit : Edit} (hf : Fits f site edit) :
    Tidy gone (edit.apply t).1 := by
  have hold : ∀ {s : Slot}, s ∈ f.slots → s.index < t.size := fun hm => (hs.frame.old _ hm).trans_le hs.size
  have hactions : ∀ a : Actions, Superficial fun n => { n with actions := n.actions.union a } := fun _ _ =>
    ⟨rfl, rfl, rfl, rfl⟩
  cases hf with
  | remove hm => exact Tidy.modifyAll superficial_removed _ h
  | append _ hh hop => exact (h.spliceIn hs hop).attach (hold hh)
  | insertBefore _ ha _ hop brace =>
    cases brace with
    | false => exact (h.spliceIn hs hop).placeBefore (hold ha) "jump"
    | true => exact ((h.spliceIn hs hop).modify (hactions _) _).placeBefore (hold ha) "jump"
  | bindValue _ ha _ hop type =>
    have hlead : Superficial ({ · with lead? := some (declares type) }) := fun _ => ⟨rfl, rfl, rfl, rfl⟩
    have hput :=
      (((h.spliceIn hs hop).modify (hactions { braceBefore := true }) ⟨t.size⟩).modify hlead ⟨t.size⟩).placeBefore
      (hold ha) "return"
    have htext : Superficial ({ · with replacement? := some storedValue, status := .modified }) := fun _ =>
      ⟨rfl, rfl, rfl, rfl⟩
    simp only [Edit.apply]
    exact hput.modify htext _
  | closeBrace ha =>
    have hstatus : Superficial ({ · with status := .modified }) := fun _ => ⟨rfl, rfl, rfl, rfl⟩
    exact (h.modify hstatus _).modify (hactions _) _

theorem Tidy.applyAll {edits : List Edit} (h : Tidy gone t) (hs : Stage o f site cs t)
    (hf : ∀ e ∈ edits, Fits f site e) :
    Tidy gone (applyAll t edits).1 := by
  induction edits generalizing cs t with
  | nil => exact h
  | cons e es ih =>
    obtain ⟨ds, -, hs'⟩ := hs.apply (hf e mem_cons_self)
    exact ih (h.apply hs (hf e mem_cons_self)) hs' fun e he => hf e (mem_cons_of_mem _ he)

end Firing

open Firing in
/-- Resolving the tree of a source keeps parents and children in agreement. -/
theorem Tree.Built.tidy {t : Tree} {source : List UInt8} {path : Path} {tokens : List Token} {f : Forest Entry}
    (h : t.Built source path tokens f) (ho : t.Owned) (hr : t.parent? .root = none) {gone : List Slot}
    (hi : t.Indexed gone) : Tidy gone (resolve t).tree :=
  Tidy.applyAll ⟨ho, hr, hi⟩ (stage_start h) (fits_plan h)

end Deferral
