import Deferral.Proofs.Covering
import Deferral.Proofs.Surroundings

/-!
# What resolving does to a tree

Where deferred statements stand in scopes, resolving does nothing but this (`Firing.Effect`): they are marked as
removed, copies of their operations stand at the end of their scopes and before the jumps that leave them, a value that
has to be stored stands before those, and its own text is replaced. Which copies stand where is said in terms of the
tree that is resolved (`Firing.copiesBefore`, `Firing.copiesAtEnd`), and each of them repeats its original node by node
(`Firing.Ordered.Filled`).
-/

namespace Deferral

open List hiding append_assoc nil_append

namespace Firing

open Forest

/-! ## Copies -/

/-- A copy that is to be put somewhere, perhaps after a text and after a brace. -/
structure Ordered where
  source : Slot
  lead? : Option String := none
  brace : Bool := false

/-- `c` is the ordered copy: new nodes in `r` that repeat those below the source in `t`. -/
def Ordered.Filled (t r : Tree) (o : Ordered) (c : Slot) : Prop :=
  ∃ rename : Slot → Slot, rename o.source = c ∧
    (∀ u ∈ t.subtree o.source, ∀ v ∈ t.subtree o.source, rename u = rename v → u = v) ∧
    ∀ u ∈ t.subtree o.source, rename u ∉ t.reachable ∧ r.node (rename u) = {
      construct := (t.construct u).mapSlots rename
      span := t.span u
      status := if u = o.source then .added else .clean
      children := (t.children u).map rename
      parent? := r.parent? (rename u)
      actions := { braceBefore := u = o.source ∧ o.brace }
      lead? := if u = o.source then o.lead? else none
      id := (rename u).index }

/-- Opens a brace before the first of several copies. -/
def openBrace (brace : Bool) : List Ordered → List Ordered
  | [] => []
  | o :: os => { o with brace } :: os

/-- Copies of the operations of deferred statements. -/
def operations (t : Tree) (ss : List Slot) : List Ordered := ss.map fun s => { source := operation t s }

@[simp] theorem openBrace_false (t : Tree) (ss : List Slot) : openBrace false (operations t ss) = operations t ss := by
  cases ss <;> rfl

/-! ## Where copies stand -/

/-- Whether a jump and what stands before it are put in braces: a value is stored there, or the jump stands alone. -/
def bracedAt (t : Tree) (s : Slot) : Bool :=
  (exit? (t.construct s)).any fun exit => !(owedAt t s exit).isEmpty &&
    ((bindingAt? t s exit).isSome || (t.parent? s).any fun p => !(t.construct p).braced)

/-- Whether a node is a value that is stored before the `return` it belongs to. -/
def storedAt (t : Tree) (s : Slot) : Bool :=
  (t.parent? s).any fun jump => (exit? (t.construct jump)).any fun exit => (bindingAt? t jump exit).any (·.1 = s)

/-- What stands before a node: before a jump the stored value and what it owes, before other nodes nothing. -/
def copiesBefore (t : Tree) (s : Slot) : List Ordered :=
  match exit? (t.construct s) with
  | none => []
  | some exit => openBrace (bracedAt t s) (
      ((bindingAt? t s exit).toList.map fun (value, type) => { source := value, lead? := some (declares type) }) ++
        operations t (owedAt t s exit))

/-- What stands at the end of a node. -/
def copiesAtEnd (t : Tree) (s : Slot) : List Ordered := operations t (endingAt t s)

/-- The children of a node in `t` with copies in between, and the `ending` last. -/
def Woven (t r : Tree) (ending : List Ordered) : (children after : List Slot) → Prop
  | [], after => List.Forall₂ (Ordered.Filled t r) ending after
  | c :: cs, after => ∃ before rest, after = before ++ c :: rest ∧
      List.Forall₂ (Ordered.Filled t r) (copiesBefore t c) before ∧ Woven t r ending cs rest

/-- A node that stays, with its new children. -/
def keptNode (t : Tree) (s : Slot) (children : List Slot) : Node :=
  { t.node s with
    children
    status := if storedAt t s || bracedAt t s then .modified else .clean
    replacement? := if storedAt t s then some storedValue else none
    actions := { braceAfter := bracedAt t s } }

/-- What becomes of a node that is below no deferred statement. -/
structure Changed (t r : Tree) (s : Slot) : Prop where
  removed : t.tag s = .deferred → ∀ u ∈ t.subtree s, r.node u = { t.node u with status := .removed }
  kept : t.tag s ≠ .deferred → r.node s = keptNode t s (r.children s)
  woven : t.tag s ≠ .deferred → Woven t r (copiesAtEnd t s) (t.children s) (r.children s)

variable {t r : Tree} {whole f f' g : Forest Entry} {d : Nat} {scopes armed armed' : List Placed} {p? q? : Option Slot}

/-! ## Filled orders -/

theorem subtrees_map {α β : Type} (m : α → β) {a : α} {b : Forest α} : ∀ {f : Forest α}, (a, b) ∈ f.subtrees →
    (m a, b.map m) ∈ (f.map m).subtrees
  | .node x k r, h => by
    rcases mem_cons.1 h with heq | h
    · cases heq
      exact mem_cons_self
    · refine mem_cons_of_mem _ (mem_append.2 ?_)
      exact (mem_append.1 h).imp (subtrees_map m) (subtrees_map m)

theorem filled_of_splice {op : Entry} {b : Forest Entry} {brace : Bool} {lead? : Option String}
    (hg : Splice op b { braceBefore := brace } lead? g) (ht : t.Holds q? (tree op b)) (hn : (tree op b).slots.Nodup)
    (hsize : (tree op b).members.length ≤ t.size) (hr : r.Holds p? g) (hnew : ∀ s ∈ g.slots, s ∉ t.reachable) :
    List.Forall₂ (Ordered.Filled t r) [⟨op.slot, lead?, brace⟩] g.rootSlots := by
  obtain ⟨n⟩ := hg
  have hsub : t.subtree op.slot = (tree op b).slots := Tree.subtree_eq_slots ht hsize
  have hinj : ∀ u ∈ t.subtree op.slot, ∀ v ∈ t.subtree op.slot, Slot.renamed n (tree op b).slots u =
      Slot.renamed n (tree op b).slots v → u = v := by
    rw [hsub]
    refine inj_on_of_nodup_map ?_
    rw [Slot.map_renamed hn]
    exact nodup_range.map fun i j hij => by simpa using hij
  have hslots : ∀ u ∈ t.subtree op.slot, Slot.renamed n (tree op b).slots u ∉ t.reachable := by
    intro u hu
    refine hnew _ ?_
    rw [slots_tree, slots_copied]
    rw [hsub, slots_tree] at hu
    exact mem_map_of_mem (f := Slot.renamed n (tree op b).slots) hu
  refine .cons ⟨_, rfl, hinj, fun u hu => ⟨hslots u hu, ?_⟩⟩ .nil
  obtain ⟨hroot, hbelow⟩ := Tree.holds_tree.1 hr
  have hnd := nodup_cons.1 (slots_tree op b ▸ hn)
  rw [hsub, slots_tree, mem_cons] at hu
  rcases hu with rfl | hu
  · have hnode := (Tree.holds_tree.1 ht).1
    have hparent : r.parent? (Slot.renamed n (tree op b).slots op.slot) = p? := hr.parent?_eq
    rw [if_pos rfl, if_pos rfl, Tree.construct, Tree.span, Tree.children, hparent, hnode]
    refine hroot.trans ?_
    simp [Entry.added, Entry.linked, rootSlots, Entry.copied]
  · obtain ⟨e, k, hm, rfl⟩ := exists_subtree_slot hu
    have hne : e.slot ≠ op.slot := fun heq => hnd.1 (heq ▸ hu)
    have hnode := ((Tree.holds_tree.1 ht).2.every.of_mem hm).1
    have hcopy := (hbelow.every.of_mem (subtrees_map _ hm)).1
    rw [if_neg hne, if_neg hne, Tree.construct, Tree.span, Tree.children, hnode]
    refine hcopy.trans ?_
    simp [Entry.copied, Entry.fresh, Entry.linked, rootSlots, hne]

/-- A forest that all copies are made from. -/
structure Source (t : Tree) (whole : Forest Entry) : Prop where
  holds : ∃ p?, t.Holds p? whole
  nodup : whole.slots.Nodup
  size : whole.members.length ≤ t.size
  plain : ∀ e ∈ whole.members, e.Plain

theorem Source.filled (hw : Source t whole) {op : Entry} {b : Forest Entry} {brace : Bool} {lead? : Option String}
    (hm : (op, b) ∈ whole.subtrees) (hg : Splice op b { braceBefore := brace } lead? g) (hr : r.Holds p? g)
    (hnew : ∀ s ∈ g.slots, s ∉ t.reachable) :
    List.Forall₂ (Ordered.Filled t r) [⟨op.slot, lead?, brace⟩] g.rootSlots := by
  obtain ⟨_, hholds⟩ := hw.holds
  have hsub := members_sublist hm
  exact filled_of_splice hg (Tree.holds_tree.2 (hholds.every.of_mem hm)) ((hsub.map _).nodup hw.nodup)
    (hsub.length_le.trans hw.size) hr hnew

theorem Source.filled_copies (hw : Source t whole) {brace : Bool} {ss : List Slot} (hc : Copies t whole brace ss g)
    (hr : r.Holds p? g) (hnew : ∀ s ∈ g.slots, s ∉ t.reachable) :
    List.Forall₂ (Ordered.Filled t r) (openBrace brace (operations t ss)) g.rootSlots := by
  induction hc with
  | nil => exact .nil
  | @cons brace s ss op b g gs hm hop hg _ ih =>
    obtain ⟨hr, hrs⟩ := Tree.holds_append.1 hr
    have hfirst := hw.filled hm hg hr fun s hs => hnew s (by simp [hs])
    have hrest := ih hrs fun s hs => hnew s (by simp [hs])
    rw [openBrace_false] at hrest
    have hall := rel_append hfirst hrest
    rw [rootSlots_append]
    simpa [operations, openBrace, hop] using hall

/-! ## New slots -/

theorem Resolves.slots_subset (h : Resolves t whole d scopes armed f armed' f') : f.slots ⊆ f'.slots := by
  induction h with
  | nil => exact List.Subset.refl _
  | @deferred _ _ _ _ e b r r' _ _ ih =>
    have hb : (b.map (.mark .removed)).slots = b.slots := by simp [slots, Entry.mark, Function.comp_def]
    rw [slots_node, slots_node, hb]
    exact cons_subset_cons _ (append_subset.2 ⟨by simp, fun s hs => by simp [ih hs]⟩)
  | opens _ _ _ _ ihb ihr | passes _ _ _ _ _ ihb ihr =>
    rw [slots_node, slots_node]
    exact cons_subset_cons _ (append_subset.2 ⟨fun s hs => by simp [ihb hs], fun s hs => by simp [ihr hs]⟩)
  | @leaves _ _ _ _ _ e b _ _ _ _ _ _ _ _ ih =>
    intro s hs
    rw [slots_node, mem_cons, mem_append] at hs
    rw [slots_append, slots_node, mem_append, mem_cons, mem_append]
    refine .inr (hs.imp (fun hs => ?_) (.imp_right fun hs => ih hs))
    split <;> exact hs
  | stores _ _ _ _ _ _ ih =>
    intro s hs
    rw [slots_node, mem_cons, mem_append] at hs
    rw [slots_append, slots_append, slots_node, mem_append, mem_append, mem_cons, mem_append]
    exact .inr (.inr (hs.imp id (.imp (fun hs => by simpa [Entry.mark] using hs) fun hs => ih hs)))

/-- What was put into a forest is in slots that the tree did not reach. -/
structure New (t : Tree) (f f' : Forest Entry) : Prop where
  nodup : f'.slots.Nodup
  new : ∀ s ∈ f'.slots, s ∉ f.slots → s ∉ t.reachable

namespace New

variable {e e' : Entry} {b b' c g g' : Forest Entry}

theorem split (h : New t (.node e b g) (c ++ .node e' b' g')) (he : e'.slot = e.slot) (hb : b.slots ⊆ b'.slots)
    (hg : g.slots ⊆ g'.slots) : (∀ s ∈ c.slots, s ∉ t.reachable) ∧ New t b b' ∧ New t g g' := by
  have hn := h.nodup
  rw [slots_append, slots_node, he, nodup_append, nodup_cons, nodup_append, mem_append, not_or] at hn
  obtain ⟨-, ⟨⟨heb, heg⟩, hnb, hng, hbg⟩, hc⟩ := hn
  have hnew : ∀ s ∈ c.slots ++ (b'.slots ++ g'.slots), s ≠ e.slot → s ∉ b.slots → s ∉ g.slots → s ∉ t.reachable := by
    intro s hs hse hsb hsg
    refine h.new s ?_ (by simp [hse, hsb, hsg])
    rw [slots_append, slots_node]
    simp only [mem_append, mem_cons] at hs ⊢
    exact hs.imp_right .inr
  refine ⟨fun s hs => ?_, ⟨hnb, fun s hs hsb => ?_⟩, hng, fun s hs hsg => ?_⟩
  · exact hnew s (by simp [hs]) (fun heq => hc s hs e.slot (by simp) heq)
      (fun hm => hc s hs s (by simp [hb hm]) rfl) fun hm => hc s hs s (by simp [hg hm]) rfl
  · exact hnew s (by simp [hs]) (fun heq => heb (heq ▸ hs)) hsb fun hm => hbg s hs s (hg hm) rfl
  · exact hnew s (by simp [hs]) (fun heq => heg (heq ▸ hs)) (fun hm => hbg s (hb hm) s hs rfl) hsg

theorem append (h : New t f (f' ++ c)) (hf : f.slots ⊆ f'.slots) : New t f f' ∧ ∀ s ∈ c.slots, s ∉ t.reachable := by
  have hn := h.nodup
  rw [slots_append, nodup_append] at hn
  obtain ⟨hnf, -, hfc⟩ := hn
  refine ⟨⟨hnf, fun s hs => h.new s (by simp [hs])⟩, fun s hs => h.new s (by simp [hs]) fun hm => ?_⟩
  exact hfc s (hf hm) s hs rfl

end New

/-! ## Nodes that stay -/

section Kept

variable {e e' : Entry} {b g g' : Forest Entry} {s p : Slot} {exit : Exit}

theorem exit?_of_opens (h : opens (t.tag s) = true) : exit? (t.construct s) = none := by
  by_contra hx
  simp [(exit?_passes (Option.isSome_iff_ne_none.2 hx)).2] at h

theorem storedAt_eq_false (hp : t.parent? s = some p)
    (h : ∀ exit, exit? (t.construct p) = some exit → bindingAt? t p exit = none) : storedAt t s = false := by
  simp only [storedAt, hp, Option.any_some]
  cases hx : exit? (t.construct p) with
  | none => rfl
  | some exit => simp [h exit hx]

theorem bracedAt_eq_false (h : ∀ exit, exit? (t.construct s) = some exit → owedAt t s exit = []) :
    bracedAt t s = false := by
  rw [bracedAt]
  cases hx : exit? (t.construct s) with
  | none => rfl
  | some exit => simp [h exit hx]

theorem copiesBefore_eq_nil (h : ∀ exit, exit? (t.construct s) = some exit → owedAt t s exit = []) :
    copiesBefore t s = [] := by
  rw [copiesBefore]
  cases hx : exit? (t.construct s) with
  | none => rfl
  | some exit => simp [bindingAt?, h exit hx, operations, openBrace]

theorem copiesAtEnd_eq_nil (h : opens (t.tag s) = false) : copiesAtEnd t s = [] := by
  simp [copiesAtEnd, endingAt, h, operations]

theorem kept_of_marked {kids kids' : List Slot} (ht : t.node e.slot = e.linked kids p?)
    (hr : r.node e.slot = e'.linked kids' p?) (hm : e'.node = { e.node with
      status := if storedAt t e.slot || bracedAt t e.slot then .modified else .clean
      replacement? := if storedAt t e.slot then some storedValue else none
      actions := { braceAfter := bracedAt t e.slot } }) :
    r.node e.slot = keptNode t e.slot (r.children e.slot) := by
  rw [keptNode, Tree.children, hr, ht, Entry.linked, hm]
  rfl

theorem kept_of_same {kids kids' : List Slot} (hp : e.Plain) (ht : t.node e.slot = e.linked kids p?)
    (hr : r.node e.slot = e.linked kids' p?) (hs : storedAt t e.slot = false) (hb : bracedAt t e.slot = false) :
    r.node e.slot = keptNode t e.slot (r.children e.slot) := by
  refine kept_of_marked ht hr ?_
  rw [hs, hb, hp]
  rfl

theorem woven_self {ending : List Ordered} {l : List Slot} (hl : List.Forall₂ (Ordered.Filled t r) ending l) :
    ∀ {cs : List Slot}, (∀ c ∈ cs, copiesBefore t c = []) → Woven t r ending cs (cs ++ l)
  | [], _ => hl
  | c :: cs, h => by
    obtain ⟨hc, hcs⟩ := forall_mem_cons.1 h
    exact ⟨[], cs ++ l, rfl, hc ▸ .nil, woven_self hl hcs⟩

theorem woven_operands (hops : ∀ s ∈ b.slots, (t.tag s).isOperand = true) (ho : opens (t.tag s) = false)
    (ht : t.children s = b.rootSlots) (hr : r.children s = b.rootSlots) :
    Woven t r (copiesAtEnd t s) (t.children s) (r.children s) := by
  have hquiet : ∀ s ∈ b.rootSlots, copiesBefore t s = [] := fun s hs =>
    copiesBefore_eq_nil (by simp [(isOperand_passes (hops s (rootSlots_subset hs))).2.2])
  rw [ht, hr, copiesAtEnd_eq_nil ho]
  simpa using woven_self (t := t) (r := r) .nil hquiet

theorem changed_operands (hg : ∀ s ∈ g.slots, (t.tag s).isOperand = true) (ht : t.Holds q? g) (hr : r.Holds q? g)
    (hp : ∀ e ∈ g.members, e.Plain) (hs : ∀ s ∈ g.rootSlots, storedAt t s = false) : ∀ s ∈ g.slots, Changed t r s := by
  induction g generalizing q? with
  | nil => exact nofun
  | node e b k ihb ihk =>
    simp only [slots_node, forall_mem_cons, forall_mem_append, members_node, rootSlots_node] at hg hp hs ⊢
    obtain ⟨hge, hgb, hgk⟩ := hg
    obtain ⟨hpe, hpb, hpk⟩ := hp
    obtain ⟨hse, hsk⟩ := hs
    obtain ⟨hd, ho, hx⟩ := isOperand_passes hge
    have hbelow : ∀ s ∈ b.rootSlots, storedAt t s = false := fun s hs =>
      storedAt_eq_false (ht.2.1.parent_root hs) (by simp [hx])
    refine ⟨⟨fun h => absurd h hd, fun _ => ?_, fun _ => ?_⟩, ihb hgb ht.2.1 hr.2.1 hpb hbelow,
      ihk hgk ht.2.2 hr.2.2 hpk hsk⟩
    · exact kept_of_same hpe ht.1 hr.1 hse (bracedAt_eq_false (by simp [hx]))
    · exact woven_operands hgb ho ht.children_eq hr.children_eq

/-! ## Lists of statements -/

/-- What becomes of a forest of `t` in `r`. -/
structure Becomes (t r : Tree) (f f' : Forest Entry) : Prop where
  changed : ∀ s ∈ outer t f, Changed t r s
  woven : ∀ ending l, List.Forall₂ (Ordered.Filled t r) ending l → Woven t r ending f.rootSlots (f'.rootSlots ++ l)

theorem becomes_nil : Becomes t r .nil .nil := ⟨nofun, fun _ _ h => h⟩

theorem Becomes.cons {c b' : Forest Entry} (h : Becomes t r g g') (he : e'.slot = e.slot)
    (hc : List.Forall₂ (Ordered.Filled t r) (copiesBefore t e.slot) c.rootSlots) (hself : Changed t r e.slot)
    (hb : t.tag e.slot ≠ .deferred → ∀ s ∈ outer t b, Changed t r s) :
    Becomes t r (.node e b g) (c ++ .node e' b' g') where
  changed := by
    by_cases hd : t.tag e.slot = .deferred
    · rw [outer_deferred hd]
      exact forall_mem_cons.2 ⟨hself, h.changed⟩
    · rw [outer_passes hd]
      exact forall_mem_cons.2 ⟨hself, forall_mem_append.2 ⟨hb hd, h.changed⟩⟩
  woven ending l hl := by
    refine ⟨c.rootSlots, g'.rootSlots ++ l, ?_, hc, h.woven ending l hl⟩
    rw [rootSlots_append, rootSlots_node, he, List.append_assoc, cons_append]

end Kept

/-! ## Each step of resolving -/

section Steps

variable {e v : Entry} {b b' k c g g' : Forest Entry} {p : Slot} {done : List Slot} {beyond : List (Slot × List Slot)}
  {inner : List Placed} {exit : Exit} {type : String}

theorem Part.plain (h : Part t whole (.node e b g)) (hw : Source t whole) : e.Plain ∧ ∀ x ∈ b.members, x.Plain := by
  have hmem := members_sublist (h.subtrees (by simp [Forest.subtrees] : (e, b) ∈ _))
  exact ⟨hw.plain e (hmem.subset (by simp)), fun x hx => hw.plain x (hmem.subset (by simp [hx]))⟩

theorem Part.nodup_below (h : Part t whole (.node e b g)) : b.rootSlots.Nodup :=
  ((roots_sublist b).map _).nodup (h.below.slots.nodup h.nodup)

theorem removed_of_holds (ht : t.Holds p? f) (hr : r.Holds p? (f.map (.mark .removed))) :
    ∀ u ∈ f.slots, r.node u = { t.node u with status := .removed } := by
  induction f generalizing p? with
  | nil => exact nofun
  | node e b g ihb ihg =>
    rw [slots_node]
    refine forall_mem_cons.2 ⟨?_, forall_mem_append.2 ⟨ihb ht.2.1 hr.2.1, ihg ht.2.2 hr.2.2⟩⟩
    have hkids : (b.map (.mark .removed)).rootSlots = b.rootSlots := by simp [rootSlots, Entry.mark, Function.comp_def]
    have hnode := hr.1
    rw [hkids] at hnode
    rw [ht.1]
    exact hnode

theorem changed_deferred (hd : t.tag e.slot = .deferred) (ht : t.Holds p? (.node e b g))
    (hsize : (tree e b).members.length ≤ t.size)
    (hr : r.Holds p? (.node (e.mark .removed) (b.map (.mark .removed)) g')) : Changed t r e.slot := by
  refine ⟨fun _ => ?_, fun hn => absurd hd hn, fun hn => absurd hd hn⟩
  have htree : t.Holds p? (tree e b) := Tree.holds_tree.2 ⟨ht.1, ht.2.1⟩
  rw [Tree.subtree_eq_slots htree hsize]
  exact removed_of_holds htree (Tree.holds_tree.2 ⟨hr.1, hr.2.1⟩)

theorem changed_opens (ho : opens (t.tag e.slot) = true) (hp : e.Plain) (ht : t.Holds p? (.node e b g))
    (hr : r.Holds p? (.node e (b' ++ c) g')) (hs : storedAt t e.slot = false) (hb : Becomes t r b b')
    (hc : List.Forall₂ (Ordered.Filled t r) (copiesAtEnd t e.slot) c.rootSlots) : Changed t r e.slot := by
  have hx := exit?_of_opens ho
  refine ⟨fun hd => by simp [hd, opens] at ho, fun _ => ?_, fun _ => ?_⟩
  · exact kept_of_same hp ht.1 hr.1 hs (bracedAt_eq_false (by simp [hx]))
  · rw [ht.children_eq, hr.children_eq, rootSlots_append]
    exact hb.woven _ _ hc

theorem changed_passes (hd : t.tag e.slot ≠ .deferred) (ho : opens (t.tag e.slot) = false)
    (hx : ∀ exit, exit? (t.construct e.slot) = some exit → owedAt t e.slot exit = []) (hp : e.Plain)
    (ht : t.Holds p? (.node e b g)) (hr : r.Holds p? (.node e b' g')) (hs : storedAt t e.slot = false)
    (hb : Becomes t r b b') : Changed t r e.slot := by
  refine ⟨fun h => absurd h hd, fun _ => kept_of_same hp ht.1 hr.1 hs (bracedAt_eq_false hx), fun _ => ?_⟩
  rw [ht.children_eq, hr.children_eq, copiesAtEnd_eq_nil ho]
  simpa using hb.woven [] [] .nil

/-- A jump is kept with the operands below it, perhaps with a brace after it. -/
theorem changed_exit (hx : exit? (t.construct e.slot) = some exit) (hp : e.Plain) (ht : t.Holds p? (.node e b g))
    (hops : ∀ s ∈ b.slots, (t.tag s).isOperand = true)
    (hr : r.node e.slot = (if bracedAt t e.slot then e.mark .closed else e).linked b.rootSlots p?)
    (hs : storedAt t e.slot = false) : Changed t r e.slot := by
  obtain ⟨hd, ho⟩ := exit?_passes (by rw [hx]; rfl)
  refine ⟨fun h => absurd h hd, fun _ => kept_of_marked ht.1 hr ?_, fun _ => ?_⟩
  · rw [hs]
    cases bracedAt t e.slot <;> rw [hp] <;> rfl
  · exact woven_operands hops ho ht.children_eq (by rw [Tree.children, hr]; rfl)

theorem changed_value (hp : ∀ x ∈ (tree v k).members, x.Plain) (ht : t.Holds q? (tree v k))
    (hops : ∀ s ∈ (tree v k).slots, (t.tag s).isOperand = true)
    (hr : r.Holds q? (tree (v.mark (.replaced storedValue)) k)) (hs : storedAt t v.slot = true) :
    ∀ s ∈ (tree v k).slots, Changed t r s := by
  simp only [members_tree, slots_tree, forall_mem_cons] at hp hops ⊢
  obtain ⟨hd, ho, hx⟩ := isOperand_passes hops.1
  have hk : ∀ s ∈ k.rootSlots, storedAt t s = false := fun s hs =>
    storedAt_eq_false (ht.2.1.parent_root hs) (by simp [hx])
  refine ⟨⟨fun h => absurd h hd, fun _ => kept_of_marked ht.1 hr.1 ?_, fun _ => ?_⟩,
    changed_operands hops.2 ht.2.1 hr.2.1 hp.2 hk⟩
  · rw [hs, bracedAt_eq_false (t := t) (s := v.slot) (by simp [hx]), hp.1]
    rfl
  · exact woven_operands hops.2 ho ht.children_eq hr.children_eq

theorem copiesBefore_exit (hx : exit? (t.construct e.slot) = some exit) : copiesBefore t e.slot =
    openBrace (bracedAt t e.slot) (
      ((bindingAt? t e.slot exit).toList.map fun (value, type) => { source := value, lead? := some (declares type) }) ++
        operations t (owedAt t e.slot exit)) := by
  rw [copiesBefore, hx]

namespace Inside

variable (hin : Inside t p done beyond d scopes armed (.node e b g))

include hin

theorem bracedAt_eq (hx : exit? (t.construct e.slot) = some exit) (hne : left t scopes armed exit ≠ []) :
    bracedAt t e.slot = Plan.bracesAt t { scopes, armed } e.slot exit := by
  have howed : (owedAt t e.slot exit).isEmpty = false := by simpa [hin.left_eq exit] using hne
  simp [bracedAt, hx, howed, Plan.bracesAt, hin.boundBy?_eq exit hne]

theorem storedAt_below (h : ∀ exit, exit? (t.construct e.slot) = some exit → bindingAt? t e.slot exit = none) :
    ∀ s ∈ b.rootSlots, storedAt t s = false :=
  fun _ hs => storedAt_eq_false (hin.holds.2.1.parent_root hs) h

theorem armed_passes (hd : t.tag e.slot ≠ .deferred) (ho : opens (t.tag e.slot) = false)
    (hb : Resolves t whole (d + 1) scopes armed b inner b') : inner = armed := by
  rw [hb.armed_after (hin.armable.1 hd).2 fun a ha => Nat.le_succ_of_le (hin.depth_armed a ha),
    arming_eq_nil ((hin.armable.1 hd).1 ho), List.nil_append]

theorem armed_opens (ho : opens (t.tag e.slot) = true)
    (hb : Resolves t whole (d + 1) (⟨e.slot, d⟩ :: scopes) armed b inner b') :
    ended t inner ⟨e.slot, d⟩ = endingAt t e.slot ∧ inner.filter (·.depth != d + 1) = armed := by
  have hd : t.tag e.slot ≠ .deferred := fun hd => by simp [hd, opens] at ho
  rw [hb.armed_after (hin.armable.1 hd).2 fun a ha => Nat.le_succ_of_le (hin.depth_armed a ha)]
  exact ⟨ended_eq ho hin.holds.children_eq hin.depth_armed, filter_arming hin.depth_armed _⟩

end Inside

end Steps

theorem Resolves.becomes {p : Slot} {done : List Slot} {beyond : List (Slot × List Slot)}
    (h : Resolves t whole d scopes armed f armed' f') (hw : Source t whole) (hpart : Part t whole f)
    (hin : Inside t p done beyond d scopes armed f) (hs : ∀ s ∈ f.rootSlots, storedAt t s = false)
    (hr : r.Holds (some p) f') (hnew : New t f f') : Becomes t r f f' := by
  induction h generalizing p done beyond with
  | nil => exact becomes_nil
  | @deferred d scopes armed armed' e b g g' hd hg ih =>
    obtain ⟨-, hsg⟩ := forall_mem_cons.1 hs
    have hmarked : (b.map (Entry.mark .removed)).slots = b.slots := by simp [slots, Entry.mark, Function.comp_def]
    obtain ⟨-, -, hnewg⟩ := hnew.split (c := .nil) rfl (hmarked ▸ List.Subset.refl _) hg.slots_subset
    have hsize : (tree e b).members.length ≤ t.size := by
      have := hin.size
      simp only [members_node, members_tree, length_cons, length_append] at this ⊢
      omega
    have hconstruct : t.construct e.slot = .deferred := Construct.eq_deferred hd
    have hbefore : copiesBefore t e.slot = [] := copiesBefore_eq_nil (by simp [hconstruct, exit?])
    refine (ih hpart.rest (hin.arm hd) hsg hr.2.2 hnewg).cons (c := .nil) rfl (hbefore ▸ .nil) ?_ fun hn => absurd hd hn
    exact changed_deferred hd hin.holds hsize hr
  | @opens d scopes armed inner armed' e b b' c g g' ho hb hc hg ihb ihg =>
    obtain ⟨hse, hsg⟩ := forall_mem_cons.1 hs
    have hd : t.tag e.slot ≠ .deferred := fun hd => by simp [hd, Firing.opens] at ho
    have hx := exit?_of_opens ho
    obtain ⟨-, hnewb, hnewg⟩ := hnew.split (c := .nil) rfl (fun s hs => by simp [hb.slots_subset hs]) hg.slots_subset
    obtain ⟨hnewb, hnewc⟩ := hnewb.append hb.slots_subset
    obtain ⟨hrb, hrc⟩ := Tree.holds_append.1 hr.2.1
    obtain ⟨hended, hrest⟩ := hin.armed_opens ho hb
    rw [hended] at hc
    rw [hrest] at ihg
    have hend := hw.filled_copies hc hrc hnewc
    rw [openBrace_false] at hend
    have hbody := ihb hpart.below (hin.enter ho hpart.nodup_below) (hin.storedAt_below (by simp [hx])) hrb hnewb
    have hbefore : copiesBefore t e.slot = [] := copiesBefore_eq_nil (by simp [hx])
    refine (ihg hpart.rest (hin.skip hd) hsg hr.2.2 hnewg).cons (c := .nil) rfl (hbefore ▸ .nil) ?_
      fun _ => hbody.changed
    exact changed_opens ho (hpart.plain hw).1 hin.holds hr hse hbody hend
  | @passes d scopes armed inner armed' e b b' g g' hd ho hx hb hg ihb ihg =>
    obtain ⟨hse, hsg⟩ := forall_mem_cons.1 hs
    obtain ⟨-, hnewb, hnewg⟩ := hnew.split (c := .nil) rfl hb.slots_subset hg.slots_subset
    obtain rfl := hin.armed_passes hd ho hb
    have howed : ∀ exit, exit? (t.construct e.slot) = some exit → owedAt t e.slot exit = [] := fun exit hexit =>
      (hin.left_eq exit).symm.trans (hx exit hexit)
    have hbelow := hin.storedAt_below fun exit hexit => hin.bindingAt?_eq_none (hx exit hexit)
    have hbody := ihb hpart.below (hin.below hd ho hpart.nodup_below) hbelow hr.2.1 hnewb
    refine (ihg hpart.rest (hin.skip hd) hsg hr.2.2 hnewg).cons (c := .nil) rfl
      (copiesBefore_eq_nil howed ▸ .nil) ?_ fun _ => hbody.changed
    exact changed_passes hd ho howed (hpart.plain hw).1 hin.holds hr hse hbody
  | @leaves d scopes armed armed' exit e b c g g' hx hne hv hc hg ih =>
    obtain ⟨hse, hsg⟩ := forall_mem_cons.1 hs
    obtain ⟨hd, -⟩ := exit?_passes (by rw [hx]; rfl)
    have hops := (hpart.exits.1 (by simp [hx])).1
    have hbind : bindingAt? t e.slot exit = none := (hin.boundBy?_eq exit hne).symm.trans hv
    rw [← hin.bracedAt_eq hx hne] at hc hr hnew ⊢
    have hslot : (if bracedAt t e.slot then e.mark .closed else e).slot = e.slot := by split <;> rfl
    obtain ⟨hnewc, -, hnewg⟩ := hnew.split hslot (List.Subset.refl _) hg.slots_subset
    obtain ⟨hrc, hre, hrb, hrg⟩ := Tree.holds_append.1 hr
    rw [hslot] at hre hrb
    have hfilled := hw.filled_copies hc hrc hnewc
    have hbefore : copiesBefore t e.slot = openBrace (bracedAt t e.slot) (operations t (left t scopes armed exit)) := by
      rw [copiesBefore_exit hx, hbind, hin.left_eq exit]
      rfl
    have hbelow := hin.storedAt_below fun exit' hexit => by
      obtain rfl := Option.some.inj (hx.symm.trans hexit)
      exact hbind
    refine (ih hpart.rest (hin.skip hd) hsg hrg hnewg).cons hslot (hbefore ▸ hfilled) ?_ fun _ s hs => ?_
    · exact changed_exit hx (hpart.plain hw).1 hin.holds hops hre hse
    · exact changed_operands hops hin.holds.2.1 hrb (hpart.plain hw).2 hbelow s ((outer_sublist b).subset hs)
  | @stores d scopes armed armed' type e v k s c g g' hreturn hne hv hg hc hrest ih =>
    obtain ⟨hse, hsg⟩ := forall_mem_cons.1 hs
    have hx : exit? (t.construct e.slot) = some .returned := by rw [hreturn]; rfl
    obtain ⟨hd, -⟩ := exit?_passes (by rw [hx]; rfl)
    have hops := (hpart.exits.1 (by simp [hx])).1
    have hbraced : bracedAt t e.slot = true := (hin.bracedAt_eq hx hne).trans (boundBy?_eq_some hx hv).2.2
    have hbind : bindingAt? t e.slot .returned = some (v.slot, type) := (hin.boundBy?_eq .returned hne).symm.trans hv
    rw [← append_assoc] at hr hnew ⊢
    obtain ⟨hnewc, -, hnewg⟩ := hnew.split rfl (by simp [Entry.mark]) hrest.slots_subset
    obtain ⟨hrs, hre, hrb, hrg⟩ := Tree.holds_append.1 hr
    obtain ⟨hrv, hrc⟩ := Tree.holds_append.1 hrs
    have hvalue := hw.filled (hpart.below.subtrees (by simp [tree, Forest.subtrees])) hg hrv fun s hs =>
      hnewc s (by simp [hs])
    have hfilled := hw.filled_copies hc hrc fun s hs => hnewc s (by simp [hs])
    have hbefore : copiesBefore t e.slot =
        [⟨v.slot, some (declares type), true⟩] ++ openBrace false (operations t (left t scopes armed .returned)) := by
      rw [copiesBefore_exit hx, hbind, hbraced, hin.left_eq .returned, openBrace_false]
      rfl
    have hstored : storedAt t v.slot = true := by
      have hparent : t.parent? v.slot = some e.slot := hin.holds.2.1.parent_root (by simp)
      simp [storedAt, hparent, hx, hbind]
    obtain ⟨hpe, hpb⟩ := hpart.plain hw
    refine (ih hpart.rest (hin.skip hd) hsg hrg hnewg).cons rfl ?_ ?_ fun _ u hu => ?_
    · rw [hbefore, rootSlots_append]
      exact rel_append hvalue hfilled
    · refine changed_exit hx hpe hin.holds hops ?_ hse
      rw [hbraced]
      exact hre
    · exact changed_value hpb hin.holds.2.1 hops hrb hstored u ((outer_sublist _).subset hu)

/-! ## Trees -/

/-- The nodes of a tree that are below no deferred statement, parents first. -/
def outerNodes (t : Tree) : List Slot := t.walk .root (fun s _ found => (found ++ [s], t.tag s != .deferred)) []

/-- `r` is `t`, but for deferred statements that were removed and copies that were put in. -/
structure Effect (t r : Tree) : Prop where
  nodup : r.reachable.Nodup
  linked : ∀ s ∈ r.reachable, ∀ c ∈ r.children s, r.parent? c = some s
  changed : ∀ s ∈ outerNodes t, Changed t r s

theorem visit_outerNodes (d : Nat) (found : List Slot) :
    Tree.visitForest (fun s _ found => (found ++ [s], t.tag s != .deferred)) d f found = found ++ outer t f := by
  induction f generalizing d found with
  | nil => simp [Tree.visitForest, outer]
  | node e b r ihb ihr =>
    by_cases h : t.tag e.slot = .deferred
    · simp [Tree.visitForest, h, outer_deferred h, ihr]
    · simp [Tree.visitForest, h, outer_passes h, ihb, ihr]

end Firing

open Assembly Firing Forest Tree.Built

namespace Tree.Built

variable {t : Tree} {source : List UInt8} {path : Path} {tokens : List Token} {f f' : Forest Entry}
  {armed : List Placed}

theorem outerNodes_eq (h : t.Built source path tokens f) : outerNodes t = outer t (whole source path f) :=
  (walk_eq_visit _ h.stands []).trans (visit_outerNodes 0 [])

theorem source_whole (h : t.Built source path tokens f) : Source t (whole source path f) where
  holds := ⟨none, h.stands.holds⟩
  nodup := h.stands.nodup
  size := h.stands.length_le
  plain e he := by
    obtain ⟨_, hplain, -⟩ := h.shaped.exists_below he
    exact hplain

theorem inside (h : t.Built source path tokens f) (ha : Armable t f) : Inside t .root [] [] 1 [] [] f := by
  have hparent : t.parent? .root = none := h.stands.holds.parent?_eq
  have hopens : opens (t.tag .root) = false := by rw [h.tag_root]; rfl
  have hchildren : t.children .root = f.rootSlots := h.stands.holds.children_eq
  have hsize := h.stands.length_le
  simp only [members_tree, length_cons] at hsize
  have hshape := h.shaped.1.2.1
  simp only [Shape, Entry.construct_fresh] at hshape
  exact {
    holds := h.stands.holds.2.1
    children := hchildren
    nodup := hchildren ▸ Part.nodup_below h.part
    around_eq := fun n _ => by cases n <;> simp [around, hparent]
    matching := by rw [way_passes hopens]; exact .nil
    armable := ha
    owner := fun _ s hs => by
      obtain ⟨e, he, rfl⟩ := mem_map.1 hs
      rw [h.stands.holds.2.1.tag_eq (mem_members_of_mem_roots he), hshape.2 e he]
      decide
    innermost := by simp [hopens]
    depth_armed := by simp
    depth_scopes := by simp
    depth_pos := Nat.one_pos
    size := by omega }

end Tree.Built

/-- Resolving the tree of a source whose deferred statements stand in scopes removes them, and puts copies of their
operations where they are to fire. -/
theorem effect_of_build {source : List UInt8} {path : Path} {t : Tree} (h : ((start path).build source).1 = .ok t)
    (ho : ∀ s ∈ t.outerDefers, ∃ p ∈ t.parent? s, opens (t.tag p) = true) : Effect t (resolve t).tree := by
  obtain ⟨tokens, f, hb⟩ := exists_built h
  obtain ⟨armed, f', hr, hs, -⟩ := exists_resolves hb
  have harmable : Armable t f := by
    refine armable_of_parents hb.stands.holds.2.1 fun s hs hd p hp => ?_
    obtain ⟨q, hq, hopens⟩ := ho s (by rw [hb.outerDefers_eq]; simpa [hd] using hs)
    exact Option.mem_unique hq hp ▸ hopens
  have hroot : t.parent? .root = none := hb.stands.holds.parent?_eq
  have hopens : opens (t.tag .root) = false := by rw [hb.tag_root]; rfl
  have hexit : exit? (t.construct .root) = none := by rw [hb.construct_root]; rfl
  have hreachable : (resolve t).tree.reachable = (whole source path f').slots :=
    Tree.subtree_eq_slots hs.holds hs.length_le
  have hnew : New t (whole source path f) (whole source path f') :=
    ⟨hs.nodup, fun s _ hn => by rwa [hb.reachable_eq]⟩
  obtain ⟨-, hnewf, -⟩ := hnew.split (c := .nil) rfl hr.slots_subset (List.Subset.refl _)
  have hbecomes : Becomes t (resolve t).tree f f' := by
    refine hr.becomes hb.source_whole (Part.below hb.part) (hb.inside harmable) (fun s hs => ?_) ?_ hnewf
    · exact storedAt_eq_false (hb.stands.holds.2.1.parent_root hs) (by simp [hexit])
    · exact hs.holds.2.1
  refine ⟨hreachable ▸ hs.nodup, fun s hmem c hc => ?_, ?_⟩
  · rw [hreachable] at hmem
    obtain ⟨e, b, hm, rfl⟩ := exists_subtree_slot hmem
    obtain ⟨hnode, hbelow⟩ := hs.holds.every.of_mem hm
    rw [Tree.children, hnode] at hc
    exact hbelow.parent_root hc
  · rw [hb.outerNodes_eq, whole, Forest.tree, outer_passes (by simp [hb.tag_root])]
    refine forall_mem_cons.2 ⟨?_, by simpa [outer] using hbecomes.changed⟩
    exact changed_passes (by simp [hb.tag_root]) hopens (by simp [hexit]) rfl hb.stands.holds hs.holds
      (by simp [storedAt, hroot]) hbecomes

/-- A `return` out of a loop and a `break`, with two statements deferred in the loop and one outside. -/
def deferredTwice : List UInt8 :=
  Utf8.encode "int f(int x)\x7bdefer a();while(x)\x7bdefer b();defer c();if(x)return g(x);if(y)break;\x7d\x7d"

set_option maxRecDepth 100000 in
theorem effect_deferredTwice : ∃ t, ((start []).build deferredTwice).1 = .ok t ∧
    (∀ s ∈ t.outerDefers, ∃ p ∈ t.parent? s, opens (t.tag p) = true) ∧
    t.outerDefers.map (t.span · |>.start) = [13, 32, 42] ∧
    ((outerNodes t).map fun s => (copiesBefore t s).map fun o => (t.span o.source).start).filter (· ≠ []) =
      [[64, 48, 38, 19], [48, 38]] ∧
    ((outerNodes t).map fun s => (copiesAtEnd t s).map fun o => (t.span o.source).start).filter (· ≠ []) =
      [[19], [48, 38]] ∧
    Effect t (resolve t).tree := by
  have ht := build_get [] deferredTwice (by decide +kernel)
  refine ⟨_, ht, ?_⟩
  simp only [← and_assoc]
  refine ⟨?check, effect_of_build ht (?check).1.1.1⟩
  decide +kernel

end Deferral
