import Deferral.Proofs.Covering
import Deferral.Proofs.Ownership
import Deferral.Proofs.Visibility

/-!
# What names mean in copies

The operation of a deferred statement is copied as it is written. At the copy, everything is visible that is visible at
the deferred statement, after what has been declared in between (`Since`). So a name means the same in both places
unless it is declared again after the deferred statement, in one of the blocks that the copy is in
(`hygienic_of_build`).
-/

namespace Deferral

open Forest Firing
open List hiding append_assoc nil_append

variable {inner : List Placed} {c b' : Forest Entry} {mid : Nat}

/-- Whether a node stands directly below a `switch`. -/
def Tree.inSwitch (t : Tree) (s : Slot) : Bool := (t.parent? s).any (t.tag · = .switch)

/-- The root of a copy of an operation. -/
def Entry.IsCopy (e : Entry) : Prop := e.node.status = .added ∧ e.node.lead? = none

/-- `x'` is the node `x` again. -/
structure View.Repeats (x x' : View) : Prop where
  span : x'.entry.node.span = x.entry.node.span
  identifier? : x'.identifier? = x.identifier?

/-- A name at `x` means the same at `x'`, or something that is declared from `stop` on. -/
def View.Keeps (stop : Nat) (x x' : View) : Prop :=
  ∀ name, x.identifier? = some name →
    x'.binding? name = x.binding? name ∨ ∃ d, x'.binding? name = some d ∧ stop ≤ d.span.start

/-- `x` over `b` repeats the operation of a deferred statement of `t`, and names mean there what they mean in the
statement, or something that is declared after it. -/
def CopyOf (t : Tree) (x : View) (b : Forest View) : Prop :=
  ∃ d o, (d, o) ∈ t.views.subtrees ∧ d.entry.node.tag = .deferred ∧
    List.Forall₂ View.Repeats o.members (tree x b).members ∧
    (t.inSwitch d.entry.slot = false → List.Forall₂ (View.Keeps d.entry.node.span.stop) o.members (tree x b).members)

/-! ## Lists of statements in a source -/

/-- A list of statements as it is written, from `lo` to `hi`. -/
structure Passage (t : Tree) (tokens : List Token) (p? : Option Slot) (lo hi : Nat) (f : Forest Entry) : Prop where
  holds : t.Holds p? f
  shaped : Shaped tokens f
  within : f.Within lo hi
  inner : ∀ e ∈ f.roots, e.node.tag ≠ .unit
  present : ∀ e ∈ f.roots, e.node.tag = .declaration → e.node.span ≠ .absent

/-- Only functions have parameters. -/
def NoParams (P : Construct → List Declared) : Prop := ∀ c : Construct, c.tag ≠ .function → P c = []

namespace Passage

variable {t : Tree} {tokens : List Token} {p? : Option Slot} {lo hi : Nat} {e : Entry} {b r f : Forest Entry}

theorem split (h : Passage t tokens p? lo hi (.node e b r)) : ∃ mid, Passage t tokens p? lo mid (tree e b) ∧
    Passage t tokens p? mid hi r ∧ (e.node.span ≠ .absent → e.node.span.stop = mid) := by
  obtain ⟨mid, hb, hr, hmid⟩ : ∃ mid, (tree e b).Within lo mid ∧ r.Within mid hi ∧
      (e.node.span ≠ .absent → e.node.span.stop = mid) := by
    rcases h.within with ⟨ha, hb, hr⟩ | ⟨hp, hlo, hb, hr⟩
    · exact ⟨lo, .inl ⟨ha, hb, Nat.le_refl lo⟩, hr, fun hp => absurd ha hp⟩
    · exact ⟨e.node.span.stop, .inr ⟨hp, hlo, hb, le_rfl⟩, hr, fun _ => rfl⟩
  obtain ⟨hi₁, hi₂⟩ := forall_mem_cons.1 h.inner
  obtain ⟨hp₁, hp₂⟩ := forall_mem_cons.1 h.present
  refine ⟨mid, ⟨Tree.holds_tree.2 ⟨h.holds.1, h.holds.2.1⟩, every_tree.2 ⟨h.shaped.1, h.shaped.2.1⟩, hb, ?_, ?_⟩,
    ⟨h.holds.2.2, h.shaped.2.2, hr, hi₂, hp₂⟩, hmid⟩
  · simpa using hi₁
  · simpa using hp₁

theorem below (h : Passage t tokens p? lo hi (tree e b)) (hd : e.node.tag ≠ .deferred) :
    Passage t tokens (some e.slot) lo hi b where
  holds := h.holds.2.1
  shaped := h.shaped.2.1
  within := by
    rcases h.within with ⟨-, hb, hr⟩ | ⟨-, hlo, hb, hr⟩
    · rw [hb]
      exact hr
    · exact hb.mono hlo hr
  inner k hk := (Shape.tag_ne h.shaped.1.2.1 (h.inner e (by simp)) k hk).2
  present := Shape.present h.shaped.1.2.1 hd

theorem plain (h : Passage t tokens p? lo hi (.node e b r)) : e.Plain := h.shaped.1.1

theorem tag_eq (h : Passage t tokens p? lo hi (.node e b r)) : t.tag e.slot = e.node.tag := h.holds.tag_eq (by simp)

theorem plain_of_mem (h : Passage t tokens p? lo hi f) {x : Entry} (hx : x ∈ f.members) : x.Plain := by
  obtain ⟨_, hp, -⟩ := h.shaped.exists_below hx
  exact hp

theorem not_deferred_of_opens (h : Passage t tokens p? lo hi (tree e b)) (ho : opens (t.tag e.slot) = true) :
    e.node.tag ≠ .deferred := by
  rw [← h.tag_eq]
  intro hd
  simp [hd, opens] at ho

theorem noFunction (h : Passage t tokens p? lo hi (.node e b r)) : ∀ k ∈ b.roots, k.node.tag ≠ .function :=
  fun k hk => (Shape.tag_ne h.shaped.1.2.1 (h.inner e (by simp)) k hk).1

variable {P : Construct → List Declared}

/-- What is declared in the list is visible after it, before what was visible at its start. -/
theorem declares (hP : NoParams P) (h : Passage t tokens p? lo hi f) (V : List Declared) :
    ∃ D, (f.views P ⟨V, []⟩).2 = ⟨D ++ V, []⟩ ∧ ∀ d ∈ D, lo ≤ d.span.start := by
  induction f generalizing p? lo hi V with
  | nil => exact ⟨[], rfl, by simp⟩
  | node e b r ihb ihr =>
    obtain ⟨mid, he, hr, -⟩ := h.split
    obtain ⟨D, hD, hafter⟩ : ∃ D, plainAfter P e b V = D ++ V ∧ ∀ d ∈ D, lo ≤ d.span.start := by
      unfold plainAfter
      have hinside (hd : e.node.tag ≠ .deferred) (hf : e.node.tag ≠ .function) :
          ∃ D, (b.views P ⟨P e.node.construct ++ V, []⟩).2.visible = D ++ V ∧ ∀ d ∈ D, lo ≤ d.span.start := by
        obtain ⟨D, hD, hlo⟩ := ihb (he.below hd) V
        exact ⟨D, by rw [hP _ hf, List.nil_append, hD], hlo⟩
      cases hc : e.node.construct with
      | declaration type name isReference =>
        have hp : e.node.span ≠ .absent := h.present e (by simp) (by rw [Node.tag, hc]; rfl)
        exact ⟨[⟨name, e.node.span⟩], rfl, by simpa using ((within_present hp).1 h.within).1⟩
      | binary | group | caseLabel =>
        rw [hc] at hinside
        exact hinside (by simp [Node.tag, hc, Construct.tag]) (by simp [Node.tag, hc, Construct.tag])
      | _ => exact ⟨[], rfl, by simp⟩
    obtain ⟨D', hD', hrest⟩ := ihr hr (D ++ V)
    rw [views_plain h.plain]
    refine ⟨D' ++ D, ?_, forall_mem_append.2 ⟨fun d hd => ?_, hafter⟩⟩
    · simp only [hD, hD', List.append_assoc]
    · exact he.within.le.trans (hrest d hd)

theorem plainAfter_eq (hP : NoParams P) (h : Passage t tokens p? lo hi (tree e b)) (V : List Declared) :
    ∃ D, plainAfter P e b V = D ++ V ∧ ∀ d ∈ D, lo ≤ d.span.start := by
  obtain ⟨D, hD, hlo⟩ := h.declares hP V
  rw [tree, views_plain h.plain, views_nil] at hD
  exact ⟨D, congrArg Block.visible hD, hlo⟩

end Passage

/-! ## Places from which a deferred statement is reached -/

/-- What is visible now was visible before as `V`, or has been declared since, from `stop` on. -/
def Since (stop : Nat) (V W : List Declared) : Prop := ∃ L, W = L ++ V ∧ ∀ d ∈ L, stop ≤ d.span.start

theorem Since.find? {stop : Nat} {V V' W W' : List Declared} (h : Since stop V V') (hs : Shifted V V' W W')
    (p : Declared → Bool) : W'.find? p = W.find? p ∨ ∃ d, W'.find? p = some d ∧ stop ≤ d.span.start := by
  obtain ⟨L, rfl, hL⟩ := h
  obtain ⟨M, rfl, rfl⟩ := hs
  simp only [find?_append]
  cases hM : M.find? p with
  | some d => exact .inl rfl
  | none =>
    cases hd : L.find? p with
    | none => exact .inl rfl
    | some d => exact .inr ⟨d, rfl, hL d (mem_of_find?_eq_some hd)⟩

/-- The deferred statement `s` of `t` stands before `lo`, and `V` is visible since then. Of a statement directly below a
`switch` no more is said than that it is there. -/
def Reached (t : Tree) (lo : Nat) (V : List Declared) (s : Slot) : Prop :=
  t.tag s = .deferred ∧ ∃ d o, (d, o) ∈ t.views.subtrees ∧ d.entry.slot = s ∧
    (t.inSwitch s = false → d.entry.node.span.stop ≤ lo ∧ Since d.entry.node.span.stop d.visible V)

section Reached

variable {t : Tree} {lo lo' : Nat} {V D : List Declared} {s : Slot}

theorem Reached.mono (h : Reached t lo V s) (hle : lo ≤ lo') (hD : ∀ d ∈ D, lo ≤ d.span.start) :
    Reached t lo' (D ++ V) s := by
  obtain ⟨hs, d, o, hd, hslot, hsince⟩ := h
  refine ⟨hs, d, o, hd, hslot, fun hn => ?_⟩
  obtain ⟨hstop, L, rfl, hL⟩ := hsince hn
  exact ⟨hstop.trans hle, D ++ L, (List.append_assoc ..).symm,
    forall_mem_append.2 ⟨fun d hd => hstop.trans (hD d hd), hL⟩⟩

theorem Reached.of_inSwitch (h : Reached t lo V s) (hs : t.inSwitch s = true) (lo' : Nat) (V' : List Declared) :
    Reached t lo' V' s := by
  obtain ⟨hd, d, o, hmem, hslot, -⟩ := h
  exact ⟨hd, d, o, hmem, hslot, by simp [hs]⟩

end Reached

/-! ## Copies -/

/-- All copies in a forest are what they should be. -/
def Hygienic (t : Tree) (f : Forest View) : Prop := f.Every fun x b => x.entry.IsCopy → CopyOf t x b

/-- A node and its copy, where `V` and `V'` are visible all around. -/
structure View.Copied (rename : Slot → Slot) (V V' : List Declared) (x x' : View) : Prop where
  span : x'.entry.node.span = x.entry.node.span
  construct : x'.entry.node.construct = x.entry.node.construct.mapSlots rename
  visible : Shifted V V' x.visible x'.visible

section Copied

variable {rename : Slot → Slot} {V V' : List Declared} {x x' : View}

theorem View.Copied.repeats (h : x.Copied rename V V' x') : x.Repeats x' := by
  refine ⟨h.span, ?_⟩
  unfold View.identifier?
  rw [h.construct]
  cases x.entry.node.construct <;> rfl

theorem View.Copied.keeps (h : x.Copied rename V V' x') {stop : Nat} (hs : Since stop V V') : x.Keeps stop x' :=
  fun name _ => hs.find? h.visible fun d => d.name = name

end Copied

theorem noParams_parameters (t : Tree) : NoParams t.parameters := by
  intro c hc
  cases c <;> first | rfl | simp [Construct.tag] at hc

namespace Tree.Built

variable {t : Tree} {tokens : List Token} {source : List UInt8} {path : Path} {f : Forest Entry}

theorem plain_of_mem (h : t.Built source path tokens f) {e : Entry} (he : e ∈ (whole source path f).members) :
    e.Plain := by
  obtain ⟨_, hp⟩ := h.plain.exists_below he
  exact hp

theorem noFunction_below (h : t.Built source path tokens f) {e : Entry} {b : Forest Entry}
    (hm : (e, b) ∈ (whole source path f).subtrees) (he : e.node.tag ≠ .unit) :
    ∀ k ∈ b.members, k.node.tag ≠ .function := by
  have hs := h.shaped.below hm
  have hroots := Shape.tag_ne (h.shape hm) he
  clear hm
  induction b with
  | nil => simp
  | node x k r ihk ihr =>
    obtain ⟨hx, hr⟩ := forall_mem_cons.1 hroots
    simp only [members_node, forall_mem_cons, forall_mem_append]
    exact ⟨hx.1, ihk hs.2.1 (Shape.tag_ne hs.1.2.1 hx.2), ihr hs.2.2 hr⟩

theorem views_eq (h : t.Built source path tokens f) :
    t.views = ((whole source path f).views t.parameters ⟨[], []⟩).1 :=
  Tree.views_eq h.stands rfl fun e he => by rw [h.plain_of_mem he]; rfl

end Tree.Built

section Copies

open Tree.Built

variable {t : Tree} {tokens : List Token} {source : List UInt8} {path : Path} {f g : Forest Entry}
  {P : Construct → List Declared} {k : Block}

theorem hygienic_of_members (h : ∀ e ∈ g.members, e.node.status ≠ .added) : Hygienic t (g.views P k).1 := by
  refine every_iff.2 fun x b hx hc => absurd hc.1 (h x.entry (entry_mem_of_views (P := P) (k := k) ?_))
  exact (members_sublist hx).subset (by simp)

theorem hygienic_of_plain (h : ∀ e ∈ g.members, e.Plain) : Hygienic t (g.views P k).1 :=
  hygienic_of_members fun e he => by simp [(h e he).status_eq]

theorem views_splice {e : Entry} {b : Forest Entry} {actions : Actions} {lead? : Option String}
    (h : Splice e b actions lead? g) (ha : actions.braceAfter = false) : ∃ x o, (g.views P k).1 = tree x o ∧
      x.entry.node.lead? = lead? ∧
      (g.views P k).2 = ⟨if lead?.isSome then ⟨storedValue, e.node.span⟩ :: k.visible else k.visible,
        if actions.braceBefore then k.visible :: k.outer else k.outer⟩ := by
  cases h with
  | mk n =>
    rw [tree, views, views_nil]
    refine ⟨_, _, rfl, rfl, ?_⟩
    cases hb : actions.braceBefore <;> simp [Block.opened, Block.closed, Entry.added, Node.visibleAfter, ha, hb]

/-- The copy of an operation, at a place from which its statement is reached. -/
theorem Reached.copy (h : t.Built source path tokens f) {lo : Nat} {s : Slot} (hs : Reached t lo k.visible s)
    {op : Entry} {b : Forest Entry} (hop : (op, b) ∈ (whole source path f).subtrees) (hslot : op.slot = operation t s)
    (hP : NoParams P) {actions : Actions} (hg : Splice op b actions none g) : Hygienic t (g.views P k).1 := by
  obtain ⟨htag, d, o, hd, rfl, hsince⟩ := hs
  have hd' := hd
  rw [h.views_eq] at hd'
  obtain ⟨b', hb', rfl⟩ := exists_below_of_views hd'
  have htag' : d.entry.node.tag = .deferred := by rw [← htag, Tree.tag, h.node_eq hb']; rfl
  obtain ⟨op', k', rfl, hop'⟩ := h.exists_operation hb' htag
  have hmem : (op', k') ∈ (whole source path f).subtrees := subtrees_below hb' (by simp [tree, subtrees])
  obtain ⟨rfl, rfl⟩ := subtree_unique h.stands.nodup hop hmem (hslot.trans hop')
  have hplain : ∀ e ∈ (tree op b).members, e.Plain := fun e he => h.plain_of_mem ((members_sublist hop).subset he)
  have hno : ∀ e ∈ (tree op b).members, e.node.tag ≠ .function := h.noFunction_below hb' (by simp [htag'])
  have hnone : t.parameters d.entry.node.construct = [] := noParams_parameters t _ (by rw [← Node.tag, htag']; simp)
  rw [members_tree] at hno hplain
  obtain ⟨hnop, hnob⟩ := forall_mem_cons.1 hno
  rw [hnone, List.nil_append, tree, views_plain (forall_mem_cons.1 hplain).1, noParams_parameters t _ hnop] at hd
  change (d, tree ⟨op, d.visible⟩ (b.views t.parameters ⟨d.visible, []⟩).1) ∈ t.views.subtrees at hd
  cases hg with
  | mk n =>
    generalize Slot.renamed n (tree op b).slots = rename
    have hnop' : P (op.node.construct.mapSlots rename) = [] := hP _ (by rwa [Construct.tag_mapSlots])
    have hparams : ∀ e ∈ b.members, P (e.node.construct.mapSlots rename) =
        t.parameters e.node.construct := fun e he => by
      rw [noParams_parameters t _ (hnob e he), hP _ (by rw [Construct.tag_mapSlots]; exact hnob e he)]
    have hshifted : Shifted d.visible k.visible (Block.mk d.visible []).visible (Block.mk k.visible []).visible :=
      ⟨[], rfl, rfl⟩
    obtain ⟨-, hmembers⟩ := views_copied hparams (forall_mem_cons.1 hplain).2 hshifted
    have hcopied : List.Forall₂ (View.Copied rename d.visible k.visible)
        (b.views t.parameters ⟨d.visible, []⟩).1.members
        ((b.map (Entry.copied rename)).views P ⟨k.visible, []⟩).1.members :=
      hmembers.imp fun x x' hx => ⟨by rw [hx.1]; rfl, by rw [hx.1]; rfl, hx.2⟩
    have hroot : View.Copied rename d.visible k.visible ⟨op, d.visible⟩
        ⟨.added (rename op.slot) (op.node.construct.mapSlots rename) op.node.span actions none, k.visible⟩ :=
      ⟨rfl, rfl, [], rfl, rfl⟩
    have hall := List.Forall₂.cons hroot hcopied
    rw [← members_tree, ← members_tree] at hall
    rw [tree, views, Block.visible_opened, Entry.added, hnop']
    refine every_tree.2 ⟨fun _ => ⟨d, _, hd, htag', ?_, fun hn => ?_⟩, hygienic_of_plain fun e he => ?_⟩
    · exact hall.imp fun _ _ hx => hx.repeats
    · exact hall.imp fun _ _ hx => hx.keeps (hsince hn).2
    · rw [members_map] at he
      obtain ⟨y, -, rfl⟩ := mem_map.1 he
      rfl

theorem hygienic_copies (h : t.Built source path tokens f) (hP : NoParams P) {lo : Nat} {brace : Bool} {ss : List Slot}
    (hc : Copies t (whole source path f) brace ss c) (hs : ∀ s ∈ ss, Reached t lo k.visible s) :
    Hygienic t (c.views P k).1 ∧
      (c.views P k).2 = if brace ∧ ss ≠ [] then ⟨k.visible, k.visible :: k.outer⟩ else k := by
  induction hc generalizing k with
  | nil => exact ⟨trivial, by simp⟩
  | @cons brace s ss op b g gs hop hslot hg _ ih =>
    obtain ⟨hs, hss⟩ := forall_mem_cons.1 hs
    obtain ⟨x, o, -, -, hblock⟩ := views_splice (P := P) (k := k) hg rfl
    simp only [Option.isSome_none, Bool.false_eq_true, if_false] at hblock
    have hvisible : (g.views P k).2.visible = k.visible := by rw [hblock]
    obtain ⟨hrest, hend⟩ := ih (k := (g.views P k).2) (hvisible ▸ hss)
    rw [views_append]
    refine ⟨every_append.2 ⟨hs.copy h hop hslot hP hg, hrest⟩, ?_⟩
    rw [hend, hblock]
    cases brace <;> simp

end Copies

/-! ## Resolved forests -/

section Resolves

open Tree.Built

variable {t : Tree} {tokens : List Token} {source : List UInt8} {path : Path} {whole₀ f f' : Forest Entry}
  {P P' : Construct → List Declared} {d lo hi : Nat} {V : List Declared} {p? : Option Slot}
  {scopes armed armed' : List Placed}

/-- What is armed after a list of statements `f` at level `d` that ends at `hi`, where `V` is visible: what was armed
before, what stands below a `switch`, and what is deferred in the list itself. -/
def Later (t : Tree) (d hi : Nat) (V : List Declared) (f : Forest Entry) (armed : List Placed) (a : Placed) : Prop :=
  a ∈ armed ∨ (∀ lo V, Reached t lo V a.slot) ∨ a.depth = d ∧ a.slot ∈ f.rootSlots ∧ Reached t hi V a.slot

theorem views_exit {e : Entry} {b r : Forest Entry} {exit : Exit} (he : e.Plain)
    (hx : exit? e.node.construct = some exit) (k : Block) (braces : Bool) :
    ∃ o, (node (if braces then e.mark .closed else e) b r).views P k =
      (.node ⟨if braces then e.mark .closed else e, k.visible⟩ o
        (r.views P (if braces then ⟨k.outer.headD [], k.outer.tail⟩ else k)).1,
        (r.views P (if braces then ⟨k.outer.headD [], k.outer.tail⟩ else k)).2) ∧
      ∃ k', o = (b.views P k').1 := by
  have hafter (inside : List Declared) : e.node.construct.visibleAfter e.node.span k.visible inside = k.visible := by
    cases hc : e.node.construct <;> first | rfl | simp [hc, exit?] at hx
  cases braces with
  | false =>
    simp only [Bool.false_eq_true, if_false]
    rw [views_plain he, plainAfter, hafter]
    exact ⟨_, rfl, _, rfl⟩
  | true =>
    have hopened : k.opened (e.mark .closed).node = k := by
      simp [Block.opened, Entry.mark, Mark.apply, he.actions_eq, Actions.union]
    have hclosed (k' : Block) : k'.closed (e.mark .closed).node = ⟨k'.outer.headD [], k'.outer.tail⟩ := by
      simp [Block.closed, Entry.mark, Mark.apply, he.actions_eq, Actions.union]
    simp only [if_true]
    rw [views, hopened, hclosed]
    exact ⟨_, rfl, _, rfl⟩

theorem exists_armed_of_left {exit : Exit} {s : Slot} (h : s ∈ left t scopes armed exit) : ∃ a ∈ armed, a.slot = s := by
  obtain ⟨y, hy, rfl⟩ := mem_map.1 h
  obtain ⟨x, -, hy⟩ := mem_flatMap.1 hy
  obtain ⟨a, ha, rfl⟩ := mem_map.1 hy
  exact ⟨a, (mem_filter.1 ha).1, rfl⟩

/-- A list of statements of `t` at whose start `V` is visible and `armed` is armed. Where functions start, nothing is
armed but what stands below a `switch`. -/
structure Seen (t : Tree) (P P' : Construct → List Declared) (V : List Declared) (armed : List Placed)
    (f : Forest Entry) : Prop where
  views : (f.views P ⟨V, []⟩).1.subtrees ⊆ t.views.subtrees
  params : ∀ e ∈ f.roots, P' e.node.construct = P e.node.construct
  outermost : (∀ e ∈ f.roots, e.node.tag ≠ .function) ∨
    (∀ e ∈ f.roots, e.node.tag = .function) ∧ ∀ a ∈ armed, ∀ lo V, Reached t lo V a.slot

/-- Resolving `f` leaves everything visible that was, and its copies are what they should be. -/
structure Settles (t : Tree) (P P' : Construct → List Declared) (d hi : Nat) (V : List Declared)
    (armed : List Placed) (f : Forest Entry) (armed' : List Placed) (f' : Forest Entry) : Prop where
  block : (f'.views P' ⟨V, []⟩).2 = (f.views P ⟨V, []⟩).2
  hygienic : Hygienic t (f'.views P' ⟨V, []⟩).1
  later : ∀ a ∈ armed', Later t d hi (f.views P ⟨V, []⟩).2.visible f armed a

variable {e : Entry} {b r g : Forest Entry} {W : List Declared}

theorem Later.reached {a : Placed} {D : List Declared} (h : Later t d hi (D ++ V) f armed a)
    (ha : ∀ a ∈ armed, Reached t lo V a.slot) (hle : lo ≤ hi) (hD : ∀ d ∈ D, lo ≤ d.span.start) :
    Reached t hi (D ++ V) a.slot := by
  rcases h with h | h | ⟨-, -, h⟩
  · exact (ha a h).mono hle hD
  · exact h _ _
  · exact h

namespace Seen

theorem first (h : Seen t P P' V armed (.node e b r)) (he : e.Plain) : Seen t P P' V armed (tree e b) := by
  have hv := h.views
  rw [views_plain he] at hv
  refine ⟨fun x hx => hv ?_, fun k hk => h.params k ?_, h.outermost.imp ?_ ?_⟩
  · rw [tree, views_plain he, views_nil] at hx
    simp only [subtrees, mem_cons, mem_append, not_mem_nil, or_false] at hx ⊢
    exact hx.imp_right .inl
  · exact mem_cons.2 (.inl (mem_singleton.1 hk))
  · exact fun hk k hm => hk k (mem_cons.2 (.inl (mem_singleton.1 hm)))
  · exact fun hk => ⟨fun k hm => hk.1 k (mem_cons.2 (.inl (mem_singleton.1 hm))), hk.2⟩

theorem rest (h : Seen t P P' V armed (.node e b r)) (he : e.Plain)
    (htag : t.tag e.slot = e.node.tag) (hl : ∀ a ∈ inner, Later t d mid W (tree e b) armed a) :
    Seen t P P' (plainAfter P e b V) inner r := by
  have hv := h.views
  rw [views_plain he] at hv
  refine ⟨fun x hx => hv (by simp [subtrees, hx]), (forall_mem_cons.1 h.params).2, h.outermost.imp ?_ ?_⟩
  · exact fun hk => (forall_mem_cons.1 hk).2
  · rintro ⟨hk, ha⟩
    obtain ⟨hfun, hk⟩ := forall_mem_cons.1 hk
    refine ⟨hk, fun a hm => ?_⟩
    rcases hl a hm with hm | hm | ⟨-, hslot, hm, -⟩
    · exact ha a hm
    · exact hm
    · rw [mem_singleton.1 hslot, htag, hfun] at hm
      cases hm

theorem below (h : Seen t P P' V armed (tree e b)) (hp : Passage t tokens p? lo hi (tree e b)) (hP : NoParams P)
    (hP' : NoParams P') : Seen t P P' (P e.node.construct ++ V) armed b := by
  have hv := h.views
  rw [tree, views_plain hp.plain] at hv
  refine ⟨fun x hx => hv (by simp [subtrees, hx]), fun k hk => ?_, .inl hp.noFunction⟩
  rw [hP _ (hp.noFunction k hk), hP' _ (hp.noFunction k hk)]

theorem mem (h : Seen t P P' V armed (tree e b)) (he : e.Plain) : ∃ o, (⟨e, V⟩, o) ∈ t.views.subtrees := by
  have hv := h.views
  rw [tree, views_plain he] at hv
  exact ⟨_, hv mem_cons_self⟩

theorem reached (h : Seen t P P' V armed (tree e b)) (hP : NoParams P) (ha : ∀ a ∈ armed, Reached t lo V a.slot) :
    ∀ a ∈ armed, Reached t lo (P e.node.construct ++ V) a.slot := by
  rcases h.outermost with hk | ⟨-, hl⟩
  · rw [hP _ (hk e (by simp)), List.nil_append]
    exact ha
  · exact fun a hm => hl a hm _ _

end Seen

theorem views_tree_plain (he : e.Plain) (k : Block) :
    ((tree e b).views P k).2 = { k with visible := plainAfter P e b k.visible } := by
  rw [tree, views_plain he, views_nil]

namespace Settles

theorem node {r' : Forest Entry} (hp : Passage t tokens p? mid hi r) (hP : NoParams P)
    (he : e.Plain) (h : Settles t P P' d mid V armed (tree e b) inner g)
    (hr : Settles t P P' d hi (plainAfter P e b V) inner r armed' r') :
    Settles t P P' d hi V armed (.node e b r) armed' (g ++ r') := by
  have hplain := views_tree_plain (P := P) (b := b) he ⟨V, []⟩
  obtain ⟨D, hD, hlo⟩ := hp.declares hP (plainAfter P e b V)
  have hsplit : ((Forest.node e b r).views P ⟨V, []⟩).2 = (r.views P ⟨plainAfter P e b V, []⟩).2 := by
    rw [views_plain he]
  have hblock := h.block
  rw [hplain] at hblock
  refine ⟨?_, ?_, fun a ha => ?_⟩
  · rw [views_append, hblock, hsplit]
    exact hr.block
  · rw [views_append, hblock]
    exact every_append.2 ⟨h.hygienic, hr.hygienic⟩
  · rw [hsplit]
    rcases hr.later a ha with ha | ha | ⟨hd, hm, ha⟩
    · rcases h.later a ha with ha | ha | ⟨hd, hm, ha⟩
      · exact .inl ha
      · exact .inr (.inl ha)
      · refine .inr (.inr ⟨hd, ?_, ?_⟩)
        · exact mem_cons.2 (.inl (mem_singleton.1 hm))
        · rw [hplain] at ha
          rw [hD]
          exact ha.mono hp.within.le hlo
    · exact .inr (.inl ha)
    · exact .inr (.inr ⟨hd, mem_cons_of_mem _ hm, ha⟩)

theorem next (h : Settles t P P' d mid V armed (tree e b) inner g) (hP : NoParams P)
    (hp : Passage t tokens p? lo mid (tree e b)) (hv : Seen t P P' V armed (.node e b r))
    (ha : ∀ a ∈ armed, Reached t lo V a.slot) :
    Seen t P P' (plainAfter P e b V) inner r ∧ ∀ a ∈ inner, Reached t mid (plainAfter P e b V) a.slot := by
  refine ⟨hv.rest hp.plain hp.tag_eq h.later, fun a hm => ?_⟩
  obtain ⟨D, hD, hlo⟩ := hp.plainAfter_eq hP V
  have hl := h.later a hm
  rw [views_tree_plain hp.plain, hD] at hl
  rw [hD]
  exact hl.reached ha hp.within.le hlo

theorem deferred (hp : Passage t tokens p? lo hi (tree e b)) (hv : Seen t P P' V armed (tree e b))
    (hstop : e.node.span ≠ .absent → e.node.span.stop = hi) (hd : t.tag e.slot = .deferred) :
    Settles t P P' d hi V armed (tree e b) (⟨e.slot, d⟩ :: armed)
    (tree (e.mark .removed) (b.map (.mark .removed))) := by
  have he := hp.plain
  have hc : e.node.construct = .deferred := by
    rw [← Construct.eq_deferred hd]
    exact (hp.holds.construct_eq (by simp)).symm
  have hafter : ((tree e b).views P ⟨V, []⟩).2 = ⟨V, []⟩ := by
    rw [views_tree_plain he, plainAfter, hc]
    rfl
  refine ⟨?_, hygienic_of_members fun x hx => ?_, ?_⟩
  · rw [hafter, tree, views, views_nil]
    simp [Block.opened, Block.closed, Entry.mark, Mark.apply, he.actions_eq, Node.visibleAfter]
  · rw [members_tree, members_map, mem_cons, mem_map] at hx
    rcases hx with rfl | ⟨y, -, rfl⟩ <;> simp [Entry.mark, Mark.apply]
  · refine forall_mem_cons.2 ⟨.inr (.inr ⟨rfl, by simp, hd, ?_⟩), fun a ha => .inl ha⟩
    obtain ⟨o, ho⟩ := hv.mem he
    have hshape := hp.shaped.1.2.1
    simp only [Shape, hc] at hshape
    have hle := hstop (Span.ne_absent (Nat.zero_lt_of_lt hshape.1))
    rw [hafter]
    exact ⟨_, o, ho, rfl, fun _ => ⟨hle.le, [], rfl, by simp⟩⟩

/-- A node that stays, where what is below it is as it was but for copies. -/
theorem own (hp : Passage t tokens p? lo hi (tree e b))
    (hv : Seen t P P' V armed (tree e b))
    (hblock : (b'.views P' ⟨P e.node.construct ++ V, []⟩).2 = (b.views P ⟨P e.node.construct ++ V, []⟩).2)
    (hh : Hygienic t (b'.views P' ⟨P e.node.construct ++ V, []⟩).1)
    (hl : ∀ a ∈ inner, Later t d hi (plainAfter P e b V) (tree e b) armed a) :
    Settles t P P' d hi V armed (tree e b) inner (tree e b') := by
  have he := hp.plain
  have hparams : P' e.node.construct = P e.node.construct := hv.params e (by simp)
  refine ⟨?_, ?_, by rwa [views_tree_plain he]⟩
  · rw [views_tree_plain he, views_tree_plain he, plainAfter, plainAfter, hparams, hblock]
  · rw [tree, views_plain he, views_nil, hparams]
    refine every_tree.2 ⟨fun hcopy => ?_, hh⟩
    simp [Entry.IsCopy, he.status_eq] at hcopy

theorem opens (hb : t.Built source path tokens whole₀)
    (hP : NoParams P) (hP' : NoParams P') (hp : Passage t tokens p? lo hi (tree e b))
    (hv : Seen t P P' V armed (tree e b)) (ha : ∀ a ∈ armed, Reached t lo V a.slot)
    (ho : Firing.opens (t.tag e.slot) = true)
    (h : Settles t P P' (d + 1) hi (P e.node.construct ++ V) armed b inner b')
    (hc : Copies t (whole source path whole₀) false (ended t inner ⟨e.slot, d⟩) c) :
    Settles t P P' d hi V armed (tree e b) (inner.filter (·.depth != d + 1)) (tree e (b' ++ c)) := by
  have hd := hp.not_deferred_of_opens ho
  -- At the end of the scope, everything that is armed is reached.
  obtain ⟨D, hD, hlo⟩ := (hp.below hd).declares hP (P e.node.construct ++ V)
  have hend : ∀ s ∈ ended t inner ⟨e.slot, d⟩,
      Reached t hi (b'.views P' ⟨P e.node.construct ++ V, []⟩).2.visible s := by
    intro s hs
    unfold ended at hs
    split at hs
    · obtain ⟨a, hm, rfl⟩ := mem_map.1 hs
      have hl := h.later a (mem_filter.1 hm).1
      rw [hD] at hl
      rw [h.block, hD]
      exact hl.reached (hv.reached hP ha) hp.within.le hlo
    · cases hs
  obtain ⟨hcopies, hblock⟩ := hygienic_copies hb hP' hc hend
  simp only [Bool.false_eq_true, false_and, if_false] at hblock
  refine own hp hv ?_ ?_ fun a hm => ?_
  · rw [views_append, hblock, h.block]
  · rw [views_append]
    exact every_append.2 ⟨h.hygienic, hcopies⟩
  · obtain ⟨hm, hdepth⟩ := mem_filter.1 hm
    rcases h.later a hm with hm | hm | ⟨hm, -⟩
    · exact .inl hm
    · exact .inr (.inl hm)
    · simp [hm] at hdepth

/-- A node that is no scope; what is deferred directly below it is below a `switch`. -/
theorem passes (hp : Passage t tokens p? lo hi (tree e b))
    (hv : Seen t P P' V armed (tree e b)) (ho : Firing.opens (t.tag e.slot) = false)
    (h : Settles t P P' (d + 1) hi (P e.node.construct ++ V) armed b inner b') :
    Settles t P P' d hi V armed (tree e b) inner (tree e b') := by
  refine own hp hv h.block h.hygienic fun a hm => ?_
  rcases h.later a hm with hm | hm | ⟨-, hslot, hreached⟩
  · exact .inl hm
  · exact .inr (.inl hm)
  · obtain ⟨k, hk, hks⟩ := mem_map.1 hslot
    have hb : t.Holds (some e.slot) b := hp.holds.2.1
    have hdeferred : k.node.tag = .deferred := by
      rw [← hb.tag_eq (mem_members_of_mem_roots hk), hks]
      exact hreached.1
    have hswitch : t.tag e.slot = .switch := by
      rw [hp.tag_eq] at ho ⊢
      exact (Shape.owns hp.shaped.1.2.1 hk hdeferred).resolve_left (by simp [ho])
    have hin : t.inSwitch a.slot = true := by
      rw [← hks]
      simp [Tree.inSwitch, hb.parent_root (mem_map_of_mem hk), hswitch]
    exact .inr (.inl (hreached.of_inSwitch hin))

theorem exit {k : Block} {exit : Exit} {c' : Forest Entry} (braces : Bool) (hp : Passage t tokens p? lo hi (tree e b))
    (hx : exit? (t.construct e.slot) = some exit) (hc : Hygienic t (c.views P' ⟨V, []⟩).1)
    (hk : (c.views P' ⟨V, []⟩).2 = k) (hblock : (if braces then ⟨k.outer.headD [], k.outer.tail⟩ else k) = ⟨V, []⟩)
    (hc' : ∀ e ∈ c'.members, e.node.status ≠ .added) :
    Settles t P P' d hi V armed (tree e b) armed (c ++ tree (if braces then e.mark .closed else e) c') := by
  have he := hp.plain
  have hconstruct : t.construct e.slot = e.node.construct := hp.holds.construct_eq (by simp)
  rw [hconstruct] at hx
  obtain ⟨_, hown, -⟩ := views_exit (P := P) (b := b) (r := .nil) he hx ⟨V, []⟩ false
  obtain ⟨_, hjump, k', rfl⟩ := views_exit (P := P') (b := c') (r := .nil) he hx k braces
  refine ⟨?_, ?_, fun a ha => .inl ha⟩
  · rw [views_append, hk, tree, hjump, hblock]
    exact (congrArg Prod.snd hown).symm
  · rw [views_append, hk, tree, hjump]
    refine every_append.2 ⟨hc, fun hcopy => ?_, hygienic_of_members hc', trivial⟩
    have hstatus := hcopy.1
    revert hstatus
    cases braces
    · simp [he.status_eq]
    · simp [Entry.mark, Mark.apply]

theorem leaves {exit : Exit} (hb : t.Built source path tokens whole₀) (hP' : NoParams P')
    (hp : Passage t tokens p? lo hi (tree e b)) (ha : ∀ a ∈ armed, Reached t lo V a.slot)
    (hx : exit? (t.construct e.slot) = some exit) (hne : left t scopes armed exit ≠ []) {braces : Bool}
    (hc : Copies t (whole source path whole₀) braces (left t scopes armed exit) c) :
    Settles t P P' d hi V armed (tree e b) armed (c ++ tree (if braces then e.mark .closed else e) b) := by
  obtain ⟨hcopies, hblock⟩ := hygienic_copies (k := ⟨V, []⟩) hb hP' hc fun s hs => by
    obtain ⟨a, hm, rfl⟩ := exists_armed_of_left hs
    exact ha a hm
  refine Settles.exit braces hp hx hcopies hblock ?_ fun x hm => ?_
  · cases braces <;> simp [hne]
  · have hplain : x.Plain := hp.plain_of_mem (by simp [hm])
    simp [hplain.status_eq]

theorem stores {v : Entry} {k : Forest Entry} {type : String}
    (hb : t.Built source path tokens whole₀) (hP' : NoParams P') (hp : Passage t tokens p? lo hi (tree e (tree v k)))
    (ha : ∀ a ∈ armed, Reached t lo V a.slot) (hx : t.construct e.slot = .returned (some v.slot))
    (hg : Splice v k { braceBefore := true } (some (declares type)) g)
    (hc : Copies t (whole source path whole₀) false (left t scopes armed .returned) c) :
    Settles t P P' d hi V armed (tree e (tree v k)) armed
      (g ++ (c ++ tree (e.mark .closed) (tree (v.mark (.replaced storedValue)) k))) := by
  have hconstruct : t.construct e.slot = e.node.construct := hp.holds.construct_eq (by simp)
  -- The stored value is declared in front of the copies.
  have hpresent : v.node.span ≠ .absent := Shape.present_of_returned hp.shaped.1.2.1 (hconstruct ▸ hx)
  have hstart : lo ≤ v.node.span.start :=
    ((within_present hpresent).1 (hp.below (by simp [Node.tag, ← hconstruct, hx, Construct.tag])).within).1
  obtain ⟨x, o, hviews, hlead, hvalue⟩ := views_splice (P := P') (k := ⟨V, []⟩) hg rfl
  have hstored : Hygienic t (g.views P' ⟨V, []⟩).1 := by
    cases hg with
    | mk n =>
      rw [tree, views, Block.visible_opened]
      refine every_tree.2 ⟨fun hcopy => ?_, hygienic_of_plain fun y hy => ?_⟩
      · simp [Entry.IsCopy, Entry.added] at hcopy
      · rw [members_map] at hy
        obtain ⟨z, -, rfl⟩ := mem_map.1 hy
        rfl
  have hreached : ∀ s ∈ left t scopes armed .returned, Reached t lo (g.views P' ⟨V, []⟩).2.visible s := fun s hs => by
    obtain ⟨a, hm, rfl⟩ := exists_armed_of_left hs
    rw [hvalue]
    exact (ha a hm).mono (D := [⟨storedValue, v.node.span⟩]) le_rfl (by simpa using hstart)
  obtain ⟨hcopies, hblock⟩ := hygienic_copies hb hP' hc hreached
  have hexit : exit? (t.construct e.slot) = some .returned := by rw [hx]; rfl
  rw [← append_assoc]
  refine Settles.exit true hp hexit ?_ rfl ?_ ?_
  · rw [views_append]
    exact every_append.2 ⟨hstored, hcopies⟩
  · rw [views_append, hblock, hvalue]
    simp
  · simp only [members_tree, forall_mem_cons]
    refine ⟨by simp [Entry.mark, Mark.apply], fun y hy => ?_⟩
    have hplain : y.Plain := hp.plain_of_mem (by simp [hy])
    simp [hplain.status_eq]

end Settles

/-- Resolving a list of statements leaves everything visible that was, and puts copies only where names mean what they
mean in the deferred statement, or something that was declared since. -/
theorem Firing.Resolves.settles (hb : t.Built source path tokens whole₀) (hP : NoParams P) (hP' : NoParams P')
    (h : Resolves t (whole source path whole₀) d scopes armed f armed' f') (hp : Passage t tokens p? lo hi f)
    (hv : Seen t P P' V armed f) (ha : ∀ a ∈ armed, Reached t lo V a.slot) :
    Settles t P P' d hi V armed f armed' f' := by
  induction h generalizing p? lo hi V with
  | nil => exact ⟨rfl, trivial, fun a ha => .inl ha⟩
  | @deferred d _ _ _ _ _ _ _ hd _ ih =>
    obtain ⟨mid, he, hr, hstop⟩ := hp.split
    have hfirst := Settles.deferred (d := d) he (hv.first hp.plain) hstop hd
    obtain ⟨hv', ha'⟩ := hfirst.next hP he hv ha
    exact hfirst.node hr hP hp.plain (ih hr hv' ha')
  | opens ho _ hc _ ihb ihr =>
    obtain ⟨mid, he, hr, -⟩ := hp.split
    have hv₁ := hv.first hp.plain
    have hbelow := ihb (he.below (he.not_deferred_of_opens ho)) (hv₁.below he hP hP') (hv₁.reached hP ha)
    have hfirst := Settles.opens hb hP hP' he hv₁ ha ho hbelow hc
    obtain ⟨hv', ha'⟩ := hfirst.next hP he hv ha
    exact hfirst.node hr hP hp.plain (ihr hr hv' ha')
  | passes hd ho _ _ _ ihb ihr =>
    obtain ⟨mid, he, hr, -⟩ := hp.split
    have hv₁ := hv.first hp.plain
    have hbelow := ihb (he.below (he.tag_eq ▸ hd)) (hv₁.below he hP hP') (hv₁.reached hP ha)
    have hfirst := Settles.passes he hv₁ ho hbelow
    obtain ⟨hv', ha'⟩ := hfirst.next hP he hv ha
    exact hfirst.node hr hP hp.plain (ihr hr hv' ha')
  | @leaves d _ _ _ _ _ _ _ _ _ hx hne _ hc _ ih =>
    obtain ⟨mid, he, hr, -⟩ := hp.split
    have hfirst := Settles.leaves (P := P) (d := d) hb hP' he ha hx hne hc
    obtain ⟨hv', ha'⟩ := hfirst.next hP he hv ha
    have hnode := hfirst.node hr hP hp.plain (ih hr hv' ha')
    rwa [append_assoc] at hnode
  | @stores d _ _ _ _ _ _ _ _ _ _ _ hx _ _ hg hc _ ih =>
    obtain ⟨mid, he, hr, -⟩ := hp.split
    have hfirst := Settles.stores (P := P) (d := d) hb hP' he ha hx hg hc
    obtain ⟨hv', ha'⟩ := hfirst.next hP he hv ha
    have hnode := hfirst.node hr hP hp.plain (ih hr hv' ha')
    rwa [append_assoc, append_assoc] at hnode

end Resolves

/-! ## Trees of sources -/

section Whole

open Tree.Built

variable {t : Tree} {tokens : List Token} {source : List UInt8} {path : Path} {whole₀ f f' : Forest Entry} {d : Nat}
  {scopes armed armed' : List Placed}

theorem Forest.marked_mem_edited (cs : List Change) {e : Entry} (he : e ∈ f.members) :
    e.marked cs ∈ (f.edited cs).members := by
  induction f with
  | nil => cases he
  | node x b r ihb ihr =>
    simp only [edited, members_append, members_node, mem_append, mem_cons] at he ⊢
    rcases he with rfl | he | he
    · exact .inr (.inl rfl)
    · exact .inr (.inr (.inl (.inl (ihb he))))
    · exact .inr (.inr (.inr (ihr he)))

namespace Tree.Built

variable (h : t.Built source path tokens f)

include h

theorem resolve_keeps {e : Entry} (he : e ∈ (whole source path f).members) :
    (resolve t).tree.construct e.slot = t.construct e.slot ∧ (resolve t).tree.span e.slot = t.span e.slot := by
  obtain ⟨dss, -, hstage⟩ := (stage_start h).applyAll (fits_plan h)
  have he' := marked_mem_edited ([] ++ dss.flatten) he
  obtain ⟨hc, hspan⟩ := Change.marked_construct_span e.slot ([] ++ dss.flatten) e.node
  exact ⟨(hstage.stands.holds.construct_eq he').trans (hc.trans (h.stands.holds.construct_eq he).symm),
    (hstage.stands.holds.span_eq he').trans (hspan.trans (h.stands.holds.span_eq he).symm)⟩

theorem parameters_resolved (ho : Outside t (whole source path f) (resolve t).tree) {e : Entry} (he : e ∈ f.roots) :
    (resolve t).tree.parameters e.node.construct = t.parameters e.node.construct := by
  have hsame : ∀ u ∈ e.node.construct.params, (resolve t).tree.construct u = t.construct u ∧
      (resolve t).tree.span u = t.span u := by
    intro u hu
    have hslot := (h.stands.bound e.slot (by simp [mem_slots (mem_members_of_mem_roots he)])).2
    have hlt : u.index < t.size := (h.params e he u hu).trans hslot
    by_cases hm : u ∈ (whole source path f).slots
    · obtain ⟨x, hx, rfl⟩ := mem_map.1 hm
      exact h.resolve_keeps hx
    · rw [Tree.construct, Tree.span, ho u hlt hm]
      exact ⟨rfl, rfl⟩
  unfold Tree.parameters
  refine filterMap_congr fun u hu => ?_
  obtain ⟨hc, hspan⟩ := hsame u (mem_reverse.1 hu)
  rw [hc, hspan]

variable (hr : Resolves t (whole source path f) 1 [] [] f armed f')
  (hs : (resolve t).tree.Stands none 0 (whole source path f'))

include hr

theorem unlinked_resolved : ∀ e ∈ (whole source path f').members, e.unlinked = e := by
  have hsub : f.subtrees ⊆ (whole source path f).subtrees := by simp [whole, tree, subtrees]
  have hplain (e : Entry) (he : e.Plain) (m : Mark) : (e.mark m).unlinked = e.mark m := by
    rw [he]
    cases m <;> rfl
  simp only [whole, members_tree, forall_mem_cons]
  refine ⟨rfl, hr.forall_members hsub (fun e he => ?_) fun {op b g _ _} hop _ hg => ?_⟩
  · have he' : e.Plain := h.plain_of_mem (by simp [he])
    exact ⟨by rw [he']; rfl, hplain e he' _, hplain e he' _, fun _ => hplain e he' _⟩
  · cases hg with
    | mk n =>
      rw [members_tree, members_map, forall_mem_cons, forall_mem_map]
      exact ⟨rfl, fun _ _ => rfl⟩

include hs

theorem hygienic_resolved (ho : Outside t (whole source path f) (resolve t).tree) :
    Hygienic t (resolve t).tree.views := by
  have hviews : t.views = tree ⟨.fresh .root (.unit path) ⟨0, source.length⟩, []⟩
      (f.views t.parameters ⟨[], []⟩).1 := by
    rw [h.views_eq, whole, tree, views_plain (Entry.plain_fresh ..), views_nil]
    rfl
  have hshape : ∀ e ∈ f.roots, e.node.tag = .function := h.shaped.1.2.1.2
  have hp : Passage t tokens (some .root) 0 source.length f :=
    ⟨h.stands.holds.2.1, h.shaped.2.1, h.within, fun e he => by simp [hshape e he], fun e he hd => by
      simp [hshape e he] at hd⟩
  have hv : Seen t t.parameters (resolve t).tree.parameters [] [] f :=
    ⟨by rw [hviews]; simp [tree, subtrees], fun e he => h.parameters_resolved ho he, .inr ⟨hshape, by simp⟩⟩
  have hsettles := hr.settles h (noParams_parameters _) (noParams_parameters _) hp hv (by simp)
  rw [Tree.views_eq hs rfl (h.unlinked_resolved hr), whole, tree, views_plain (Entry.plain_fresh ..),
    views_nil]
  exact every_tree.2 ⟨fun hc => absurd hc.1 (by simp [Entry.fresh]), hsettles.hygienic⟩

end Tree.Built

end Whole

open Assembly

/-- The copies in the resolved tree of a source repeat operations of deferred statements, and names mean there what they
mean in the statement, or something that is declared after it. -/
theorem hygienic_of_build {source : List UInt8} {path : Path} {t : Tree} (h : ((start path).build source).1 = .ok t) :
    ∀ x b, (x, b) ∈ (resolve t).tree.views.subtrees → x.entry.IsCopy → CopyOf t x b := by
  obtain ⟨tokens, f, hb⟩ := exists_built h
  obtain ⟨armed, f', hr, hs, ho⟩ := exists_resolves hb
  exact every_iff.1 (hb.hygienic_resolved hr hs ho)

/-- A name that is declared again in an inner block, before a jump out of it. -/
def declaredAgain : List UInt8 := Utf8.encode "void f()\x7b int x; defer g(x); \x7b int x; return; \x7d \x7d"

set_option maxRecDepth 100000 in
theorem hygienic_declaredAgain : ∃ t, ((start []).build declaredAgain).1 = .ok t ∧
    ((resolve t).tree.views.subtrees.filter fun (x, _) => x.entry.node.status = .added).length = 2 ∧
    ∀ x b, (x, b) ∈ (resolve t).tree.views.subtrees → x.entry.IsCopy → CopyOf t x b := by
  obtain ⟨t, ht, hcheck⟩ := exists_tree_of_check [] declaredAgain
    (fun t => ((resolve t).tree.views.subtrees.filter fun (x, _) => x.entry.node.status = .added).length = 2)
    (by decide +kernel)
  exact ⟨t, ht, of_decide_eq_true hcheck, hygienic_of_build ht⟩

set_option maxRecDepth 100000 in
/-- In the deferred statement the name means the outer declaration, in the copy before the jump the inner one. -/
theorem not_same_declaredAgain : ∃ t, ((start []).build declaredAgain).1 = .ok t ∧
    (∃ x b, (x, b) ∈ (resolve t).tree.views.subtrees ∧ x.entry.node.status = .added ∧ x.entry.node.lead? = none ∧
      ∃ y ∈ (tree x b).members, y.identifier? = some "x" ∧ y.binding? "x" = some ⟨"x", ⟨30, 37⟩⟩) ∧
    ∀ d o, (d, o) ∈ t.views.subtrees → d.entry.node.tag = .deferred →
      ∀ y ∈ o.members, y.identifier? = some "x" → y.binding? "x" = some ⟨"x", ⟨9, 16⟩⟩ := by
  obtain ⟨t, ht, hcheck⟩ := exists_tree_of_check [] declaredAgain
    (fun t => ((resolve t).tree.views.subtrees.any fun (x, b) => x.entry.node.status = .added ∧
        x.entry.node.lead? = none ∧
        (tree x b).members.any fun y => y.identifier? = some "x" ∧ y.binding? "x" = some ⟨"x", ⟨30, 37⟩⟩) &&
      t.views.subtrees.all fun (d, o) => d.entry.node.tag = .deferred →
        o.members.all fun y => y.identifier? = some "x" → y.binding? "x" = some ⟨"x", ⟨9, 16⟩⟩)
    (by decide +kernel)
  simp only [Bool.and_eq_true, any_eq_true, all_eq_true, decide_eq_true_eq] at hcheck
  obtain ⟨⟨⟨x, b⟩, hmem, hadded, hlead, y, hy⟩, hall⟩ := hcheck
  exact ⟨t, ht, ⟨x, b, hmem, hadded, hlead, y, hy⟩, fun d o hm => hall (d, o) hm⟩

end Deferral
