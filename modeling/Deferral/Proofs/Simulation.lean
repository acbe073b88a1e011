import Deferral.Proofs.Covering
import Deferral.Proofs.Pending

/-!
# Resolved lists follow

A list of statements does what it did before deferred statements were put in place (`Firing.Resolves.follows`): what is
pending in one is armed in the other. `Firing.Simulates` says so of one list, whichever way it is entered; there is a
lemma for each sort of statement.
-/

namespace Deferral

/-- The node of an entry, without links. -/
def Entry.bare (e : Entry) : Node := e.unlinked.node

section Bare

variable (e : Entry)

@[simp] theorem Entry.construct_bare : e.bare.construct = e.node.construct := rfl

@[simp] theorem Entry.tag_bare : e.bare.tag = e.node.tag := rfl

@[simp] theorem Entry.span_bare : e.bare.span = e.node.span := rfl

@[simp] theorem Entry.status_bare : e.bare.status = e.node.status := rfl

@[simp] theorem Entry.replacement?_bare : e.bare.replacement? = e.node.replacement? := rfl

@[simp] theorem Entry.action_bare : e.bare.action = e.node.action := rfl

end Bare

theorem Entry.Plain.isRun {e : Entry} (h : e.Plain) : e.bare.IsRun := .inl h.status_eq

namespace Firing

open Forest

variable {t : Tree} {whole f f' b b' c g r r' : Forest Entry} {d : Nat} {scopes armed armed' inner : List Placed}
  {e e' v : Entry} {exit : Exit} {tokens : List Token} {fn s : Slot} {p? : Option Slot} {ds : List Nat}

/-! ## What is added -/

theorem Splice.action_eq {actions : Actions} {lead? : Option String} (h : Splice e b actions lead? g) :
    (g.map Entry.bare).roots.map Node.action = [e.node.action] := by
  cases h with
  | mk n => simp [tree, Node.action, Node.tag, Entry.added, Construct.tag_mapSlots]

theorem Copies.actions_eq {brace : Bool} {ss : List Slot} (h : Copies t whole brace ss c) (hw : t.Holds none whole) :
    (c.map Entry.bare).roots.map Node.action = fired t ss := by
  induction h with
  | nil => rfl
  | @cons _ s ss op b g gs hm hop hg _ ih =>
    have hmem : op ∈ whole.members := (members_sublist hm).subset (by simp)
    rw [map_append, roots_append, List.map_append, hg.action_eq, ih, fired, fired, List.map_cons, ← hop, hw.tag_eq hmem,
      hw.span_eq hmem]
    rfl

theorem status_bare_of_added (h : c.Added) : ∀ n ∈ (c.map Entry.bare).roots, n.status = .added := by
  intro n hn
  rw [roots_map] at hn
  obtain ⟨e, he, rfl⟩ := List.mem_map.1 hn
  exact h e he

theorem runList_copies {brace : Bool} {ss : List Slot} (h : Copies t whole brace ss c) (hw : t.Holds none whole)
    (g : Forest Node) : runList true (c.map Entry.bare ++ g) .all [] ds =
      (Run.acts (fired t ss) ds).andThen [] (runList true g .all []) := by
  rw [runList_added_append (status_bare_of_added h.added), h.actions_eq hw]

/-! ## Jumps -/

theorem runStatement_exit {n : Node} {below : Forest Node} (h : exit? n.construct = some exit)
    (block : Mode → List Nat → Run) :
    runStatement n below block ds = .leaves (if exit = .returned then valueActions below else []) exit ds := by
  unfold runStatement
  cases hc : n.construct with
  | returned =>
    cases h.symm.trans (congrArg exit? hc)
    rfl
  | jump kind =>
    cases kind <;> cases h.symm.trans (congrArg exit? hc) <;> rfl
  | _ => simp [hc, exit?] at h

theorem exit?_ne_scopeEnd {construct : Construct} (h : exit? construct = some exit) : exit ≠ .scopeEnd := by
  rintro rfl
  cases construct with
  | jump kind => cases kind <;> simp [exit?] at h
  | _ => simp [exit?] at h

theorem all_isConstantIn (h : t.Holds p? f) {n : Nat} (hn : f.members.length ≤ n) :
    f.rootSlots.all (isConstantIn t n) = areConstants (f.map Entry.bare) := by
  induction f generalizing p? n with
  | nil => rfl
  | node e b r ihb ihr =>
    rw [length_node] at hn
    obtain ⟨m, rfl⟩ : ∃ m, n = m + 1 := ⟨n - 1, by omega⟩
    rw [rootSlots_node, List.all_cons, ihr h.2.2 (by omega), isConstantIn, h.children_eq, ihb h.2.1 (by omega),
      h.construct_eq (e := e) (by simp), map_node, areConstants]
    rfl

theorem isConstant_eq (h : t.Holds p? f) (hn : f.members.length ≤ t.size) (hv : f.rootSlots = [s]) :
    isConstant t s = areConstants (f.map Entry.bare) := by
  rw [← all_isConstantIn h hn, hv]
  simp [isConstant]

section

variable (h : Resolves t whole d scopes armed f armed' f')
include h

theorem Resolves.operands
    (hf : ∀ s ∈ f.slots, (t.tag s).isOperand = true) : f' = f := by
  induction h with
  | nil => rfl
  | passes _ _ _ _ _ ihb ihr => rw [ihb fun s hs => hf s (by simp [hs]), ihr fun s hs => hf s (by simp [hs])]
  | deferred hd => exact absurd hd (isOperand_passes (hf _ (by simp))).1
  | @opens _ _ _ _ _ e _ _ _ _ _ ho => simp [(isOperand_passes (hf e.slot (by simp))).2.1] at ho
  | @leaves _ _ _ _ _ e _ _ _ _ hx => simp [(isOperand_passes (hf e.slot (by simp))).2.2] at hx
  | @stores _ _ _ _ _ e _ _ _ _ _ _ hx =>
    have hnone := (isOperand_passes (hf e.slot (by simp))).2.2
    rw [hx] at hnone
    cases hnone

/-! ## Resolved lists -/

theorem Resolves.armed_same
    (hset : Setting t tokens fn p? d scopes armed f) (hd : ∀ s ∈ f.rootSlots, t.tag s ≠ .deferred) :
    armed' = armed := by
  rw [h.armed_after hset.proper.armable hset.depth_armed, arming_eq_nil hd, List.nil_append]

theorem Resolves.unpending (ht : t.Holds p? f) :
    Unpending (f'.map Entry.bare) := by
  have hkept {e : Entry} {b r : Forest Entry} (ht : t.Holds p? (.node e b r)) (hd : t.tag e.slot ≠ .deferred) :
      e.node.tag ≠ .deferred := ht.tag_eq (e := e) (by simp) ▸ hd
  induction h with
  | nil => simp [Unpending]
  | deferred _ _ ih => exact unpending_node.2 ⟨fun _ => .inl rfl, ih ht.2.2⟩
  | opens ho _ _ _ _ ih =>
    have hd := hkept ht fun hd => by simp [hd, Firing.opens] at ho
    exact unpending_node.2 ⟨fun h => absurd h hd, ih ht.2.2⟩
  | passes hd _ _ _ _ _ ih => exact unpending_node.2 ⟨fun h => absurd h (hkept ht hd), ih ht.2.2⟩
  | leaves hx _ _ hc _ ih =>
    have hd := hkept ht (exit?_passes (by rw [hx]; rfl)).1
    rw [map_append, unpending_append]
    refine ⟨unpending_added (status_bare_of_added hc.added), unpending_node.2 ⟨fun h => absurd h ?_, ih ht.2.2⟩⟩
    split <;> exact hd
  | stores hx _ _ hg hc _ ih =>
    have hd := hkept ht (exit?_passes (by rw [hx]; rfl)).1
    rw [map_append, unpending_append, map_append, unpending_append]
    exact ⟨unpending_added (status_bare_of_added hg.added), unpending_added (status_bare_of_added hc.added),
      unpending_node.2 ⟨fun h => absurd h hd, ih ht.2.2⟩⟩

theorem Resolves.ownRoots_eq (hs : Shaped tokens f) :
    ownRoots (f'.map Entry.bare) = ownRoots (f.map Entry.bare) := by
  have hclean {e : Entry} {b r : Forest Entry} (hs : Shaped tokens (.node e b r)) : e.bare.status ≠ .added := by
    simp [hs.1.1.status_eq]
  induction h with
  | nil => rfl
  | deferred _ _ ih =>
    rw [map_node, ownRoots_node (by simp [Entry.mark, Mark.apply]), ih hs.2.2, map_node, ownRoots_node (hclean hs)]
    rfl
  | opens _ _ _ _ _ ih | passes _ _ _ _ _ _ ih =>
    rw [map_node, ownRoots_node (hclean hs), ih hs.2.2, map_node, ownRoots_node (hclean hs)]
  | leaves _ _ _ hc _ ih =>
    rw [map_append, ownRoots_append, ownRoots_added (status_bare_of_added hc.added), List.nil_append,
      map_node, map_node,
      ownRoots_node (hclean hs), ← ih hs.2.2]
    split
    · exact ownRoots_node (by simp [Entry.mark, Mark.apply])
    · exact ownRoots_node (hclean hs)
  | stores _ _ _ hg hc _ ih =>
    rw [map_append, ownRoots_append, ownRoots_added (status_bare_of_added hg.added), List.nil_append, map_append,
      ownRoots_append, ownRoots_added (status_bare_of_added hc.added), List.nil_append, map_node, map_node,
      ownRoots_node (hclean hs), ← ih hs.2.2]
    exact ownRoots_node (by simp [Entry.mark, Mark.apply])

end

theorem tag_ne_of_isTwoWay (h : t.Holds p? f) (hs : Shaped tokens f) (htwo : isTwoWay (f.map Entry.bare) = true) :
    ∀ s ∈ f.rootSlots, t.tag s ≠ .deferred := by
  intro s hslot hd
  obtain ⟨k, hk, rfl⟩ := List.mem_map.1 hslot
  have hmem := mem_members_of_mem_roots hk
  obtain ⟨_, hplain, -⟩ := hs.exists_below hmem
  have hown : (k.node.tag, k.node.span) ∈ ownRoots (f.map Entry.bare) := by
    refine List.mem_map.2 ⟨k.bare, List.mem_filter.2 ⟨?_, ?_⟩, rfl⟩
    · rw [roots_map]
      exact List.mem_map_of_mem hk
    · rw [Entry.status_bare, hplain.status_eq]
      rfl
  rw [h.tag_eq hmem] at hd
  rw [isTwoWay] at htwo
  split at htwo
  next heq => simp [heq, hd] at hown
  next => cases htwo

theorem exists_jumps (h : t.Holds p? f) (hs : Shaped tokens f) (hc : t.children s = f.rootSlots)
    (hf : fallsOffEnd t s = false) : ∃ n ∈ (f.map Entry.bare).roots, n.Jumps := by
  rw [fallsOffEnd, hc] at hf
  cases hl : f.rootSlots.reverse.find? fun s => t.tag s != .deferred && t.tag s != .group with
  | none => simp [hl] at hf
  | some last =>
    simp only [hl] at hf
    obtain ⟨k, hk, rfl⟩ := List.mem_map.1 (List.mem_reverse.1 (List.mem_of_find?_eq_some hl))
    have hmem := mem_members_of_mem_roots hk
    obtain ⟨_, hplain, -⟩ := hs.exists_below hmem
    rw [h.tag_eq hmem] at hf
    refine ⟨k.bare, by simpa using ⟨k, hk, rfl⟩, hplain.isRun, ?_⟩
    by_cases hr : k.node.tag = .returned
    · exact .inl hr
    · simpa [hr] using hf

/-! ## Entering lists -/

/-- How a list of statements is entered, and what jumps out of it fire beyond it. -/
inductive Enters (t : Tree) (d : Nat) (scopes armed : List Placed) (ss : List Slot) : Mode → (Exit → List Action) → Prop
  | all {beyond : Exit → List Action} (h : Surrounded t d scopes armed ss beyond) :
    Enters t d scopes armed ss .all beyond
  /-- At a label of a `switch`. -/
  | fromLabel (k : Nat) (ha : ∀ a ∈ armed, a.depth < d) (hd : ∀ s ∈ ss, t.tag s ≠ .deferred)
    (hl : ss.Pairwise fun s s' => t.tag s = .caseLabel → t.tag s' = .caseLabel) :
    Enters t d scopes armed ss (.fromLabel k)
      fun exit => if exit = .break then [] else fired t (left t scopes armed exit)
  /-- At one of two alternatives. -/
  | oneScope (k : Nat) (ha : ∀ a ∈ armed, a.depth < d) (hd : ∀ s ∈ ss, t.tag s ≠ .deferred) :
    Enters t d scopes armed ss (.oneScope k) fun exit => fired t (left t scopes armed exit)

/-- However it is entered, the second list does what the first does. -/
def Simulates (t : Tree) (d : Nat) (scopes armed : List Placed) (f : Forest Entry) (armed' : List Placed)
    (f' : Forest Entry) : Prop :=
  ∀ ⦃mode : Mode⦄ ⦃beyond : Exit → List Action⦄, Enters t d scopes armed f.rootSlots mode beyond → ∀ ds : List Nat,
    Follows (fired t (armedAt d armed')) beyond (runList false (f.map Entry.bare) mode (fired t (armedAt d armed)) ds)
      (runList true (f'.map Entry.bare) mode [] ds)

theorem Simulates.node (hset : Setting t tokens fn p? d scopes armed (.node e b r)) (hd : t.tag e.slot ≠ .deferred)
    (hr : Resolves t whole d scopes armed r armed' r') (hsim : Simulates t d scopes armed r armed' r')
    (he : e'.node.construct = e.node.construct) (hrun : e'.bare.IsRun) (hc : c.Added)
    (ho : opens (t.tag e.slot) = true → c = .nil)
    (hs : ∀ ds, Follows [] (firedBy t e.slot scopes armed)
      (runStatement e.bare (b.map Entry.bare) (runBlock false (b.map Entry.bare)) ds)
      ((Run.acts ((c.map Entry.bare).roots.map Node.action) ds).andThen []
        (runStatement e'.bare (b'.map Entry.bare) (runBlock true (b'.map Entry.bare))))) :
    Simulates t d scopes armed (.node e b r) armed' (c ++ .node e' b' r') := by
  intro mode beyond hm ds
  have htag : t.tag e.slot = e.bare.tag := hset.holds.tag_eq (by simp)
  have htag' : t.tag e.slot = e'.bare.tag := htag.trans (congrArg Construct.tag he).symm
  have hisRun : e.bare.IsRun := hset.shaped.1.1.isRun
  have hadded := status_bare_of_added hc
  have hall {beyond : Exit → List Action} (h : Surrounded t d scopes armed (e.slot :: r.rootSlots) beyond) :=
    (hs ds).andThen (fun exit _ => h.split exit) fun ds => hsim (.all h.rest) ds
  rw [map_append, map_node, map_node]
  cases hm with
  | all h =>
    have hnext : runList true (.node e'.bare (b'.map Entry.bare) (r'.map Entry.bare)) .all [] = fun ds =>
        (runStatement e'.bare (b'.map Entry.bare) (runBlock true (b'.map Entry.bare)) ds).andThen []
          (runList true (r'.map Entry.bare) .all []) := funext fun _ => runList_statement hrun (htag' ▸ hd)
    rw [runList_statement hisRun (htag ▸ hd), runList_added_append hadded, hnext, ← Run.andThen_assoc]
    exact hall h
  | fromLabel k ha hds hl =>
    obtain ⟨hl, hls⟩ := List.pairwise_cons.1 hl
    have hrest := fun k => hsim (.fromLabel k ha (List.forall_mem_cons.1 hds).2 hls) ds
    rw [runList_added_append_skip hadded (show Mode.fromLabel k ≠ .all from nofun)]
    by_cases hlabel : t.tag e.slot = .caseLabel
    · obtain rfl := ho (by rw [hlabel]; rfl)
      cases k with
      | zero =>
        rw [runList_fromLabel_zero hisRun (htag ▸ hlabel), runList_fromLabel_zero hrun (htag' ▸ hlabel)]
        exact hall (.labels (List.forall_mem_cons.2 ⟨hlabel, fun s hs => hl s hs hlabel⟩) ha fun _ => rfl)
      | succ k =>
        rw [runList_fromLabel_succ hisRun (htag ▸ hlabel), runList_fromLabel_succ hrun (htag' ▸ hlabel)]
        exact hrest k
    · rw [runList_fromLabel_skip hisRun (htag ▸ hlabel), runList_fromLabel_skip hrun (htag' ▸ hlabel)]
      exact hrest k
  | oneScope k ha hds =>
    have hrest := fun k => hsim (.oneScope k ha (List.forall_mem_cons.1 hds).2) ds
    rw [runList_added_append_skip hadded (show Mode.oneScope k ≠ .all from nofun)]
    by_cases hscope : t.tag e.slot = .scope
    · obtain rfl := ho (by rw [hscope]; rfl)
      cases k with
      | zero =>
        have hend : armedAt d armed' = [] := by
          rw [hr.armed_same hset.rest (List.forall_mem_cons.1 hds).2, armedAt_eq_nil ha]
        rw [runList_oneScope_zero hisRun (htag ▸ hscope), runList_oneScope_zero hrun (htag' ▸ hscope), hend]
        exact (hs ds).congr fun exit _ => (firedBy_eq (by simp [hscope])).symm
      | succ k =>
        rw [runList_oneScope_succ hisRun (htag ▸ hscope), runList_oneScope_succ hrun (htag' ▸ hscope)]
        exact hrest k
    · rw [runList_oneScope_skip hisRun (htag ▸ hscope), runList_oneScope_skip hrun (htag' ▸ hscope)]
      exact hrest k

/-! ## Scopes -/

section Scope

variable (hw : t.Holds none whole) (hb : Resolves t whole (d + 1) (⟨s, d⟩ :: scopes) armed b inner b')
  (hset : Setting t tokens fn (some s) (d + 1) (⟨s, d⟩ :: scopes) armed b)
  (hsim : Simulates t (d + 1) (⟨s, d⟩ :: scopes) armed b inner b')
  (hc : Copies t whole false (ended t inner ⟨s, d⟩) c) (ha : ∀ a ∈ armed, a.depth ≤ d)

include hb hset hsim hc ha

include hw in
theorem follows_block (hl : ∀ k ∈ b.rootSlots, t.tag k ≠ .caseLabel) (hch : t.children s = b.rootSlots)
    (ho : ∀ y ∈ scopes, y.depth < d) (ds : List Nat) :
    Follows [] (fun exit => if exit.stopsAt (t.tag s) then [] else fired t (left t scopes armed exit))
      (runBlock false (b.map Entry.bare) .all ds) (runBlock true ((b' ++ c).map Entry.bare) .all ds) := by
  have h := hsim (.all (.scope rfl rfl ho hl fun _ => rfl)) ds
  rw [armedAt_eq_nil fun a h => Nat.lt_succ_of_le (ha a h), fired_nil] at h
  rw [runBlock, runBlock, map_append]
  cases hf : fallsOffEnd t s with
  | true =>
    have hended : ended t inner ⟨s, d⟩ = armedAt (d + 1) inner := if_pos hf
    have hend : runList true (c.map Entry.bare) .all [] = Run.acts (fired t (armedAt (d + 1) inner)) := by
      funext ds
      rw [← append_nil (c.map Entry.bare), runList_copies hc hw, hended]
      simp [Run.acts, Run.andThen, runList]
    rw [runList_append (hb.unpending hset.holds), hend]
    exact h.append
  | false =>
    have hended : ended t inner ⟨s, d⟩ = [] := if_neg (by simp [hf])
    rw [hended] at hc
    cases hc
    rw [map_nil, append_nil]
    exact h.of_not_done (outcome_runList_ne (exists_jumps hset.holds hset.shaped hch hf))

theorem follows_alternative (hd : ∀ k ∈ b.rootSlots, t.tag k ≠ .deferred) (k : Nat) (ds : List Nat) :
    Follows [] (fun exit => if exit.stopsAt (t.tag s) then [] else fired t (left t scopes armed exit))
      (runBlock false (b.map Entry.bare) (.oneScope k) ds)
      (runBlock true ((b' ++ c).map Entry.bare) (.oneScope k) ds) := by
  have hlt : ∀ a ∈ armed, a.depth < d + 1 := fun a h => Nat.lt_succ_of_le (ha a h)
  have hinner := hb.armed_same hset hd
  have hended : ended t inner ⟨s, d⟩ = [] := by
    rw [hinner, ended]
    split
    · exact armedAt_eq_nil hlt
    · rfl
  rw [hended] at hc
  cases hc
  have h := hsim (.oneScope k hlt hd) ds
  rw [hinner, armedAt_eq_nil hlt, fired_nil] at h
  rw [append_nil]
  refine h.congr fun exit _ => ?_
  rw [left_cons, armedAt_eq_nil hlt, List.nil_append]
  split <;> rfl

end Scope

/-! ## Statements -/

section Statement

variable (hw : t.Holds none whole) (hset : Setting t tokens fn p? d scopes armed (.node e b r))

include hset

theorem tag_construct : t.tag e.slot = e.node.construct.tag := hset.holds.tag_eq (by simp)

theorem actions_operation (hd : t.tag e.slot = .deferred) :
    (b.map Entry.bare).roots.map Node.action = fired t [e.slot] := by
  have hc : e.node.construct = .deferred := Construct.eq_deferred (tag_construct hset ▸ hd)
  have hshape := hset.shaped.1.2.1
  simp only [Shape, hc] at hshape
  obtain ⟨-, -, op, hroots, -⟩ := hshape
  have hmem : op ∈ (Forest.node e b r).members := by
    simp [mem_members_of_mem_roots (f := b) (a := op) (by simp [hroots])]
  have hop : operation t e.slot = op.slot := by rw [operation, hset.holds.children_eq, rootSlots, hroots]; rfl
  rw [roots_map, hroots, fired, List.map_singleton, List.map_singleton, List.map_singleton, hop, hset.holds.tag_eq hmem,
    hset.holds.span_eq hmem]
  rfl

include hw

theorem follows_opens (ho : opens (t.tag e.slot) = true)
    (hb : Resolves t whole (d + 1) (⟨e.slot, d⟩ :: scopes) armed b inner b')
    (hsim : Simulates t (d + 1) (⟨e.slot, d⟩ :: scopes) armed b inner b')
    (hc : Copies t whole false (ended t inner ⟨e.slot, d⟩) c) (ds : List Nat) :
    Follows [] (firedBy t e.slot scopes armed)
      (runStatement e.bare (b.map Entry.bare) (runBlock false (b.map Entry.bare)) ds)
      (runStatement e.bare ((b' ++ c).map Entry.bare) (runBlock true ((b' ++ c).map Entry.bare)) ds) := by
  have htag := tag_construct hset
  have hd : t.tag e.slot ≠ .deferred := fun hd => by simp [hd, opens] at ho
  have hswitch : t.tag e.slot ≠ .switch := fun hd => by simp [hd, opens] at ho
  have hin := hset.inside hd
  have hblock := follows_block hw hb hin hsim hc hset.depth_armed
    ((hset.proper.1 hd).1.2 hswitch) hset.holds.children_eq
    hset.depth_scopes
  unfold runStatement
  rw [Entry.construct_bare]
  cases hcon : e.node.construct with
  | scope | caseLabel =>
    rw [hcon] at htag
    refine (hblock ds).congr fun exit hx => ?_
    rw [firedBy, htag]
    cases exit <;> first | rfl | exact absurd rfl hx
  | branch =>
    rw [hcon] at htag
    have hbeyond (exit : Exit) (hx : exit ≠ .scopeEnd) : firedBy t e.slot scopes armed exit =
        if exit.stopsAt (t.tag e.slot) then [] else fired t (left t scopes armed exit) := by
      rw [firedBy_eq (by simp [htag, Construct.tag]), htag]
      cases exit <;> first | rfl | exact absurd rfl hx
    have hown : ownRoots ((b' ++ c).map Entry.bare) = ownRoots (b.map Entry.bare) := by
      rw [map_append, ownRoots_append, ownRoots_added (status_bare_of_added hc.added), List.append_nil,
        hb.ownRoots_eq hin.shaped]
    have htwo : isTwoWay ((b' ++ c).map Entry.bare) = isTwoWay (b.map Entry.bare) := by rw [isTwoWay, hown]; rfl
    refine Follows.decides fun k ds => ?_
    rw [htwo]
    split
    next htwo =>
      have hnone := tag_ne_of_isTwoWay hin.holds hin.shaped htwo
      exact (follows_alternative hb hin hsim hc hset.depth_armed hnone _ ds).congr hbeyond
    next =>
      split
      · exact .acts [] ds
      · exact (hblock ds).congr hbeyond
  | loop parts =>
    rw [hcon] at htag
    -- A loop has taken each `continue` and each `break`.
    have hcaught (exit : Exit) (hx : exit ≠ .continue) (hs : exit ≠ .scopeEnd) :
        (if exit = .break then [] else fired t (left t scopes armed exit)) =
          if exit.stopsAt (t.tag e.slot) then [] else fired t (left t scopes armed exit) := by
      rw [htag]
      cases exit <;> first | rfl | exact absurd rfl hx | exact absurd rfl hs
    have hcontinue : (if Exit.stopsAt .continue (t.tag e.slot) then [] else fired t (left t scopes armed .continue)) =
        [] := by
      rw [htag]
      rfl
    have hrounds := Follows.iterate hblock hcontinue hcaught ds.length
    refine @Follows.catches (fun exit => if exit = .break then [] else fired t (left t scopes armed exit))
      _ _ _ _ ?_ rfl
      fun exit hx _ => ?_
    · split
      · exact ((hblock ds).catches hcontinue hcaught).andThen (fun _ _ => rfl) hrounds
      · exact hrounds ds
    · rw [firedBy_eq (by simp [htag, Construct.tag]), if_neg hx]
  | function => exact .acts _ ds
  | _ => simp [htag, hcon, Construct.tag, opens] at ho

omit hw in
theorem follows_passes (hd : t.tag e.slot ≠ .deferred) (ho : opens (t.tag e.slot) = false)
    (hx : exit? (t.construct e.slot) = none) (hb : Resolves t whole (d + 1) scopes armed b inner b')
    (hsim : Simulates t (d + 1) scopes armed b inner b') (ds : List Nat) :
    Follows [] (firedBy t e.slot scopes armed)
      (runStatement e.bare (b.map Entry.bare) (runBlock false (b.map Entry.bare)) ds)
      (runStatement e.bare (b'.map Entry.bare) (runBlock true (b'.map Entry.bare)) ds) := by
  have htag := tag_construct hset
  rw [hset.holds.construct_eq (e := e) (by simp)] at hx
  have hbelow := hset.below hd
  unfold runStatement
  rw [Entry.construct_bare]
  cases hcon : e.node.construct with
  | switch =>
    have hnone := (hset.proper.1 hd).1.1 ho
    have hlt : ∀ a ∈ armed, a.depth < d + 1 := fun a h => Nat.lt_succ_of_le (hset.depth_armed a h)
    have hinner := hb.armed_same hbelow hnone
    have hlabels : b.rootSlots.Pairwise fun s s' => t.tag s = .caseLabel → t.tag s' = .caseLabel := by
      refine List.pairwise_map.2 (hset.shaped.1.2.2.pairwise.imp_of_mem fun {k k'} hk hk' h => ?_)
      rwa [hbelow.holds.tag_eq (mem_members_of_mem_roots hk), hbelow.holds.tag_eq (mem_members_of_mem_roots hk')]
    refine Follows.decides fun k ds => ?_
    have h := hsim (.fromLabel k hlt hnone hlabels) ds
    rw [hinner, armedAt_eq_nil hlt, fired_nil] at h
    refine h.catches rfl fun exit hexit _ => ?_
    rw [firedBy_eq (by simp [htag, hcon, Construct.tag]), if_neg hexit]
  | scope | caseLabel | branch | loop | function => simp [htag, hcon, Construct.tag, opens] at ho
  | returned => simp [hcon, exit?] at hx
  | jump kind => cases kind <;> simp [hcon, exit?] at hx
  | _ => exact .acts _ ds

section Jump

variable (hx : exit? (t.construct e.slot) = some exit)

include hx

omit hset hw in
theorem firedBy_jump : firedBy t e.slot scopes armed exit = fired t (left t scopes armed exit) := by
  refine firedBy_eq fun h => ?_
  have := (exit?_passes (by rw [hx]; rfl : (exit? (t.construct e.slot)).isSome = true)).2
  simp [h, opens] at this

omit hw in
theorem runStatement_jump (he : e'.node.construct = e.node.construct) (plain : Bool) (below : Forest Node)
    (ds : List Nat) :
    runStatement e'.bare below (runBlock plain below) ds =
      .leaves (if exit = .returned then valueActions below else []) exit ds := by
  rw [hset.holds.construct_eq (e := e) (by simp)] at hx
  exact runStatement_exit (by rwa [Entry.construct_bare, he]) _

omit hw in
theorem follows_jump (hnone : left t scopes armed exit = []) (ds : List Nat) :
    Follows [] (firedBy t e.slot scopes armed)
      (runStatement e.bare (b.map Entry.bare) (runBlock false (b.map Entry.bare)) ds)
      (runStatement e.bare (b.map Entry.bare) (runBlock true (b.map Entry.bare)) ds) := by
  rw [runStatement_jump hset hx rfl, runStatement_jump hset hx rfl]
  refine .leaves (exit?_ne_scopeEnd hx) ?_ ds
  rw [firedBy_jump hx, hnone, fired_nil, List.append_nil]

omit hw in
theorem actions_of_boundBy? (hv : Plan.boundBy? t { scopes, armed } e.slot exit = none) :
    (if exit = .returned then valueActions (b.map Entry.bare) else []) = [] := by
  split
  next hret =>
    subst hret
    have hbelow := hset.below (exit?_passes (by rw [hx]; rfl)).1
    obtain ⟨value?, hcon⟩ : ∃ value?, t.construct e.slot = .returned value? := by
      cases hc : t.construct e.slot with
      | returned value? => exact ⟨value?, rfl⟩
      | jump kind => cases kind <;> simp [hc, exit?] at hx
      | _ => simp [hc, exit?] at hx
    have hconst : areConstants (b.map Entry.bare) = true := by
      cases value? with
      | none =>
        have hshape := hset.shaped.1.2.1
        rw [hset.holds.construct_eq (e := e) (by simp)] at hcon
        simp only [Shape, hcon] at hshape
        obtain rfl := eq_nil_of_rootSlots hshape.2.1
        rfl
      | some v =>
        rw [← isConstant_eq hbelow.holds hbelow.size ((hset.exits.1 (by rw [hx]; rfl)).2 v hcon)]
        exact hset.isConstant_of_boundBy? (by simp) hcon hv
    rw [valueActions, if_pos hconst]
  next => rfl

theorem follows_leaves {brace : Bool} (he : e'.node.construct = e.node.construct)
    (hv : Plan.boundBy? t { scopes, armed } e.slot exit = none)
    (hc : Copies t whole brace (left t scopes armed exit) c) (ds : List Nat) :
    Follows [] (firedBy t e.slot scopes armed)
      (runStatement e.bare (b.map Entry.bare) (runBlock false (b.map Entry.bare)) ds)
      ((Run.acts ((c.map Entry.bare).roots.map Node.action) ds).andThen []
        (runStatement e'.bare (b.map Entry.bare) (runBlock true (b.map Entry.bare)))) := by
  have hnext := funext (runStatement_jump hset hx he true (b.map Entry.bare))
  rw [runStatement_jump hset hx rfl, hnext, hc.actions_eq hw, actions_of_boundBy? hset hx hv]
  rw [Run.acts_andThen_leaves, List.append_nil]
  refine .leaves (exit?_ne_scopeEnd hx) ?_ ds
  rw [firedBy_jump hx, List.nil_append]

end Jump

end Statement

theorem follows_stores {type : String} {k : Forest Entry} (hw : t.Holds none whole)
    (hset : Setting t tokens fn p? d scopes armed (.node e (tree v k) r))
    (hx : t.construct e.slot = .returned (some v.slot))
    (hv : Plan.boundBy? t { scopes, armed } e.slot .returned = some (v.slot, type))
    (hg : Splice v k { braceBefore := true } (some (declares type)) g)
    (hc : Copies t whole false (left t scopes armed .returned) c) (ds : List Nat) :
    Follows [] (firedBy t e.slot scopes armed)
      (runStatement e.bare ((tree v k).map Entry.bare) (runBlock false ((tree v k).map Entry.bare)) ds)
      ((Run.acts (((g ++ c).map Entry.bare).roots.map Node.action) ds).andThen []
        (runStatement (e.mark .closed).bare ((tree (v.mark (.replaced storedValue)) k).map Entry.bare)
          (runBlock true ((tree (v.mark (.replaced storedValue)) k).map Entry.bare)))) := by
  have hexit : exit? (t.construct e.slot) = some .returned := by rw [hx]; rfl
  have hbelow := hset.below (exit?_passes (by rw [hexit]; rfl)).1
  have hcomputed : areConstants ((tree v k).map Entry.bare) = false := by
    rw [← isConstant_eq hbelow.holds hbelow.size rfl]
    exact isConstant_of_binding? hv
  have hvalue : valueActions ((tree v k).map Entry.bare) = [v.node.action] := by
    rw [valueActions, hcomputed]
    simp [tree, hbelow.shaped.1.1.replacement?_eq]
  have hstored : valueActions ((tree (v.mark (.replaced storedValue)) k).map Entry.bare) = [] := by
    unfold valueActions
    split
    · rfl
    · simp [tree, Entry.mark, Mark.apply]
  have hclosed : (e.mark .closed).node.construct = e.node.construct := rfl
  have hnext := funext
    (runStatement_jump hset hexit hclosed true ((tree (v.mark (.replaced storedValue)) k).map Entry.bare))
  rw [runStatement_jump hset hexit rfl, hnext, if_pos rfl, if_pos rfl, hvalue, hstored, map_append, roots_append,
    List.map_append, hg.action_eq, hc.actions_eq hw]
  rw [Run.acts_andThen_leaves, List.append_nil]
  refine .leaves (exit?_ne_scopeEnd hexit) ?_ ds
  rw [firedBy_jump hexit]

/-! ## Lists -/

theorem Resolves.follows (h : Resolves t whole d scopes armed f armed' f') (hw : t.Holds none whole)
    (hset : Setting t tokens fn p? d scopes armed f) : Simulates t d scopes armed f armed' f' := by
  induction h generalizing p? with
  | nil => exact fun _ _ _ ds => .done [] ds
  | @deferred d scopes armed armed' e b r r' hd hr ih =>
    intro mode beyond hm ds
    cases hm with
    | all h =>
      have htag : e.bare.tag = .deferred := hset.holds.tag_eq (e := e) (by simp) ▸ hd
      rw [map_node, map_node, runList_deferred hset.shaped.1.1.isRun htag, runList_removed rfl,
        actions_operation hset hd,
        ← fired_append, List.singleton_append, ← armedAt_cons_self]
      exact ih (hset.rest.arm e.slot) (.all (h.arm hd)) ds
    | fromLabel k ha hds hl | oneScope k ha hds => exact absurd hd (hds _ List.mem_cons_self)
  | @opens d scopes armed inner armed' e b b' c r r' ho hb hc hr ihb ihr =>
    have hd : t.tag e.slot ≠ .deferred := fun hd => by simp [hd, Firing.opens] at ho
    have hin := hset.inside hd
    rw [hb.armed_after hin.proper.armable hin.depth_armed, filter_arming hset.depth_armed] at hr ihr
    exact .node (c := .nil) hset hd hr (ihr hset.rest) rfl hset.shaped.1.1.isRun (by simp [Added]) (fun _ => rfl)
      (follows_opens hw hset ho hb (ihb hin) hc)
  | @passes d scopes armed inner armed' e b b' r r' hd ho hx hb hr ihb ihr =>
    have hbelow := hset.below hd
    obtain rfl := hb.armed_same hbelow ((hset.proper.1 hd).1.1 ho)
    refine .node (c := .nil) hset hd hr (ihr hset.rest) rfl hset.shaped.1.1.isRun (by simp [Added]) (fun _ => rfl) ?_
    cases hexit : exit? (t.construct e.slot) with
    | none => exact follows_passes hset hd ho hexit hb (ihb hbelow)
    | some exit =>
      rw [hb.operands (hset.exits.1 (by rw [hexit]; rfl)).1]
      exact follows_jump hset hexit (hx exit hexit)
  | leaves hx hne hv hc hr ih =>
    have hpasses := exit?_passes (by rw [hx]; rfl)
    refine .node hset hpasses.1 hr (ih hset.rest) ?_ ?_ hc.added (fun ho => by simp [hpasses.2] at ho) ?_
    · split <;> rfl
    · split
      · exact .inr rfl
      · exact hset.shaped.1.1.isRun
    · exact follows_leaves hw hset hx (by split <;> rfl) hv hc
  | @stores d scopes armed armed' type e v k g c r r' hx hne hv hg hc hr ih =>
    have hpasses := exit?_passes (by rw [hx]; rfl)
    rw [← append_assoc]
    have hadded : (g ++ c).Added := by
      intro k hk
      exact (List.mem_append.1 (roots_append .. ▸ hk)).elim (hg.added k) (hc.added k)
    have hclosed : (e.mark .closed).node.construct = e.node.construct := rfl
    exact .node hset hpasses.1 hr (ih hset.rest) hclosed (.inr rfl) hadded
      (fun ho => by simp [hpasses.2] at ho) (follows_stores hw hset hx hv hg hc)

end Firing

end Deferral
