import Deferral.Proofs.Simulation

/-!
# Resolving keeps the meaning

Whatever is decided in a run of a function, it does the same before and after deferred statements are put in place
(`run_resolve`), as long as each of them stands in a scope, labels stand directly below `switch`, and no value has to be
computed in a function that returns none (`Tree.Lowerable`).
-/

namespace Deferral

open Forest Firing

/-! ## What is presumed -/

namespace Tree

/-- The type of what a function returns; none if it returns no value. -/
def returnedType? (t : Tree) (fn : Slot) : Option String :=
  match t.construct fn with
  | .function form => valueType? form.returnType
  | _ => none

/-- The value of a `return`. -/
def returnedValue? (t : Tree) (s : Slot) : Option Slot :=
  match t.construct s with
  | .returned value? => value?
  | _ => none

/-- Deferred statements, labels and returned values stand where they make sense. -/
structure Lowerable (t : Tree) : Prop where
  /-- A deferred statement that is in no other stands directly in a scope. -/
  owners : ∀ s ∈ t.outerDefers, ∃ p ∈ t.parent? s, opens (t.tag p) = true
  labels : ∀ s ∈ t.reachable, t.tag s = .caseLabel → ∃ p ∈ t.parent? s, t.tag p = .switch
  /-- A function that returns no value has at most constants after `return`. -/
  returns : ∀ fn ∈ t.children .root, t.returnedType? fn = none → ∀ s ∈ t.subtree fn, ∀ v ∈ t.returnedValue? s,
    isConstant t v = true

end Tree

section Proper

variable {t : Tree} {f : Forest Entry} {p? : Option Slot}

theorem proper_of_armable (h : t.Holds p? f) (ha : Armable t f)
    (hl : ∀ s ∈ f.slots, t.tag s = .caseLabel → ∀ p ∈ t.parent? s, t.tag p = .switch) : Proper t f := by
  induction f generalizing p? with
  | nil => trivial
  | node e b r ihb ihr =>
    refine ⟨fun hd => ⟨⟨(ha.1 hd).1, fun hs k hk htag => ?_⟩, ?_⟩, ihr h.2.2 ha.2 fun s hs => hl s (by simp [hs])⟩
    · exact hs (hl k (by simp [rootSlots_subset hk]) htag e.slot (h.2.1.parent_root hk))
    · exact ihb h.2.1 (ha.1 hd).2 fun s hs => hl s (by simp [hs])

end Proper

/-! ## Functions -/

theorem runWith_eq {plain : Bool} {t : Tree} {e : Entry} {b r : Forest Entry} {p? : Option Slot}
    (h : t.Holds p? (.node e b r))
    (hn : (Forest.node e b r).members.length ≤ t.size) (decisions : List Nat) :
    t.runWith plain e.slot decisions = (runBlock plain (b.map Entry.bare) .all decisions).catches .returned := by
  rw [length_node] at hn
  rw [Tree.runWith, h.children_eq, Tree.unroll_eq h.2.1 (by omega), map_map]
  rfl

section Functions

variable {t r : Tree} {whole f f' : Forest Entry} {tokens : List Token} {armed' : List Placed} {p? : Option Slot}

theorem setting_function {e : Entry} {b g : Forest Entry} (h : t.Holds p? (.node e b g))
    (hs : Shaped tokens (.node e b g)) (hx : PlainExits t (.node e b g)) (hp : Proper t (.node e b g))
    (hn : (Forest.node e b g).members.length ≤ t.size) (hf : t.tag e.slot = .function)
    (hr : t.returnedType? e.slot = none → ∀ s ∈ b.slots, ∀ v ∈ t.returnedValue? s, isConstant t v = true) :
    Setting t tokens e.slot (some e.slot) 2 [⟨e.slot, 1⟩] [] b where
  holds := h.2.1
  shaped := hs.2.1
  exits := hx.2.1
  proper := (hp.1 (by simp [hf])).2
  size := by
    rw [length_node] at hn
    omega
  depth_armed := by simp
  depth_scopes := by simp
  inner := Shape.tag_ne hs.1.2.1 fun hunit => by simp [h.tag_eq (e := e) (by simp), hunit] at hf
  target := by simp [leftBy]
  function := hf
  constants form hform hnone s hslot v hv :=
    hr (by simp [Tree.returnedType?, hform, hnone]) s hslot v (by simp [Tree.returnedValue?, hv])

theorem run_functions (hres : Resolves t whole 1 [] [] f armed' f') (hw : t.Holds none whole) (h : t.Holds p? f)
    (h' : r.Holds p? f') (hs : Shaped tokens f) (hx : PlainExits t f) (hp : Proper t f)
    (hn : f.members.length ≤ t.size) (hn' : f'.members.length ≤ r.size) (hf : ∀ s ∈ f.rootSlots, t.tag s = .function)
    (hr : ∀ s ∈ f.rootSlots, t.returnedType? s = none → ∀ u ∈ t.subtree s, ∀ v ∈ t.returnedValue? u,
      isConstant t v = true) :
    f'.rootSlots = f.rootSlots ∧ ∀ s ∈ f.rootSlots, ∀ decisions, r.runPlain s decisions = t.run s decisions := by
  induction f generalizing f' with
  | nil =>
    cases hres
    exact ⟨rfl, nofun⟩
  | node e b g _ ihg =>
    obtain ⟨htag, hfg⟩ := List.forall_mem_cons.1 hf
    obtain ⟨hre, hrg⟩ := List.forall_mem_cons.1 hr
    have hopens : opens (t.tag e.slot) = true := by rw [htag]; rfl
    have hsize : (tree e b).members.length ≤ t.size ∧ g.members.length ≤ t.size := by
      simp only [members_node, members_tree, List.length_cons, List.length_append] at hn ⊢
      omega
    have hsubtree : t.subtree e.slot = (tree e b).slots :=
      Tree.subtree_eq_slots (Tree.holds_tree.2 ⟨h.1, h.2.1⟩) hsize.1
    cases hres with
    | opens _ hb hc hrest =>
      have hset := setting_function h hs hx hp hn htag fun hnone s hs => hre hnone s (by simp [hsubtree, hs])
      have hdepth : ∀ a ∈ ([] : List Placed), a.depth ≤ 1 := by simp
      rw [hb.armed_after hset.proper.armable hset.depth_armed, filter_arming hdepth] at hrest
      have hsize' := hn'
      simp only [members_node, List.length_cons, List.length_append] at hsize'
      obtain ⟨hroots, hruns⟩ := ihg hrest h.2.2 h'.2.2 hs.2.2 hx.2.2 hp.2 hsize.2 (by omega) hfg hrg
      refine ⟨by rw [rootSlots_node, rootSlots_node, hroots], List.forall_mem_cons.2 ⟨fun ds => ?_, hruns⟩⟩
      have hblock := follows_block hw hb hset (hb.follows hw hset) hc hdepth
        ((hp.1 (by simp [htag])).1.2 (by simp [htag]))
        h.children_eq (by simp) ds
      rw [Tree.runPlain, Tree.run, runWith_eq h hn, runWith_eq h' hn', hblock.eq fun exit _ => by simp]
    | deferred hd => simp [htag] at hd
    | passes _ ho => simp [hopens] at ho
    | leaves hexit | stores hexit => simp [(exit?_passes (by rw [hexit]; rfl)).2] at hopens

end Functions

/-! ## Trees -/

open Assembly Tree.Built

/-- Resolving the tree of a source keeps its functions, and each of them does in a language without deferred statements
what it did with them, whatever is decided. -/
theorem run_resolve {source : List UInt8} {path : Path} {t : Tree} (h : ((start path).build source).1 = .ok t)
    (hl : t.Lowerable) : (resolve t).tree.children .root = t.children .root ∧
      ∀ fn ∈ t.children .root, ∀ decisions, (resolve t).tree.runPlain fn decisions = t.run fn decisions := by
  obtain ⟨tokens, f, hb⟩ := exists_built h
  obtain ⟨armed, f', hr, hs, -⟩ := exists_resolves hb
  have hchildren : t.children .root = f.rootSlots := hb.stands.holds.children_eq
  have hchildren' : (resolve t).tree.children .root = f'.rootSlots := hs.holds.children_eq
  have hreachable : t.reachable = (whole source path f).slots :=
    Tree.subtree_eq_slots hb.stands.holds hb.stands.length_le
  have hproper : Proper t f := by
    refine proper_of_armable hb.stands.holds.2.1
      (armable_of_parents hb.stands.holds.2.1 fun s hs hd p hp => ?_) fun s hs hc p hp => ?_
    · obtain ⟨q, hq, ho⟩ := hl.owners s (by rw [hb.outerDefers_eq]; simpa [hd] using hs)
      exact Option.mem_unique hq hp ▸ ho
    · obtain ⟨q, hq, hsw⟩ := hl.labels s (by rw [hreachable]; simp [whole, hs]) hc
      exact Option.mem_unique hq hp ▸ hsw
  have hfunctions : ∀ s ∈ f.rootSlots, t.tag s = .function := by
    have hshape := hb.shaped.1.2.1
    simp only [Shape, Entry.construct_fresh] at hshape
    intro s hs
    obtain ⟨e, he, rfl⟩ := List.mem_map.1 hs
    exact (hb.stands.holds.2.1.tag_eq (mem_members_of_mem_roots he)).trans (hshape.2 e he)
  have hsize := hb.stands.length_le
  have hsize' := hs.length_le
  simp only [whole, members_tree, List.length_cons] at hsize hsize'
  obtain ⟨hroots, hruns⟩ := run_functions hr hb.stands.holds hb.stands.holds.2.1 hs.holds.2.1 hb.shaped.2.1
    hb.plainExits.2.1 hproper (by omega) (by omega) hfunctions (hchildren ▸ hl.returns)
  exact ⟨by rw [hchildren, hchildren', hroots], hchildren ▸ hruns⟩

/-- Deferred statements in a function, a loop and a label, and every way to leave them. -/
def deferredEverywhere : List UInt8 :=
  Utf8.encode
    ("int f(int x)\x7bdefer a();while(x)\x7bdefer b();if(x)break;\x7d" ++
      "switch(x)\x7bcase 1:defer c();break;\x7dreturn g(x);\x7d")

set_option maxRecDepth 100000 in
/-- Run plainly, the function is stuck at once; resolved, it does everything. -/
theorem run_resolve_deferredEverywhere : ∃ t, ((start []).build deferredEverywhere).1 = .ok t ∧ t.Lowerable ∧
    t.outerDefers.length = 3 ∧ ∃ fn ∈ t.children .root,
      ((t.run fn [1, 1, 0]).trace.map (·.span.start) = [38, 77, 95, 19] ∧
        t.runPlain fn [1, 1, 0] = ⟨[], .stuck, [1, 1, 0]⟩ ∧
        ∀ decisions, (resolve t).tree.runPlain fn decisions = t.run fn decisions) := by
  obtain ⟨t, ht, hcheck⟩ := exists_tree_of_check [] deferredEverywhere (fun t =>
    ((∀ s ∈ t.outerDefers, ∃ p ∈ t.parent? s, opens (t.tag p) = true) ∧
      (∀ s ∈ t.reachable, t.tag s = .caseLabel → ∃ p ∈ t.parent? s, t.tag p = .switch) ∧
      ∀ fn ∈ t.children .root, t.returnedType? fn = none → ∀ s ∈ t.subtree fn, ∀ v ∈ t.returnedValue? s,
        isConstant t v = true) ∧ t.outerDefers.length = 3 ∧
      ∃ fn ∈ t.children .root, (t.run fn [1, 1, 0]).trace.map (·.span.start) = [38, 77, 95, 19] ∧
        t.runPlain fn [1, 1, 0] = ⟨[], .stuck, [1, 1, 0]⟩) (by decide +kernel)
  obtain ⟨⟨ho, hlabels, hreturns⟩, hlength, fn, hfn, htrace, hstuck⟩ := of_decide_eq_true hcheck
  have hl : t.Lowerable := ⟨ho, hlabels, hreturns⟩
  exact ⟨t, ht, hl, hlength, fn, hfn, htrace, hstuck, (run_resolve ht hl).2 fn hfn⟩

end Deferral
