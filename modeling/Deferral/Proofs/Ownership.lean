import Deferral.Proofs.Resolving

/-!
# Owners of deferred statements

A scope fires what is armed one level below it. A deferred statement below a scope is fired by that scope alone. A
`switch` has statements below it but is no scope: what is deferred there stays armed, and is fired by scopes at the
level of the `switch` (`owned_of_build`).
-/

namespace Deferral

open Forest List

/-- All nodes with their levels, parents first. -/
def Tree.levels (t : Tree) : List (Slot × Nat) :=
  t.walk .root (fun s level found => (found ++ [(s, level)], true)) []

/-- A firing at the scope below which the deferred statement stands or, if it stands directly below a `switch`, at a
scope of the same level. -/
def Firing.Owned (t : Tree) (levels : List (Slot × Nat)) (firing : Firing) : Prop :=
  ∃ owner, t.parent? firing.deferred = some owner ∧
    (firing.scope = owner ∨ t.tag owner = .switch ∧ ∃ n, (owner, n) ∈ levels ∧ (firing.scope, n) ∈ levels)

/-- Only scopes and `switch` have deferred statements directly below them. -/
theorem Shape.owns {tokens : List Token} {n : Node} {kids : List Entry} (h : Shape tokens n kids) {k : Entry}
    (hk : k ∈ kids) (hd : k.node.tag = .deferred) : Firing.opens n.tag = true ∨ n.tag = .switch := by
  have hoperand : k.node.tag.isOperand = false := by rw [hd]; rfl
  cases h.child hk with
  | function _ hk => simp [hk] at hd
  | operand hk => simp [hk.tag] at hoperand
  | operation _ hk => simp [hk] at hoperand
  | part hk => rcases hk with hk | hk <;> simp [hk] at hd
  | item hn =>
    generalize n.tag = tag at hn
    cases tag <;> first | exact .inl rfl | exact .inr rfl | cases hn

namespace Firing

variable {t : Tree} {levels : List (Slot × Nat)} {tokens : List Token} {d : Nat} {p : Plan}

/-- The levels of a forest. -/
def levelsOf (d : Nat) : Forest Entry → List (Slot × Nat)
  | .nil => []
  | .node e below rest => (e.slot, d) :: (levelsOf (d + 1) below ++ levelsOf d rest)

theorem visit_levels (f : Forest Entry) (d : Nat) (found : List (Slot × Nat)) :
    Tree.visitForest (fun s level found => (found ++ [(s, level)], true)) d f found = found ++ levelsOf d f := by
  induction f generalizing d found with
  | nil => simp [Tree.visitForest, levelsOf]
  | node e b r ihb ihr => simp [Tree.visitForest, levelsOf, ihb, ihr]

theorem leftBy_initial (exit : Exit) (scopes : List Placed) : leftBy t exit scopes <+: scopes := by
  induction scopes with
  | nil => exact prefix_rfl
  | cons x l ih =>
    rw [leftBy]
    split
    · exact ⟨l, rfl⟩
    · exact prefix_cons_inj x |>.2 ih

/-- A node below which deferred statements are armed at level `n + 1`. -/
structure Owner (t : Tree) (levels : List (Slot × Nat)) (scopes : List Placed) (owner : Slot) (n : Nat) : Prop where
  level : (owner, n) ∈ levels
  sort : ⟨owner, n⟩ ∈ scopes ∨ t.tag owner = .switch

/-- What is armed has an owner, and what has fired was owned. -/
structure Plan.Owning (t : Tree) (levels : List (Slot × Nat)) (p : Plan) : Prop where
  sorted : p.scopes.Pairwise fun x y => y.depth < x.depth
  scopes : ∀ x ∈ p.scopes, (x.slot, x.depth) ∈ levels
  armed : ∀ a ∈ p.armed, ∃ owner n, t.parent? a.slot = some owner ∧ a.depth = n + 1 ∧ Owner t levels p.scopes owner n
  firings : ∀ firing ∈ p.firings.toList, firing.Owned t levels

namespace Plan.Owning

section

variable (h : p.Owning t levels)
include h

theorem apart : ∀ x ∈ p.scopes, ∀ y ∈ p.scopes, x.depth = y.depth → x = y := by
  have hn : (p.scopes.map (·.depth)).Nodup := pairwise_map.2 (h.sorted.imp Nat.ne_of_gt)
  exact fun x hx y hy => inj_on_of_nodup_map hn hx hy

theorem depth_lt (habove : p.Above d) : ∀ x ∈ p.scopes, x.depth < d := by
  have hsorted := h.sorted
  unfold Above at habove
  cases hs : p.scopes with
  | nil => simp
  | cons x l =>
    rw [hs] at habove hsorted
    have hx : x.depth < d := habove x rfl
    refine forall_mem_cons.2 ⟨hx, fun y hy => Nat.lt_trans ?_ hx⟩
    exact (pairwise_cons.1 hsorted).1 y hy

theorem «open» (habove : p.Above d) {s : Slot} (hs : (s, d) ∈ levels) :
    (p.open s d).Owning t levels := by
  refine ⟨pairwise_cons.2 ⟨h.depth_lt habove, h.sorted⟩, forall_mem_cons.2 ⟨hs, h.scopes⟩, ?_, h.firings⟩
  intro a ha
  obtain ⟨owner, n, hparent, hn, ho⟩ := h.armed a ha
  exact ⟨owner, n, hparent, hn, ho.level, ho.sort.imp_left (mem_cons_of_mem _)⟩

/-- A scope fires what is below it, and what is directly below a `switch` of its level. -/
theorem owned {x a : Placed} (hx : x ∈ p.scopes) (ha : a ∈ p.owned x) (exit : Exit) :
    Firing.Owned t levels ⟨a.slot, x.slot, exit⟩ := by
  obtain ⟨ha, hdepth⟩ := mem_filter.1 ha
  obtain ⟨owner, n, hparent, hn, ho⟩ := h.armed a ha
  obtain rfl : n = x.depth := by
    have : a.depth = x.depth + 1 := by simpa using hdepth
    omega
  refine ⟨owner, hparent, ho.sort.imp (fun hs => ?_) fun hs => ⟨hs, x.depth, ho.level, h.scopes x hx⟩⟩
  rw [h.apart x hx _ hs rfl]

theorem exitEarly (jump : Slot) (exit : Exit) : (p.exitEarly t jump exit).Owning t levels := by
  rw [exitEarly_eq]
  refine ⟨h.sorted, h.scopes, h.armed, ?_⟩
  rw [firings_after, forall_mem_append]
  refine ⟨h.firings, fun firing hf => ?_⟩
  obtain ⟨y, hy, rfl⟩ := mem_map.1 hf
  obtain ⟨x, hx, hy⟩ := mem_flatMap.1 hy
  obtain ⟨a, ha, rfl⟩ := mem_map.1 hy
  exact h.owned ((leftBy_initial exit p.scopes).subset hx) ha exit

theorem closeFrom {x : Placed} {l : List Placed} (hs : p.scopes = x :: l) :
    (p.closeFrom t x.depth).Owning t levels := by
  have hx : x ∈ p.scopes := by simp [hs]
  have hl : ∀ y ∈ l, y ∈ p.scopes := fun y hy => by simp [hs, hy]
  have hsorted := hs ▸ h.sorted
  obtain ⟨hlt, hsorted⟩ := pairwise_cons.1 hsorted
  rw [closeFrom_one hs fun y hy => hlt y (mem_of_mem_head? hy), exitAtEnd_eq]
  refine ⟨hsorted, fun y hy => h.scopes y (hl y hy), fun a ha => ?_, ?_⟩
  · obtain ⟨ha, hdepth⟩ := mem_filter.1 ha
    obtain ⟨owner, n, hparent, hn, ho⟩ := h.armed a ha
    refine ⟨owner, n, hparent, hn, ho.level, ho.sort.imp_left fun hmem => ?_⟩
    rw [hs, mem_cons] at hmem
    refine hmem.resolve_left ?_
    rintro rfl
    simp [hn] at hdepth
  · change ∀ firing ∈ (after t { p with armed := _ } (p.endEdits t x) (p.endFirings t x)).firings.toList, _
    rw [firings_after, forall_mem_append]
    refine ⟨h.firings, fun firing hf => ?_⟩
    unfold endFirings at hf
    split at hf
    · obtain ⟨a, ha, rfl⟩ := mem_map.1 hf
      exact h.owned hx ha .scopeEnd
    · cases hf

theorem fire {f : Forest Entry} {p? : Option Slot} (habove : p.Above d) (ht : t.Holds p? f)
    (hs : Shaped tokens f) (hl : ∀ x ∈ levelsOf d f, x ∈ levels)
    (ho : ∀ e ∈ f.roots, e.node.tag = .deferred → ∃ owner n, p? = some owner ∧ d = n + 1 ∧
      Owner t levels p.scopes owner n) :
    (fire t d f p).Owning t levels := by
  induction f generalizing d p p? with
  | nil => exact h
  | node e b r ihb ihr =>
    obtain ⟨⟨-, hshape, -⟩, hsb, hsr⟩ := hs
    simp only [levelsOf, forall_mem_cons, forall_mem_append] at hl
    obtain ⟨hle, hlb, hlr⟩ := hl
    obtain ⟨hoe, hor⟩ := forall_mem_cons.1 ho
    have htag : t.tag e.slot = e.node.tag := ht.tag_eq (by simp)
    by_cases hd : t.tag e.slot = .deferred
    · rw [Firing.fire, if_pos hd, enter_deferred hd]
      refine ihr (p := p.arm t e.slot d) ?_ habove ht.2.2 hsr hlr hor
      obtain ⟨owner, n, hp, hn, howner⟩ := hoe (htag ▸ hd)
      refine ⟨h.sorted, h.scopes, forall_mem_cons.2 ⟨?_, h.armed⟩, h.firings⟩
      exact ⟨owner, n, ht.parent?_eq.trans hp, hn, howner⟩
    · rw [Firing.fire, if_neg hd]
      have hin := above_enter (t := t) p habove e.slot
      by_cases hopens : opens (t.tag e.slot) = true
      · rw [enter_opens hopens] at hin ⊢
        have hb := ihb (p := p.open e.slot d) (h.open habove hle) hin ht.2.1 hsb hlb fun _ _ _ =>
          ⟨e.slot, d, rfl, rfl, hle, .inl (by simp [Plan.open])⟩
        obtain ⟨hscopes, -⟩ := fire_eq (t := t) (f := b) hin
        have hclose := hb.closeFrom hscopes
        have hscopes' : ((Firing.fire t (d + 1) b (p.open e.slot d)).closeFrom t d).scopes = p.scopes := by
          rw [closeFrom_one hscopes habove]
        refine ihr hclose ?_ ht.2.2 hsr hlr ?_
        · rwa [Above, hscopes']
        · rwa [hscopes']
      · have hopens : opens (t.tag e.slot) = false := by simpa using hopens
        have henter : (p.enter t e.slot d).Owning t levels ∧ (p.enter t e.slot d).scopes = p.scopes := by
          cases hx : exit? (t.construct e.slot) with
          | none =>
            rw [enter_passes hd hopens hx]
            exact ⟨h, rfl⟩
          | some exit =>
            rw [enter_exit hx]
            exact ⟨h.exitEarly e.slot exit, by rw [exitEarly_eq]; rfl⟩
        obtain ⟨hscopes, -⟩ := fire_eq (t := t) (f := b) hin
        have hb := ihb henter.1 hin ht.2.1 hsb hlb fun k hk hk' => by
          refine ⟨e.slot, d, rfl, rfl, hle, .inr ?_⟩
          rw [htag] at hopens ⊢
          exact (Shape.owns hshape hk hk').resolve_left (by simp [hopens])
        have hsame : (Firing.fire t (d + 1) b (p.enter t e.slot d)).Above d := by
          rwa [Above, hscopes, henter.2]
        rw [hsame.closeFrom_eq]
        refine ihr hb hsame ht.2.2 hsr hlr ?_
        rwa [hscopes, henter.2]

end

end Plan.Owning

end Firing

open Assembly Tree.Built

/-- A deferred statement of a source fires only when the scope is left below which it stands, unless that is a
`switch`. -/
theorem owned_of_build {source : List UInt8} {path : Path} {t : Tree} (h : ((start path).build source).1 = .ok t) :
    ∀ firing ∈ (Firing.resolve t).firings, firing.Owned t t.levels := by
  obtain ⟨tokens, f, hb⟩ := exists_built h
  have hlevels : t.levels = Firing.levelsOf 0 (whole source path f) :=
    (Tree.walk_eq_visit _ hb.stands []).trans (Firing.visit_levels _ 0 [])
  have hstart : ({} : Firing.Plan).Owning t t.levels := ⟨.nil, by simp, by simp, by simp⟩
  have hfire := hstart.fire (d := 0) nofun hb.stands.holds hb.shaped (fun x hx => hlevels ▸ hx)
    (by simp [Node.tag, Construct.tag])
  change ∀ firing ∈ (Firing.plan t).firings.toList, firing.Owned t t.levels
  rw [(Firing.plan_fire hb.stands rfl).2]
  exact hfire.firings

/-- A deferred statement directly below a `switch`, and a branch after it. -/
def deferredInSwitch : List UInt8 :=
  Utf8.encode "void f()\x7b switch(x)\x7b defer g(); case 1: h(); \x7d if (y) \x7b k(); \x7d \x7d"

set_option maxRecDepth 100000 in
theorem owned_deferredInSwitch : ∃ t, ((start []).build deferredInSwitch).1 = .ok t ∧
    (Firing.resolve t).firings.length = 1 ∧ ∀ firing ∈ (Firing.resolve t).firings, firing.Owned t t.levels := by
  obtain ⟨t, ht, hcheck⟩ := exists_tree_of_check [] deferredInSwitch
    (fun t => (Firing.resolve t).firings.length = 1) (by decide +kernel)
  exact ⟨t, ht, of_decide_eq_true hcheck, owned_of_build ht⟩

set_option maxRecDepth 100000 in
/-- The branch fires what is deferred in the `switch` before it. -/
theorem not_owner_deferredInSwitch : ∃ t, ((start []).build deferredInSwitch).1 = .ok t ∧
    ∃ firing ∈ (Firing.resolve t).firings, t.tag firing.scope = .branch ∧ firing.exit = .scopeEnd ∧
      t.parent? firing.deferred ≠ some firing.scope := by
  exact ⟨_, build_get _ _ (by decide +kernel), by decide +kernel⟩

end Deferral
