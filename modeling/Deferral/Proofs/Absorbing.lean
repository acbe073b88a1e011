import Deferral.Proofs.Layout

/-!
# Dissolved scopes in a held forest

Dissolving a child puts the trees below it in its place. What is left of a construct after all scopes that add nothing
are gone has the shape and the text that it had (`Tree.Stands.absorb`).
-/

namespace Deferral

open List hiding append_assoc append_nil

@[simp] theorem Construct.tag_setBraced (braced : Bool) (c : Construct) : (c.setBraced braced).tag = c.tag := by
  cases c <;> rfl

namespace Tree

open Forest

variable {t t' : Tree} {p? q? : Option Slot} {low : Nat} {e x : Entry} {b d f g r : Forest Entry}

/-! ## The same change in several slots -/

theorem size_foldl_modify (change : Node → Node) : ∀ (ss : List Slot) (t : Tree),
    (ss.foldl (fun t s => t.modify s change) t).size = t.size
  | [], _ => rfl
  | s :: ss, t => by rw [foldl_cons, size_foldl_modify change ss, size_modify]

theorem node_foldl_modify (change : Node → Node) (hc : ∀ n, change (change n) = change n) (u : Slot) :
    ∀ (ss : List Slot) (t : Tree), (ss.foldl (fun t s => t.modify s change) t).node u =
      if u ∈ ss ∧ u.index < t.size then change (t.node u) else t.node u
  | [], t => by simp
  | s :: ss, t => by
    rw [foldl_cons, node_foldl_modify change hc u ss, node_modify, size_modify]
    by_cases hu : u.index < t.size
    · by_cases hs : u = s
      · subst hs
        by_cases hm : u ∈ ss <;> simp [hu, hm, hc]
      · simp [hs, hu]
    · by_cases hs : u = s
      · subst hs
        simp [hu]
      · simp [hs, hu]

theorem SameBelow.foldl_modify (change : Node → Node) : ∀ {ss : List Slot} {t : Tree}, (∀ s ∈ ss, low ≤ s.index) →
    SameBelow low t (ss.foldl (fun t s => t.modify s change) t)
  | [], t, _ => .refl _ t
  | s :: _, _, h => .trans (.modify change (h s mem_cons_self))
    (SameBelow.foldl_modify change fun u hu => h u (mem_cons_of_mem _ hu))

theorem node_foldl_modify_ne {u : Slot} (change : Node → Node) : ∀ {ss : List Slot} {t : Tree}, u ∉ ss →
    (ss.foldl (fun t s => t.modify s change) t).node u = t.node u
  | [], _, _ => rfl
  | s :: ss, t, h => by
    rw [mem_cons, not_or] at h
    rw [foldl_cons, node_foldl_modify_ne change h.2, node_modify_ne h.1]

/-! ## Other parents -/

theorem node_foldl_parent (outer u : Slot) (ss : List Slot) (t : Tree) :
    (ss.foldl (fun t s => t.modify s ({ · with parent? := some outer })) t).node u =
      if u ∈ ss ∧ u.index < t.size then { t.node u with parent? := some outer } else t.node u :=
  node_foldl_modify ({ · with parent? := some outer }) (fun _ => rfl) u ss t

theorem Holds.reparent : ∀ {d : Forest Entry}, t.Holds p? d → d.slots.Nodup →
    (∀ s ∈ d.rootSlots, t'.node s = { t.node s with parent? := q? }) →
      (∀ s ∈ d.slots, s ∉ d.rootSlots → t'.node s = t.node s) → t'.Holds q? d
  | .nil, _, _, _, _ => trivial
  | .node e b r, ⟨he, hb, hr⟩, hnd, hroots, hrest => by
    simp only [slots_node, nodup_cons, mem_append, nodup_append, not_or] at hnd
    obtain ⟨⟨heb, her⟩, -, hndr, hbr⟩ := hnd
    refine ⟨?_, hb.congr fun s hs => hrest s (by simp [hs]) ?_, hr.reparent hndr ?_ ?_⟩
    · rw [hroots _ (by simp), he]
      rfl
    · rw [rootSlots_node, mem_cons, not_or]
      exact ⟨fun h => heb (h ▸ hs), fun h => hbr s hs s (rootSlots_subset h) rfl⟩
    · exact fun s hs => hroots s (by simp [hs])
    · intro s hs hsr
      refine hrest s (by simp [hs]) ?_
      rw [rootSlots_node, mem_cons, not_or]
      exact ⟨fun h => her (h ▸ hs), hsr⟩

/-! ## Dissolving -/

theorem node_dissolve_ne {s outer inner : Slot} (h₁ : s ≠ outer) (h₂ : s ≠ inner) (h₃ : s ∉ t.children inner) :
    (t.dissolve outer inner).node s = t.node s := by
  simp only [dissolve, node_forget]
  rw [node_modify_ne h₂, node_modify_ne h₁, node_foldl_parent, if_neg fun h => h₃ h.1]

@[simp] theorem size_dissolve (outer inner : Slot) : (t.dissolve outer inner).size = t.size := by
  simp only [dissolve, size_forget]
  rw [size_modify, size_modify, size_foldl_modify]

theorem Stands.dissolve (h : t.Stands p? low (tree e (b ++ (tree x d ++ r)) ++ g)) :
    (t.dissolve e.slot x.slot).Stands p? low (tree e (b ++ (d ++ r)) ++ g) := by
  have hm := h.left
  obtain ⟨he, hb, hx, hr⟩ := (holds_tree.1 hm.holds).imp_right fun h => (holds_append.1 h).imp_right holds_append.1
  obtain ⟨hx, hd⟩ := holds_tree.1 hx
  have hmoved : t.children x.slot = d.rootSlots := by rw [children, hx]; rfl
  -- Everything is in a different slot.
  have hnd := hm.nodup
  simp only [slots_tree, slots_append, nodup_cons, mem_append, mem_cons, not_or, cons_append,
    nodup_append] at hnd
  obtain ⟨⟨heb, hex, hed, her⟩, hndb, ⟨⟨hxd, hxr⟩, hndd, hndr, hdr⟩, hbxdr⟩ := hnd
  have hroot : ∀ s ∈ d.rootSlots, s ∈ d.slots := fun s => rootSlots_subset
  have hbx : ∀ s ∈ b.slots, s ≠ x.slot := fun s hs => hbxdr s hs x.slot (.inl rfl)
  have hbd : ∀ s ∈ b.slots, s ∉ d.slots := fun s hs hsd => hbxdr s hs s (.inr (.inl hsd)) rfl
  have hsize : ∀ s ∈ d.slots, s.index < t.size := fun s hs => (hm.bound s (by simp [hs])).2
  have hout : ∀ s, s ≠ e.slot → s ≠ x.slot → s ∉ d.rootSlots → (t.dissolve e.slot x.slot).node s = t.node s :=
    fun s h₁ h₂ h₃ => node_dissolve_ne h₁ h₂ (hmoved ▸ h₃)
  refine h.replace_head (holds_tree.2 ⟨?_, holds_append.2 ⟨?_, holds_append.2 ⟨?_, ?_⟩⟩⟩) ?_ ?_ (by simp) ?_
  · simp only [Tree.dissolve, node_forget, hmoved]
    rw [node_modify_ne hex, node_modify_self (by rw [size_foldl_modify]; exact (hm.bound _ (by simp)).2),
      node_foldl_parent, if_neg fun h => hed (hroot _ h.1), he]
    have hbefore : (b.rootSlots ++ x.slot :: r.rootSlots).takeWhile (· != x.slot) = b.rootSlots := by
      rw [takeWhile_append_of_pos fun s hs => by simpa using hbx s (rootSlots_subset hs)]
      simp
    have hafter : (b.rootSlots ++ x.slot :: r.rootSlots).drop (b.rootSlots.length + 1) = r.rootSlots := by
      rw [← drop_drop, drop_left]
      rfl
    simp only [Entry.linked, rootSlots_append, rootSlots_tree, singleton_append, hbefore, hafter,
      List.append_assoc]
  · exact hb.congr fun s hs => hout s (fun h => heb (h ▸ hs)) (hbx s hs) fun h => hbd s hs (hroot s h)
  · refine hd.reparent hndd (fun s hs => ?_) fun s hs hsr =>
      hout s (fun h => hed (h ▸ hs)) (fun h => hxd (h ▸ hs)) hsr
    have hsx : s ≠ x.slot := fun h => hxd (h ▸ hroot s hs)
    have hse : s ≠ e.slot := fun h => hed (h ▸ hroot s hs)
    simp only [Tree.dissolve, node_forget, hmoved]
    rw [node_modify_ne hsx, node_modify_ne hse, node_foldl_parent, if_pos ⟨hs, hsize s (hroot s hs)⟩]
  · refine hr.congr fun s hs => hout s (fun h => her (h ▸ hs)) (fun h => hxr (h ▸ hs)) fun h => ?_
    exact hdr s (hroot s h) s hs rfl
  · simp only [slots_tree, slots_append, nodup_cons, mem_append, nodup_append, not_or]
    exact ⟨⟨heb, hed, her⟩, hndb, ⟨hndd, hndr, hdr⟩, fun s hs u hu => hbxdr s hs u (.inr hu)⟩
  · intro s hs
    simp only [slots_tree, slots_append, mem_cons, mem_append, cons_append] at hs ⊢
    rcases hs with hs | hs | hs | hs <;> simp [hs]
  · intro s hs _
    simp only [slots_tree, slots_append, mem_cons, mem_append, cons_append, not_or] at hs
    exact hout s hs.1 hs.2.2.1 fun h => hs.2.2.2.1 (hroot s h)

/-! ## Scopes that add nothing -/


variable {tokens : List Token} {s : Slot} {lo hi : Nat}

theorem besideGroup_eq_some {ss : List Slot} (h : redundantBody?.besideGroup t ss = some s) :
    ss.filter (t.tag · != .group) = [s] ∧ t.isScope s = true := by
  unfold redundantBody?.besideGroup at h
  split at h
  case h_1 body hf =>
    split at h
    case isTrue hs =>
      cases h
      exact ⟨hf, (Bool.and_eq_true_iff.1 hs).1⟩
    case isFalse => cases h
  case h_2 => cases h

theorem Holds.isScope_iff (h : t.Holds p? b) (hx : x ∈ b.members) : t.isScope x.slot = true ↔ x.node.tag = .scope := by
  rw [isScope, h.tag_eq hx, beq_iff_eq]

theorem Holds.exists_besideGroup {braced : Bool} {stop : Nat} (h : t.Holds p? b) (hb : Headed braced stop b.roots)
    (hs : redundantBody?.besideGroup t b.rootSlots = some s) :
    ∃ g k x d, b = tree g k ++ tree x d ∧ x.slot = s ∧ g.node.tag = .group ∧ x.node.tag = .scope ∧
      Governs braced stop [x] := by
  obtain ⟨hf, hsc⟩ := besideGroup_eq_some hs
  obtain ⟨y, ks, hks, hy, hst⟩ := hb
  obtain ⟨l, m, rfl, hl, hm⟩ := exists_append_of_roots (show b.roots = [y] ++ ks from hks)
  obtain ⟨k, rfl⟩ := exists_tree_of_roots hl
  have hyg : t.tag y.slot = .group := by rw [h.tag_eq (e := y) (by simp), hy]
  have hkg : ∀ u ∈ m.rootSlots, (t.tag u != .group) = true := by
    intro u hu
    obtain ⟨z, hz, rfl⟩ := mem_map.1 hu
    rw [h.tag_eq (e := z) (by simp [mem_members_of_mem_roots hz])]
    exact bne_iff_ne.2 (hst.tag_ne (hm ▸ hz))
  rw [rootSlots_append, rootSlots_tree, singleton_append, filter_cons, hyg,
    filter_eq_self.2 hkg] at hf
  obtain ⟨x, d, rfl, rfl⟩ := exists_tree_of_rootSlots (f := m) (by simpa using hf)
  exact ⟨y, k, x, d, rfl, rfl, hy, (h.isScope_iff (by simp)).1 hsc, by simpa [← hm] using hst⟩

/-- Governing a scope is governing what is in it. A list of statements that is one scope has a scope with braces. -/
theorem Governs.dissolve {braced : Bool} {stop : Nat} (h : Governs braced stop [x]) (hx : x.node.tag = .scope)
    (hle : x.node.span.stop ≤ stop) (hs : Shaped tokens (tree x d)) : Governs x.node.construct.braced stop d.roots := by
  have hshape := (every_tree.1 hs).1.2.1
  unfold Node.tag at hx
  cases hc : x.node.construct with
  | scope inner =>
    simp only [Shape, hc] at hshape
    refine .inl ⟨hshape.1, fun k hk hj => ?_⟩
    have hk := hshape.2 k hk hj
    rcases h with ⟨⟨-, hseq⟩, -⟩ | ⟨y, hy, -, hstop⟩
    · have hinner : inner = true := by
        cases inner with
        | true => rfl
        | false => exact absurd hc (hseq.construct_ne (by simp))
      exact ⟨fun _ => hinner, fun _ => Nat.lt_of_lt_of_le (hk.2 hinner) hle⟩
    · obtain rfl : x = y := by simpa using hy
      rwa [← hstop]
  | _ => simp [hc, Construct.tag] at hx

/-- Where a scope adds nothing, what is below it can take its place; the construct has its braces from then on. -/
theorem Stands.exists_redundant (h : t.Stands p? low (tree e b ++ g)) (he : Shape tokens e.node b.roots)
    (hb : Shaped tokens b) (hw : b.Within lo e.node.span.stop) (hs : t.redundantBody? e.slot = some s) :
    ∃ l x d, b = l ++ tree x d ∧ x.slot = s ∧ x.node.tag = .scope ∧ Shape tokens
      { e.node with construct := e.node.construct.setBraced x.node.construct.braced } (l ++ d).roots ∧
      (l ++ d).Marked false := by
  obtain ⟨he', hb'⟩ := holds_tree.1 h.left.holds
  have hc : t.children e.slot = b.rootSlots := by rw [children, he']; rfl
  have hheaded {braced : Bool} (hh : Headed braced e.node.span.stop b.roots)
      (hs : redundantBody?.besideGroup t b.rootSlots = some s) :
      ∃ l x d, b = l ++ tree x d ∧ x.slot = s ∧ x.node.tag = .scope ∧
        Headed x.node.construct.braced e.node.span.stop (l ++ d).roots ∧ (l ++ d).Marked false := by
    obtain ⟨y, k, x, d, rfl, rfl, hy, hx, hgov⟩ := hb'.exists_besideGroup hh hs
    exact ⟨tree y k, x, d, rfl, rfl, hx, ⟨y, d.roots, by simp, hy,
      Governs.dissolve hgov hx (hw.stop_le (by simp)) (every_append.1 hb).2⟩, fun hl => by simp [hy] at hl,
      (every_tree.1 (every_append.1 hb).2).1.2.2⟩
  rw [redundantBody?, h.left.holds.construct_eq (e := e) (by simp), hc] at hs
  cases hconstruct : e.node.construct with
  | function form =>
    simp only [Shape, hconstruct, Construct.setBraced] at he hs ⊢
    generalize hss : b.rootSlots = ss at hs
    split at hs
    case h_1 body =>
      obtain ⟨x, d, rfl, rfl⟩ := exists_tree_of_rootSlots hss
      split at hs
      case isTrue hsc =>
        have hx := (hb'.isScope_iff (by simp)).1 hsc
        cases hs
        exact ⟨.nil, x, d, rfl, rfl, hx, Governs.dissolve he hx (hw.stop_le (by simp)) hb, (every_tree.1 hb).1.2.2⟩
      case isFalse => cases hs
    case h_2 => cases hs
  | loop l =>
    simp only [Shape, hconstruct, Construct.setBraced] at he hs ⊢
    split at hs
    case isTrue => cases hs
    case isFalse hl =>
      rw [if_neg hl] at he
      obtain ⟨m, x, d, hb, hx, hsc, hh, hm⟩ := hheaded he hs
      exact ⟨m, x, d, hb, hx, hsc, by rwa [if_neg hl], hm⟩
  | branch group? _ =>
    simp only [Shape, hconstruct, Construct.setBraced] at he hs ⊢
    rcases he with he | ⟨y, x, z, hr, hy, hx, hz, -⟩
    · obtain ⟨m, x, d, hb, hx, hsc, hh, hm⟩ := hheaded he hs
      exact ⟨m, x, d, hb, hx, hsc, .inl hh, hm⟩
    · -- Two alternatives are not one scope.
      obtain ⟨hf, -⟩ := besideGroup_eq_some hs
      have htag : ∀ k ∈ b.roots, t.tag k.slot = k.node.tag := fun k hk => hb'.tag_eq (mem_members_of_mem_roots hk)
      simp only [hr, mem_cons, not_mem_nil, or_false, forall_eq_or_imp, forall_eq] at htag
      simp [rootSlots, hr, htag, hy, hx, hz] at hf
  | switch group? _ =>
    simp only [Shape, hconstruct, Construct.setBraced] at he hs ⊢
    exact hheaded he hs
  | _ => simp only [hconstruct, reduceCtorEq] at hs

theorem SameBelow.dissolve {outer inner : Slot} (ho : low ≤ outer.index) (hi : low ≤ inner.index)
    (hc : ∀ s ∈ t.children inner, low ≤ s.index) : SameBelow low t (t.dissolve outer inner) := by
  refine ⟨by simp, fun s hs => node_dissolve_ne ?_ ?_ fun h => ?_⟩
  · rintro rfl
    omega
  · rintro rfl
    omega
  · have := hc s h
    omega

theorem within_of_dissolve {l : Forest Entry} (h : (l ++ tree x d).Within lo hi) : (l ++ d).Within lo hi := by
  obtain ⟨mid, hl, hx⟩ := exists_within_of_append h
  rcases hx with ⟨-, rfl, hx⟩ | ⟨-, hlo, hd, hhi⟩
  · exact hl.append hx
  · exact hl.append (hd.mono hlo hhi)

theorem Stands.setBraced {u : Slot} {c : Construct} {span : Span}
    (h : t.Stands p? low (tree (.fresh u c span) b ++ g)) (braced : Bool) :
    (t.modify u fun n => { n with construct := n.construct.setBraced braced }).Stands p? low
      (tree (.fresh u (c.setBraced braced) span) b ++ g) :=
  Stands.modify_root (f := .nil) _ h fun _ _ => rfl

/-- Dissolving scopes that add nothing keeps the shape of their owner and its text. -/
theorem Stands.absorbIn : ∀ {n : Nat} {t : Tree} {e : Entry} {b : Forest Entry}, t.Stands p? low (tree e b ++ g) →
    Shaped tokens (tree e b) → b.Within lo e.node.span.stop →
    ∃ c b', (c.tag = e.node.tag ∧ c.params = e.node.construct.params) ∧
      (Tree.absorbIn e.slot n t).2.Stands p? low (tree (.fresh e.slot c e.node.span) b' ++ g) ∧
      SameBelow low t (Tree.absorbIn e.slot n t).2 ∧ Shaped tokens (tree (.fresh e.slot c e.node.span) b') ∧
      b'.Within lo e.node.span.stop
  | 0, t, e, b, h, hs, hw => by
    have hp : e = .fresh e.slot e.node.construct e.node.span := (every_tree.1 hs).1.1
    exact ⟨e.node.construct, b, ⟨rfl, rfl⟩, hp ▸ h, .refl _ _, hp ▸ hs, hw⟩
  | n + 1, t, e, b, h, hs, hw => by
    obtain ⟨⟨hp, hshape, -⟩, hb⟩ := every_tree.1 hs
    rw [Tree.absorbIn]
    cases hr : t.redundantBody? e.slot with
    | none => exact Stands.absorbIn (n := 0) h hs hw
    | some s =>
      obtain ⟨l, x, d, rfl, rfl, -, hshape', hmarked⟩ := h.exists_redundant hshape hb hw hr
      obtain ⟨u, construct, span, rfl⟩ := hp.exists_fresh
      have hlow (s : Slot) (hs : s ∈ (tree (.fresh u construct span) (l ++ tree x d)).slots) : low ≤ s.index :=
        (h.left.bound s hs).1
      have hchildren : t.children x.slot = d.rootSlots :=
        ((holds_append.1 (holds_tree.1 h.left.holds).2).2).children_eq
      have h₁ := Stands.dissolve (r := .nil) h
      rw [append_nil] at h₁
      have hconstruct : t.construct x.slot = x.node.construct := h.left.holds.construct_eq (by simp)
      have h₂ := h₁.setBraced (t.construct x.slot).braced
      have hbelow : Shaped tokens (l ++ d) := every_append.2 ((every_append.1 hb).imp_right fun h => (every_tree.1 h).2)
      obtain ⟨c, b', ⟨hc, hparams⟩, h₃, hsame, hs', hw'⟩ := Stands.absorbIn (n := n) h₂
        (every_tree.2 ⟨⟨rfl, hconstruct ▸ hshape', hmarked⟩, hbelow⟩) (within_of_dissolve hw)
      refine ⟨c, b', ⟨?_, ?_⟩, h₃, .trans (.dissolve ?_ ?_ ?_) (.trans (.modify _ ?_) hsame), hs', hw'⟩
      · rw [hc]
        exact Construct.tag_setBraced _ _
      · rw [hparams]
        exact Construct.params_setBraced _ _
      · exact hlow _ (by simp)
      · exact hlow _ (by simp)
      · rw [hchildren]
        exact fun s hs => hlow s (by simp [rootSlots_subset hs])
      · exact hlow u (by simp)

theorem Stands.absorb (h : t.Stands p? low (tree e b ++ g)) (hs : Shaped tokens (tree e b))
    (hw : b.Within lo e.node.span.stop) :
    ∃ c b', (c.tag = e.node.tag ∧ c.params = e.node.construct.params) ∧
      (t.absorb e.slot).2.Stands p? low (tree (.fresh e.slot c e.node.span) b' ++ g) ∧
      SameBelow low t (t.absorb e.slot).2 ∧ Shaped tokens (tree (.fresh e.slot c e.node.span) b') ∧
      b'.Within lo e.node.span.stop :=
  h.absorbIn hs hw

end Tree

end Deferral
