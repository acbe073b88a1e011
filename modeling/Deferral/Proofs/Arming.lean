import Deferral.Proofs.Resolving

/-!
# What is armed

Deferred statements are armed at a depth, and a jump fires what is armed right below the scopes that it leaves
(`Firing.left_cons`). If deferred statements stand below scopes (`Firing.Armable`), then after a list of statements just
its own are armed besides those before it (`Firing.Resolves.armed_after`).
-/

namespace Deferral.Firing

open Forest

variable {t : Tree} {whole f f' : Forest Entry} {d : Nat} {scopes outer armed armed' : List Placed} {x : Placed}
  {exit : Exit}

/-! ## Depths -/

/-- What is armed at a depth, the latest first. -/
def armedAt (d : Nat) (armed : List Placed) : List Slot := (armed.filter (·.depth == d)).map (·.slot)

theorem armedAt_eq_nil (h : ∀ a ∈ armed, a.depth < d) : armedAt d armed = [] := by
  have hnone : armed.filter (·.depth == d) = [] := by
    refine List.filter_eq_nil_iff.2 fun a ha => ?_
    have := h a ha
    simp only [beq_iff_eq]
    omega
  rw [armedAt, hnone, List.map_nil]

theorem armedAt_cons_self (s : Slot) : armedAt d (⟨s, d⟩ :: armed) = s :: armedAt d armed := by simp [armedAt]

theorem armedAt_cons_ne (s : Slot) {k : Nat} (h : k ≠ d) : armedAt k (⟨s, d⟩ :: armed) = armedAt k armed := by
  simp [armedAt, h.symm]

@[simp] theorem left_nil : left t [] armed exit = [] := rfl

theorem left_cons : left t (x :: outer) armed exit =
    armedAt (x.depth + 1) armed ++ if exit.stopsAt (t.tag x.slot) then [] else left t outer armed exit := by
  simp only [left, Plan.owed, leftBy]
  split <;> simp [armedAt, Plan.owned, Function.comp_def]

theorem left_arm {s : Slot} (h : ∀ y ∈ outer, y.depth + 1 ≠ d) :
    left t outer (⟨s, d⟩ :: armed) exit = left t outer armed exit := by
  induction outer with
  | nil => rfl
  | cons y outer ih =>
    obtain ⟨hy, ho⟩ := List.forall_mem_cons.1 h
    rw [left_cons, left_cons, armedAt_cons_ne s hy, ih ho]

/-! ## Lists of statements -/

/-- Deferred statements stand below scopes, as far as they are in no deferred statement. -/
def Armable (t : Tree) : Forest Entry → Prop
  | .nil => True
  | .node e below rest =>
    (t.tag e.slot ≠ .deferred →
      (opens (t.tag e.slot) = false → ∀ k ∈ below.rootSlots, t.tag k ≠ .deferred) ∧ Armable t below) ∧
    Armable t rest

theorem armable_of_parents {p? : Option Slot} (h : t.Holds p? f)
    (hd : ∀ s ∈ Firing.outer t f, t.tag s = .deferred → ∀ p ∈ t.parent? s, opens (t.tag p) = true) : Armable t f := by
  induction f generalizing p? with
  | nil => trivial
  | node e b r ihb ihr =>
    refine ⟨fun hdef => ?_, ihr h.2.2 fun s hs => hd s (by simp [Firing.outer, hs])⟩
    rw [outer_passes hdef] at hd
    refine ⟨fun ho k hk htag => ?_, ihb h.2.1 fun s hs => hd s (by simp [hs])⟩
    have := hd k (by simp [rootSlots_subset_outer b hk]) htag e.slot (h.2.1.parent_root hk)
    simp [ho] at this

/-- What a list of statements arms, the latest first. -/
def arming (t : Tree) (d : Nat) (ss : List Slot) : List Placed :=
  ((ss.filter (t.tag · = .deferred)).reverse).map (⟨·, d⟩)

theorem arming_cons_deferred {s : Slot} (h : t.tag s = .deferred) (ss : List Slot) :
    arming t d (s :: ss) = arming t d ss ++ [⟨s, d⟩] := by simp [arming, h]

theorem arming_cons {s : Slot} (h : t.tag s ≠ .deferred) (ss : List Slot) :
    arming t d (s :: ss) = arming t d ss := by simp [arming, h]

theorem arming_eq_nil {ss : List Slot} (h : ∀ s ∈ ss, t.tag s ≠ .deferred) : arming t d ss = [] := by
  have hnone : ss.filter (t.tag · = .deferred) = [] := List.filter_eq_nil_iff.2 fun s hs => by simpa using h s hs
  rw [arming, hnone, List.reverse_nil, List.map_nil]

theorem depth_arming (ss : List Slot) : ∀ a ∈ arming t d ss, a.depth = d := by
  intro a ha
  obtain ⟨s, -, rfl⟩ := List.mem_map.1 ha
  rfl

theorem filter_arming (h : ∀ a ∈ armed, a.depth ≤ d) (ss : List Slot) :
    (arming t (d + 1) ss ++ armed).filter (·.depth != d + 1) = armed := by
  have hnone : (arming t (d + 1) ss).filter (·.depth != d + 1) = [] :=
    List.filter_eq_nil_iff.2 fun a ha => by simp [depth_arming ss a ha]
  have hall : armed.filter (·.depth != d + 1) = armed := by
    refine List.filter_eq_self.2 fun a ha => ?_
    have := h a ha
    simp only [bne_iff_ne]
    omega
  rw [List.filter_append, hnone, hall, List.nil_append]

/-- After a list, just its own deferred statements are armed besides those before it. -/
theorem Resolves.armed_after (h : Resolves t whole d scopes armed f armed' f') (hp : Armable t f)
    (ha : ∀ a ∈ armed, a.depth ≤ d) : armed' = arming t d f.rootSlots ++ armed := by
  induction h with
  | nil => rfl
  | deferred hd _ ih =>
    rw [ih hp.2 (List.forall_mem_cons.2 ⟨le_rfl, ha⟩), rootSlots_node, arming_cons_deferred hd]
    simp
  | opens ho _ _ _ ihb ihr =>
    have hd : t.tag _ ≠ .deferred := fun hd => by rw [hd] at ho; cases ho
    have hb := ihb (hp.1 hd).2 fun a hm => Nat.le_succ_of_le (ha a hm)
    rw [hb, filter_arming ha] at ihr
    rw [ihr hp.2 ha, rootSlots_node, arming_cons hd]
  | passes hd ho _ _ _ ihb ihr =>
    have hb := ihb (hp.1 hd).2 fun a hm => Nat.le_succ_of_le (ha a hm)
    rw [arming_eq_nil ((hp.1 hd).1 ho), List.nil_append] at hb
    rw [ihr hp.2 (hb ▸ ha), rootSlots_node, arming_cons hd, hb]
  | leaves hx _ _ _ _ ih | stores hx _ _ _ _ _ ih =>
    obtain ⟨hd, -⟩ := exit?_passes (by rw [hx]; rfl)
    rw [ih hp.2 ha, rootSlots_node, arming_cons hd]

end Deferral.Firing
