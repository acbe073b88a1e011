import Deferral.Proofs.Arming

/-!
# What surrounds a statement

The way up from a statement leads through the scopes around it, and in each of them some deferred statements stand
before the way (`Firing.around`). What a jump owes is read off this way: the pending statements of the scopes up to its
target (`Firing.owedAt`). At every statement that the plan comes to, the open scopes and what is armed in them are just
this way (`Firing.Inside`), so what the plan fires at a jump and at the end of a scope is what the tree says
(`Inside.left_eq`, `Inside.boundBy?_eq`, `ended_eq`).
-/

namespace Deferral.Firing

open Forest
open List hiding append_assoc append_nil map_append

/-! ## The way up -/

/-- The deferred statements of a scope before one of its children, the latest first. -/
def pendingBefore (t : Tree) (scope child : Slot) : List Slot :=
  (((t.children scope).takeWhile (· != child)).filter (t.tag · = .deferred)).reverse

/-- The scopes around a node, innermost first, each with what is pending in it before the way up; in at most `steps`
steps. -/
def around (t : Tree) : (steps : Nat) → Slot → List (Slot × List Slot)
  | 0, _ => []
  | n + 1, s =>
    match t.parent? s with
    | none => []
    | some p => if opens (t.tag p) then (p, pendingBefore t p s) :: around t n p else around t n p

/-- A way as far as the target of a jump, or all of it if there is no target. -/
def upTo (t : Tree) (exit : Exit) : List (Slot × List Slot) → List (Slot × List Slot)
  | [] => []
  | scope :: outer => if exit.stopsAt (t.tag scope.1) then [scope] else scope :: upTo t exit outer

/-- The deferred statements that a jump has to fire, in the order of firing. -/
def owedAt (t : Tree) (jump : Slot) (exit : Exit) : List Slot := (upTo t exit (around t t.size jump)).flatMap (·.2)

/-- The scope that a jump leads out of, the last one that it leaves. -/
def targetAt? (t : Tree) (jump : Slot) (exit : Exit) : Option Slot :=
  ((around t t.size jump).map (·.1)).find? fun s => exit.stopsAt (t.tag s)

/-- The value that a jump has to store before it fires something, with its type. -/
def bindingAt? (t : Tree) (jump : Slot) (exit : Exit) : Option (Slot × String) :=
  if owedAt t jump exit = [] then none else binding? t jump (targetAt? t jump exit)

/-- Whether the last statement of a scope, deferred ones apart, is a jump. -/
def jumpsAtEnd (t : Tree) (scope : Slot) : Bool :=
  (((t.children scope).filter fun s => t.tag s ≠ .deferred ∧ t.tag s ≠ .group).getLast?).any fun s =>
    t.tag s = .returned ∨ t.tag s = .jump

/-- The deferred statements that fire at the end of a scope, in the order of firing. -/
def endingAt (t : Tree) (scope : Slot) : List Slot :=
  if opens (t.tag scope) = true ∧ jumpsAtEnd t scope = false then
    ((t.children scope).filter (t.tag · = .deferred)).reverse
  else []

variable {t : Tree} {whole f f' b r : Forest Entry} {e : Entry} {p : Slot} {d : Nat} {scopes armed inner : List Placed}
  {done : List Slot} {beyond : List (Slot × List Slot)} {exit : Exit}

theorem fallsOffEnd_eq (scope : Slot) : fallsOffEnd t scope = !jumpsAtEnd t scope := by
  have hlast : ((t.children scope).filter fun s => t.tag s ≠ .deferred ∧ t.tag s ≠ .group).getLast? =
      (t.children scope).reverse.find? fun s => t.tag s != .deferred && t.tag s != .group := by
    rw [← head?_reverse, ← filter_reverse, head?_filter]
    congr 1
    funext s
    exact Bool.eq_iff_iff.2 (by simp)
  rw [fallsOffEnd, jumpsAtEnd, hlast]
  cases (t.children scope).reverse.find? fun s => t.tag s != .deferred && t.tag s != .group with
  | none => rfl
  | some last => by_cases hr : t.tag last = .returned <;> by_cases hj : t.tag last = .jump <;> simp [hr, hj]

/-! ## The plan on its way -/

/-- The way up from the children of `p` that come after `done`. -/
def way (t : Tree) (p : Slot) (done : List Slot) (beyond : List (Slot × List Slot)) : List (Slot × List Slot) :=
  if opens (t.tag p) then (p, (done.filter (t.tag · = .deferred)).reverse) :: beyond else beyond

theorem way_opens (h : opens (t.tag p) = true) :
    way t p done beyond = (p, (done.filter (t.tag · = .deferred)).reverse) :: beyond := if_pos h

theorem way_passes (h : opens (t.tag p) = false) : way t p done beyond = beyond := by simp [way, h]

/-- An open scope on the way up, and what is armed in it. -/
structure Matches (armed : List Placed) (x : Placed) (scope : Slot × List Slot) : Prop where
  slot : x.slot = scope.1
  pending : armedAt (x.depth + 1) armed = scope.2

/-- What is armed at one depth does not change the scopes whose statements are at others. -/
theorem matching_arm {s : Slot} (hd : ∀ y ∈ scopes, y.depth + 1 ≠ d) (h : List.Forall₂ (Matches armed) scopes beyond) :
    List.Forall₂ (Matches (⟨s, d⟩ :: armed)) scopes beyond := by
  induction h with
  | nil => exact .nil
  | cons hx _ ih =>
    obtain ⟨hne, hd⟩ := forall_mem_cons.1 hd
    exact .cons ⟨hx.slot, (armedAt_cons_ne s hne).trans hx.pending⟩ (ih hd)

/-- The plan comes to the trees `f` at depth `d`, children of `p` after `done`. The way up from `p` is `beyond`. -/
structure Inside (t : Tree) (p : Slot) (done : List Slot) (beyond : List (Slot × List Slot)) (d : Nat)
    (scopes armed : List Placed) (f : Forest Entry) : Prop where
  holds : t.Holds (some p) f
  children : t.children p = done ++ f.rootSlots
  nodup : (t.children p).Nodup
  around_eq : ∀ n, d ≤ n + 1 → around t n p = beyond
  matching : List.Forall₂ (Matches armed) scopes (way t p done beyond)
  armable : Armable t f
  owner : opens (t.tag p) = false → ∀ k ∈ f.rootSlots, t.tag k ≠ .deferred
  innermost : opens (t.tag p) = true → ∃ outer, scopes = ⟨p, d - 1⟩ :: outer ∧ ∀ y ∈ outer, y.depth + 1 < d
  depth_armed : ∀ a ∈ armed, a.depth ≤ d
  depth_scopes : ∀ y ∈ scopes, y.depth < d
  depth_pos : 0 < d
  size : d + f.members.length ≤ t.size

namespace Inside

section

variable (h : Inside t p done beyond d scopes armed (.node e b r))
include h

theorem around_root {n : Nat} (hn : d ≤ n) :
    around t n e.slot = way t p done beyond := by
  have hpos := h.depth_pos
  obtain ⟨m, rfl⟩ : ∃ m, n = m + 1 := ⟨n - 1, by omega⟩
  have hnot : ∀ s ∈ done, (s != e.slot) = true := by
    have hnd := h.children ▸ h.nodup
    intro s hs
    refine bne_iff_ne.2 fun heq => ?_
    exact (disjoint_of_nodup_append hnd) hs (by simp [heq])
  have hbefore : (t.children p).takeWhile (· != e.slot) = done := by
    rw [h.children, takeWhile_append_of_pos hnot, rootSlots_node, takeWhile_cons_of_neg (by simp),
      List.append_nil]
  rw [around, h.holds.parent?_eq]
  simp only [pendingBefore, hbefore, h.around_eq m (by omega), way]

theorem around_size :
    around t t.size e.slot = way t p done beyond := h.around_root (by have := h.size; omega)

theorem skip (hd : t.tag e.slot ≠ .deferred) :
    Inside t p (done ++ [e.slot]) beyond d scopes armed r := by
  have hway : way t p (done ++ [e.slot]) beyond = way t p done beyond := by simp [way, filter_append, hd]
  exact {
    h with
    holds := h.holds.2.2
    children := by rw [h.children, rootSlots_node, List.append_assoc, singleton_append]
    matching := by rw [hway]; exact h.matching
    armable := h.armable.2
    owner := fun ho k hk => h.owner ho k (by simp [hk])
    size := by
      have := h.size
      rw [length_node] at this
      omega }

theorem arm (hd : t.tag e.slot = .deferred) :
    Inside t p (done ++ [e.slot]) beyond d scopes (⟨e.slot, d⟩ :: armed) r := by
  have ho : opens (t.tag p) = true := by
    by_contra hn
    exact h.owner (by simpa using hn) e.slot (by simp) hd
  obtain ⟨outer, rfl, houter⟩ := h.innermost ho
  have hpos := h.depth_pos
  have hpred : d - 1 + 1 = d := by omega
  have hmatching := h.matching
  rw [way_opens ho] at hmatching
  obtain ⟨⟨-, hself⟩, hrest⟩ := List.forall₂_cons.1 hmatching
  rw [hpred] at hself
  exact {
    h with
    holds := h.holds.2.2
    children := by rw [h.children, rootSlots_node, List.append_assoc, singleton_append]
    matching := by
      rw [way_opens ho]
      refine .cons ⟨rfl, ?_⟩ (matching_arm (fun y hy => (houter y hy).ne) hrest)
      rw [hpred, armedAt_cons_self, hself]
      simp [filter_append, hd]
    armable := h.armable.2
    owner := fun ho k hk => h.owner ho k (by simp [hk])
    depth_armed := forall_mem_cons.2 ⟨Nat.le_refl d, h.depth_armed⟩
    size := by
      have := h.size
      rw [length_node] at this
      omega }

theorem enter (ho : opens (t.tag e.slot) = true)
    (hn : b.rootSlots.Nodup) :
    Inside t e.slot [] (way t p done beyond) (d + 1) (⟨e.slot, d⟩ :: scopes) armed b where
  holds := h.holds.2.1
  children := h.holds.children_eq
  nodup := h.holds.children_eq ▸ hn
  around_eq n hle := h.around_root (by omega)
  matching := by
    rw [way_opens ho]
    refine .cons ⟨rfl, ?_⟩ h.matching
    exact armedAt_eq_nil fun a ha => Nat.lt_succ_of_le (h.depth_armed a ha)
  armable := (h.armable.1 fun hd => by simp [hd, opens] at ho).2
  owner hn := by simp [ho] at hn
  innermost _ := ⟨scopes, rfl, fun y hy => by have := h.depth_scopes y hy; omega⟩
  depth_armed a ha := Nat.le_succ_of_le (h.depth_armed a ha)
  depth_scopes := forall_mem_cons.2 ⟨Nat.lt_succ_self d, fun y hy => Nat.lt_succ_of_lt (h.depth_scopes y hy)⟩
  depth_pos := Nat.succ_pos d
  size := by
    have := h.size
    rw [length_node] at this
    omega

theorem below (hd : t.tag e.slot ≠ .deferred)
    (ho : opens (t.tag e.slot) = false) (hn : b.rootSlots.Nodup) :
    Inside t e.slot [] (way t p done beyond) (d + 1) scopes armed b where
  holds := h.holds.2.1
  children := h.holds.children_eq
  nodup := h.holds.children_eq ▸ hn
  around_eq n hle := h.around_root (by omega)
  matching := by
    rw [way_passes ho]
    exact h.matching
  armable := (h.armable.1 hd).2
  owner := (h.armable.1 hd).1
  innermost hopens := by simp [ho] at hopens
  depth_armed a ha := Nat.le_succ_of_le (h.depth_armed a ha)
  depth_scopes y hy := Nat.lt_succ_of_lt (h.depth_scopes y hy)
  depth_pos := Nat.succ_pos d
  size := by
    have := h.size
    rw [length_node] at this
    omega

end

end Inside

/-! ## What fires -/

theorem left_of_matching (h : List.Forall₂ (Matches armed) scopes beyond) :
    left t scopes armed exit = (upTo t exit beyond).flatMap (·.2) := by
  induction h with
  | nil => rfl
  | @cons x scope _ _ hx _ ih =>
    rw [left_cons, upTo, hx.slot, hx.pending, ih]
    split <;> simp

theorem target_of_matching (h : List.Forall₂ (Matches armed) scopes beyond) :
    ((leftBy t exit scopes).getLast?.map (·.slot)).filter (fun s => exit.stopsAt (t.tag s)) =
      (beyond.map (·.1)).find? fun s => exit.stopsAt (t.tag s) := by
  induction h with
  | nil => rfl
  | @cons x scope xs _ hx _ ih =>
    rw [leftBy, map_cons, find?_cons, ← hx.slot]
    cases hstop : exit.stopsAt (t.tag x.slot) with
    | true => simp [hstop]
    | false =>
      rw [← ih, if_neg (by simp)]
      cases hl : leftBy t exit xs with
      | nil => simp [hstop]
      | cons y l => rw [getLast?_cons_cons]

namespace Inside

section

variable (h : Inside t p done beyond d scopes armed (.node e b r))
include h

theorem left_eq (exit : Exit) :
    left t scopes armed exit = owedAt t e.slot exit := by
  rw [owedAt, h.around_size]
  exact left_of_matching h.matching

/-- A jump that fires something stores the value of a `return` if it has to. -/
theorem boundBy?_eq (exit : Exit)
    (hne : left t scopes armed exit ≠ []) :
    Plan.boundBy? t { scopes, armed } e.slot exit = bindingAt? t e.slot exit := by
  rw [bindingAt?, if_neg (h.left_eq exit ▸ hne), targetAt?, h.around_size, Plan.boundBy?]
  rw [target_of_matching h.matching]

theorem bindingAt?_eq_none
    (hnil : left t scopes armed exit = []) : bindingAt? t e.slot exit = none := by
  rw [bindingAt?, if_pos (h.left_eq exit ▸ hnil)]

end

end Inside

theorem ended_eq (ho : opens (t.tag e.slot) = true) (hc : t.children e.slot = b.rootSlots)
    (ha : ∀ a ∈ armed, a.depth ≤ d) :
    ended t (arming t (d + 1) b.rootSlots ++ armed) ⟨e.slot, d⟩ = endingAt t e.slot := by
  have hown : (arming t (d + 1) b.rootSlots).filter (·.depth == d + 1) = arming t (d + 1) b.rootSlots :=
    filter_eq_self.2 fun a hm => by simp [depth_arming _ a hm]
  have hold : armedAt (d + 1) armed = [] := armedAt_eq_nil fun a hm => Nat.lt_succ_of_le (ha a hm)
  have howned : (Plan.owned { armed := arming t (d + 1) b.rootSlots ++ armed } ⟨e.slot, d⟩).map (·.slot) =
      ((t.children e.slot).filter (t.tag · = .deferred)).reverse := by
    rw [armedAt] at hold
    rw [Plan.owned, filter_append, List.map_append, hold, hown, arming, hc]
    simp [Function.comp_def]
  rw [ended, endingAt, howned, fallsOffEnd_eq]
  cases jumpsAtEnd t e.slot <;> simp [ho]

end Deferral.Firing
