import Deferral.Proofs.Cutting
import Mathlib.Data.List.Chain

/-!
# Squashing any list of ranges

The depths in a list of ranges need not be those of a forest. Ranges with nothing below them are kept, in their order,
and all else is text of ranges that have others below them (`Range.Filled`). Everything is then at one level, so one
round is enough (`Range.squash_settles`).
-/

namespace Deferral.Range

open List

/-! ## Ranges that have others below them -/

/-- Each range, and whether others are below it: whether the next one is deeper. -/
def marked : List Range → List (Range × Bool)
  | [] => []
  | r :: rest => (r, rest.head?.any (r.depth < ·.depth)) :: marked rest

/-- The ranges with nothing below them. -/
def tips (rs : List Range) : List Range := ((marked rs).filter (!·.2)).map (·.1)

/-- The ranges with others below them. -/
def containers (rs : List Range) : List Range := ((marked rs).filter (·.2)).map (·.1)

section Marked

variable {r : Range} {rest : List Range}

theorem marked_append {xs ys : List Range} (h : ∀ x ∈ xs.getLast?, ∀ y ∈ ys.head?, y.depth ≤ x.depth) :
    marked (xs ++ ys) = marked xs ++ marked ys := by
  induction xs with
  | nil => rfl
  | cons x xs ih =>
    cases xs with
    | nil =>
      -- Only where the lists meet could the next range be another one.
      have hx : (ys.head?.any fun y => decide (x.depth < y.depth)) = false := by
        rw [Option.any_eq_false_iff_get]
        intro hs
        have := h x rfl (ys.head?.get hs) (Option.get_mem hs)
        rw [decide_eq_false_iff_not]
        omega
      simp [marked, hx]
    | cons x' xs =>
      have hrest := ih fun z hz => h z (by simpa using hz)
      rw [cons_append, marked, hrest]
      rfl

theorem marked_cons (r : Range) (rest : List Range) :
    marked (r :: rest) = (r, !(r.below rest).isEmpty) :: (marked (r.below rest) ++ marked (r.beyond rest)) := by
  have happend : marked rest = marked (r.below rest) ++ marked (r.beyond rest) := by
    rw [← marked_append, below_append_beyond]
    intro x hx y hy
    have hlt := depth_lt_of_mem_below (mem_of_getLast? hx)
    have hle := depth_le_of_head_beyond hy
    omega
  have hhead : (rest.head?.any fun x => decide (r.depth < x.depth)) = !(r.below rest).isEmpty := by
    cases rest with
    | nil => rfl
    | cons x xs => by_cases hx : r.depth < x.depth <;> simp [below, hx]
  rw [marked, hhead, happend]

theorem tips_cons (r : Range) (rest : List Range) :
    tips (r :: rest) = (if (r.below rest).isEmpty then [r] else tips (r.below rest)) ++ tips (r.beyond rest) := by
  rw [tips, marked_cons]
  by_cases hb : r.below rest = []
  · simp [tips, hb, marked]
  · simp [tips, hb]

theorem containers_cons (r : Range) (rest : List Range) : containers (r :: rest) =
    (if (r.below rest).isEmpty then [] else r :: containers (r.below rest)) ++ containers (r.beyond rest) := by
  rw [containers, marked_cons]
  by_cases hb : r.below rest = []
  · simp [containers, hb, marked]
  · simp [containers, hb]

theorem containers_of_flat {rs : List Range} (h : ∀ r ∈ rs, r.depth = 0) : containers rs = [] := by
  induction rs with
  | nil => rfl
  | cons r rest ih =>
    obtain ⟨-, hrest⟩ := forall_mem_cons.1 h
    have hnone : (rest.head?.any fun x => decide (r.depth < x.depth)) = false := by
      cases rest with
      | nil => rfl
      | cons x xs => simp [hrest x mem_cons_self]
    have := ih hrest
    simp only [containers] at this
    simp [containers, marked, hnone, this]

end Marked

/-! ## What becomes of the ranges -/

/-- Text of the container `c`, at its place and as it is, in cuts at one level. -/
structure GapOf (c g : Range) : Prop where
  tag : g.tag = c.tag
  depth : g.depth = 0
  inPlace : g.spliced = false
  lead : g.lead? = none
  own : g.replacement? = none

/-- The cuts are the given ranges, each once, in their order and unchanged but for the depth, and gaps of the sort `G`
between them. -/
inductive Filled (G : Range → Prop) : (kept cuts : List Range) → Prop
  | nil : Filled G [] []
  | kept {rs cuts : List Range} (r : Range) (h : Filled G rs cuts) : Filled G (r :: rs) ({ r with depth := 0 } :: cuts)
  | gap {rs cuts : List Range} {g : Range} (hg : G g) (h : Filled G rs cuts) : Filled G rs (g :: cuts)

section Filled

variable {G H : Range → Prop} {rs rs' cuts cuts' : List Range}

theorem Filled.append (h : Filled G rs cuts) (h' : Filled G rs' cuts') : Filled G (rs ++ rs') (cuts ++ cuts') := by
  induction h with
  | nil => exact h'
  | kept r _ ih => exact .kept r ih
  | gap hg _ ih => exact .gap hg ih

theorem Filled.after (h' : Filled G rs' cuts') (h : Filled G [] cuts) : Filled G rs' (cuts ++ cuts') := h.append h'

theorem Filled.mono (h : Filled G rs cuts) (hG : ∀ g, G g → H g) : Filled H rs cuts := by
  induction h with
  | nil => exact .nil
  | kept r _ ih => exact .kept r ih
  | gap hg _ ih => exact .gap (hG _ hg) ih

theorem Filled.depth_eq (h : Filled G rs cuts) (hG : ∀ g, G g → g.depth = 0) : ∀ c ∈ cuts, c.depth = 0 := by
  induction h with
  | nil => simp
  | kept r _ ih => exact forall_mem_cons.2 ⟨rfl, ih⟩
  | gap hg _ ih => exact forall_mem_cons.2 ⟨hG _ hg, ih⟩

theorem filled_gap (c : Range) (lo hi : Nat) (actions : Actions) :
    Filled (GapOf c) [] (Range.gap c lo hi actions).cuts := by
  rw [Range.gap]
  split
  · apply Filled.gap _ .nil
    constructor <;> rfl
  · exact .nil

theorem filled_approach (c child : Range) (cursor : Nat) (head : Actions) (upto? : Option Nat) :
    Filled (GapOf c) [] (approach c cursor head child upto?).before.cuts := by
  cases upto? with
  | none => exact .nil
  | some upto =>
    have hgap := filled_gap c cursor (max upto cursor) head
    simp only [approach, Cuts.cuts_append]
    split
    · exact hgap
    · exact hgap

theorem filled_cutOne {r : Range} {below : List Range}
    (h : Filled (fun g => ∃ k ∈ r :: containers below, GapOf k g) (tips below)
      (cutRun r r.start r.actions.leading below).cuts) :
    Filled (fun g => ∃ k ∈ if below.isEmpty then [] else r :: containers below, GapOf k g)
      (if below.isEmpty then [r] else tips below) (cutOne r below).cuts := by
  by_cases hb : below.isEmpty
  · rw [cutOne, if_pos hb, if_pos hb, if_pos hb]
    exact .kept r .nil
  · rw [cutOne, if_neg hb, if_neg hb, if_neg hb]
    exact h

/-- Around the ranges of a list stands text of the container, and in them text of those that have others below them. -/
theorem filled_cutRun (c : Range) (cursor : Nat) (head : Actions) (run : List Range) :
    Filled (fun g => ∃ k ∈ c :: containers run, GapOf k g) (tips run) (cutRun c cursor head run).cuts := by
  induction run using depthInduction generalizing c cursor head with
  | nil => exact (filled_gap c _ _ _).mono fun g hg => ⟨c, mem_cons_self, hg⟩
  | cons child rest ihb iha =>
    have hbefore := filled_approach c child cursor head (textEnd? c child (child.beyond rest))
    rw [cutRun_cons, tips_cons, containers_cons]
    dsimp only
    rw [Cuts.cuts_append, Cuts.cuts_append]
    apply Filled.append
    · refine Filled.after ?_ (hbefore.mono fun g hg => ⟨c, mem_cons_self, hg⟩)
      apply (filled_cutOne (ihb child _ _)).mono
      rintro g ⟨k, hk, hg⟩
      exact ⟨k, mem_cons_of_mem c (mem_append_left _ hk), hg⟩
    · apply (iha c _ _).mono
      rintro g ⟨k, hk, hg⟩
      refine ⟨k, ?_, hg⟩
      rcases mem_cons.1 hk with rfl | hk
      · exact mem_cons_self
      · exact mem_cons_of_mem c (mem_append_right _ hk)

/-- The cuts of a list are its ranges with nothing below them, and text of the others. -/
theorem filled_squash (rs : List Range) :
    Filled (fun g => ∃ c ∈ containers rs, GapOf c g) (tips rs) (squash rs).cuts := by
  induction rs using depthInduction with
  | nil => exact .nil
  | cons r rest _ iha =>
    rw [squash_cons, tips_cons, containers_cons, Cuts.cuts_append]
    apply Filled.append
    · apply (filled_cutOne (filled_cutRun r _ _ _)).mono
      rintro g ⟨c, hc, hg⟩
      exact ⟨c, mem_append_left _ hc, hg⟩
    · apply iha.mono
      rintro g ⟨c, hc, hg⟩
      exact ⟨c, mem_append_right _ hc, hg⟩

end Filled

/-! ## One round is enough -/

theorem depth_squash (rs : List Range) : ∀ c ∈ (squash rs).cuts, c.depth = 0 := by
  apply (filled_squash rs).depth_eq
  rintro g ⟨c, -, hg⟩
  exact hg.depth

theorem squash_of_flat {rs : List Range} (h : ∀ r ∈ rs, r.depth = 0) : squash rs = ⟨rs, []⟩ := by
  induction rs with
  | nil => rfl
  | cons r rest ih =>
    obtain ⟨hr, hrest⟩ := forall_mem_cons.1 h
    have hend : ∀ x ∈ rest.head?, x.depth ≤ r.depth := by
      intro x hx
      have := hrest x (mem_of_mem_head? hx)
      omega
    obtain ⟨hbelow, hbeyond⟩ : r.below ([] ++ rest) = [] ∧ r.beyond ([] ++ rest) = rest := below_append (by simp) hend
    rw [nil_append] at hbelow hbeyond
    have hself : ({ r with depth := 0 } : Range) = r := by rw [← hr]
    rw [squash_cons, hbelow, hbeyond, ih hrest, cutOne, if_pos isEmpty_nil, hself]
    rfl

theorem squash_squash (rs : List Range) : squash (squash rs).cuts = ⟨(squash rs).cuts, []⟩ :=
  squash_of_flat (depth_squash rs)

/-- Cutting in rounds: each round cuts the ranges that have others below them, and there is another one as long as there
were such ranges. -/
inductive Settles : List Range → Cuts → Prop
  | last {rs : List Range} (h : containers rs = []) : Settles rs (squash rs)
  | again {rs : List Range} {done : Cuts} (h : containers rs ≠ []) (hs : Settles (squash rs).cuts done) :
    Settles rs ⟨done.cuts, (squash rs).overlaps ++ done.overlaps⟩

theorem Settles.eq_squash {rs : List Range} {done : Cuts} (h : Settles rs done) : done = squash rs := by
  cases h with
  | last => rfl
  | again _ hs =>
    -- The second round finds everything at one level.
    cases hs with
    | last =>
      rw [squash_squash]
      simp only [append_nil]
    | again hne => exact absurd (containers_of_flat (depth_squash rs)) hne

theorem settles_squash (rs : List Range) : Settles rs (squash rs) := by
  by_cases h : containers rs = []
  · exact .last h
  · have hs : Settles (squash rs).cuts _ := .last (containers_of_flat (depth_squash rs))
    have := hs.again h
    rw [squash_squash] at this
    simpa only [append_nil] using this

/-! ## Ranges inside one another -/

/-- The second range lies in the first, one deeper, and leaves text on both sides. -/
structure Encloses (outer inner : Range) : Prop where
  start : outer.start < inner.start
  stop : inner.stop < outer.stop
  depth : inner.depth = outer.depth + 1

/-- Text of its own, as it stands in the source. -/
structure IsPlain (r : Range) : Prop extends r.Bare (· = {}) where
  filled : r.start < r.stop

/-- The cuts follow one another from `lo` to `hi`, and none is empty. -/
structure Tiling (lo hi : Nat) (cuts : List Range) : Prop where
  contiguous : Contiguous lo hi cuts
  filled : ∀ c ∈ cuts, c.spliced = false ∧ c.start < c.stop

theorem Tiling.append {lo mid hi : Nat} {cs ds : List Range} (h : Tiling lo mid cs) (h' : Tiling mid hi ds) :
    Tiling lo hi (cs ++ ds) :=
  ⟨h.contiguous.append h'.contiguous, forall_mem_append.2 ⟨h.filled, h'.filled⟩⟩

theorem gap_filled (c : Range) {lo hi : Nat} (h : lo < hi) (actions : Actions) :
    (gap c lo hi actions).cuts.length = 1 ∧ Tiling lo hi (gap c lo hi actions).cuts := by
  have hcont := contiguous_gap c h.le actions
  have hcuts : (gap c lo hi actions).cuts =
      [{ start := lo, stop := max hi lo, tag := c.tag, depth := 0, actions }] := by
    rw [gap, if_pos (by simp [h])]
  rw [hcuts] at hcont ⊢
  refine ⟨rfl, hcont, forall_mem_singleton.2 ⟨rfl, ?_⟩⟩
  simp only
  omega

/-- A chain of ranges is cut into their text before and after the next one, and all of the last. -/
theorem tiling_chain : ∀ {rs : List Range} {r : Range}, (r :: rs).IsChain Encloses → (∀ x ∈ r :: rs, x.IsPlain) →
    (squash (r :: rs)).cuts.length = 2 * rs.length + 1 ∧ Tiling r.start r.stop (squash (r :: rs)).cuts
  | [], r, _, hp => by
    have hr := hp r mem_cons_self
    refine ⟨rfl, (contiguous_inPlace hr.inPlace).2 ⟨rfl, hr.filled.le, rfl⟩, ?_⟩
    exact forall_mem_singleton.2 ⟨hr.inPlace, hr.filled⟩
  | s :: rs, r, hc, hp => by
    obtain ⟨hrs, hc⟩ := isChain_cons_cons.1 hc
    obtain ⟨hr, hp⟩ := forall_mem_cons.1 hp
    have hs := hp s mem_cons_self
    have hdeeper : ∀ {q : Range} {qs : List Range}, (q :: qs).IsChain Encloses → ∀ x ∈ qs, q.depth < x.depth := by
      intro q qs hq x hx
      have htrans : (q :: qs).IsChain fun x y => x.depth < y.depth := hq.imp fun x y hxy => by
        have := hxy.depth
        omega
      exact rel_of_pairwise_cons htrans.pairwise hx
    obtain ⟨hcount, htiling⟩ := tiling_chain hc hp
    have hbelow := below_of_deeper (hdeeper hc)
    have hbeyond := beyond_of_deeper (hdeeper hc)
    have hone : cutOne s rs = squash (s :: rs) := (squash_deeper (hdeeper hc)).symm
    have hcuts : squash (r :: s :: rs) = gap r r.start s.start {} ++ squash (s :: rs) ++ gap r s.stop r.stop {} := by
      have hstart := hrs.start
      have hstop := hrs.stop
      have hfilled := hs.filled
      rw [squash_deeper (hdeeper (.cons_cons hrs hc)), cutOne, if_neg (by simp), cutRun_cons, hbelow, hbeyond, hone,
        textEnd?, hs.inPlace, if_neg Bool.false_ne_true, approach_some hstart.le, hr.requests]
      simp only [Approach.pass, hs.inPlace, Bool.false_eq_true, if_false, cutRun_nil, hr.requests]
      rw [Nat.max_eq_right hfilled.le, Nat.max_eq_left hstop.le]
      rfl
    obtain ⟨hcount₁, htiling₁⟩ := gap_filled r hrs.start {}
    obtain ⟨hcount₂, htiling₂⟩ := gap_filled r hrs.stop {}
    rw [hcuts]
    constructor
    · simp only [Cuts.cuts_append, length_append, hcount, hcount₁, hcount₂, length_cons]
      omega
    · exact (htiling₁.append htiling).append htiling₂

/-- **Squashing settles.** However many steps more than enough are allowed, and in as many rounds as there are ranges to
be cut, squashing comes to its end with the same cuts. They are at one level and squashing them changes nothing. The
ranges with nothing below them are all there, each once, in order and as they were but for their depth; all else is text
of the other ranges. Ranges inside one another are cut into tiles of the outermost. -/
theorem squash_settles (rs : List Range) :
    (∀ n, 2 * rs.length ≤ n → flatten n rs = squash rs) ∧ (∀ done, Settles rs done ↔ done = squash rs) ∧
      (∀ c ∈ (squash rs).cuts, c.depth = 0) ∧ squash (squash rs).cuts = ⟨(squash rs).cuts, []⟩ ∧
      Filled (fun g => ∃ c ∈ containers rs, GapOf c g) (tips rs) (squash rs).cuts ∧
      ∀ r ∈ rs.head?, rs.IsChain Encloses → (∀ x ∈ rs, x.IsPlain) →
        (squash rs).cuts.length = 2 * rs.length - 1 ∧ Tiling r.start r.stop (squash rs).cuts := by
  refine ⟨fun n hn => flatten_of_le hn, fun done => ?_, depth_squash rs, squash_squash rs, filled_squash rs, ?_⟩
  · constructor
    · exact Settles.eq_squash
    · rintro rfl
      exact settles_squash rs
  · intro r hr hc hp
    obtain ⟨rest, rfl⟩ : ∃ rest, rs = r :: rest := head?_eq_some_iff.1 hr
    obtain ⟨hcount, htiling⟩ := tiling_chain hc hp
    refine ⟨?_, htiling⟩
    rw [hcount, length_cons]
    omega

/-- A name in a call in a function. -/
def threeDeep : List Range := [⟨0, 9, .function, 0, {}, false, none, none⟩, ⟨2, 7, .suffixed, 1, {}, false, none, none⟩,
  ⟨3, 4, .identifier, 2, {}, false, none, none⟩]

theorem squash_settles_threeDeep : flatten 20 threeDeep = squash threeDeep ∧ Settles threeDeep (squash threeDeep) ∧
    (squash threeDeep).cuts.length = 5 ∧ Tiling 0 9 (squash threeDeep).cuts := by
  obtain ⟨hsteps, hrounds, -, -, -, hchain⟩ := squash_settles threeDeep
  have hc : threeDeep.IsChain Encloses := by
    refine .cons_cons ?_ (.cons_cons ?_ (.singleton _)) <;> constructor <;> decide
  have hp : ∀ x ∈ threeDeep, x.IsPlain := by
    intro x hx
    have hplain : ∀ x ∈ threeDeep, x.spliced = false ∧ x.actions = {} ∧ x.lead? = none ∧ x.replacement? = none ∧
        x.start < x.stop := by decide
    obtain ⟨hplace, hactions, hlead, hown, hfilled⟩ := hplain x hx
    exact ⟨⟨hplace, hactions, hlead, hown⟩, hfilled⟩
  exact ⟨hsteps 20 (by decide), (hrounds _).2 rfl, hchain _ rfl hc hp⟩

end Deferral.Range
