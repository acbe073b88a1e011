import Deferral.Proofs.Pushing
import Deferral.Proofs.Scopes

/-!
# Declarations on the stage

The words and marks of a declaration wait as fragments until the declared name comes; the name then becomes one more
operand, with text from the first fragment on. A name is taken if words of a type came before it, or before an earlier
name of the same declaration (`Declares`). Specifiers always come first, so the events of a declaration and of the head
of a function are taken as soon as their literals are legible.
-/

namespace Deferral.Assembly

open Forest Grammar Term
open List hiding append_nil nil_append

variable {a b b' : Assembly} {lo hi p : Nat} {f g : Forest Entry} {e : Event} {xs : List Term} {source : List UInt8}

/-- Operands `f` have been staged since `a`, and words of a type may come. Those that came start after the operands. -/
structure Reads (a b : Assembly) (lo hi : Nat) (f : Forest Entry) : Prop where
  holding : Holding { a with fragments := b.fragments } b lo hi f .nil
  after : ∀ r ∈ b.fragments, hi ≤ r.start
  failure : b.failure? = none
  mode : a.mode ≠ .tagName
  blank : a.fragments = []

/-- A name may come: it finds a type. -/
structure Declares (a b : Assembly) (lo hi : Nat) (f : Forest Entry) : Prop extends Reads a b lo hi f where
  typed : (∃ r ∈ b.fragments, r.kind = .type) ∨ b.sharedType?.isSome = true

/-- A name has come. -/
structure Declared (a b : Assembly) (lo hi : Nat) (f : Forest Entry) : Prop where
  holding : Holding a b lo hi f .nil
  failure : b.failure? = none
  shared : b.sharedType?.isSome = true

theorem Reads.intro (H : Holding a b lo hi f .nil) (hb : b.failure? = none) (hm : a.mode ≠ .tagName)
    (ha : a.fragments = []) : Reads a b lo hi f := by
  have hfragments : b.fragments = a.fragments := H.keeps.fragments
  exact ⟨by rw [hfragments]; exact H, by simp [hfragments, ha], hb, hm, ha⟩

theorem Declared.declares (D : Declared a b lo hi f) (hm : a.mode ≠ .tagName) (ha : a.fragments = []) :
    Declares a b lo hi f := ⟨.intro D.holding D.failure hm ha, .inr D.shared⟩

/-- Events of expressions after a name. -/
theorem Declared.run (D : Declared a b lo p f) {es : List Event} {ys : List Term} (hr : Rising p es hi)
    (hp : Pushes es f.terms ys) : ∃ b' g, Takes b es b' ∧ Declared a b' lo hi g ∧ g.terms = ys := by
  obtain ⟨t, l, g, ht, H, hterms, -⟩ := D.holding.run D.failure hr hp
  exact ⟨_, g, ht, ⟨H, D.failure, D.shared⟩, hterms⟩

/-! ## Words and marks -/

theorem Reads.push (R : Reads a b lo hi f) {r : Fragment} (hr : hi ≤ r.start) (tag? : Option Fragment) :
    Reads a { b with fragments := b.fragments ++ [r], waitingTag? := tag? } lo hi f := by
  obtain ⟨H, hafter, hb, hm, ha⟩ := R
  refine ⟨⟨{ H.keeps with fragments := rfl }, H.lastEnd, H.base, H.staged, H.stands, H.within, H.operands⟩,
    ?_, hb, hm, ha⟩
  simpa [or_imp, forall_and] using ⟨hafter, hr⟩

theorem Reads.specifier (R : Reads a b lo hi f) (s : Specifier) (hp : hi ≤ p) (ho : Ordered p s.tokens)
    (hl : ∀ e ∈ s.events, e.legible = true) : ∃ b', Takes b s.events b' ∧ Declares a b' lo hi f := by
  cases s with
  | word t =>
    obtain ⟨span, hspan⟩ := exists_leafSpan (hl _ mem_cons_self) b
    obtain ⟨-, hstart, -⟩ := leafSpan_ok hspan (leafAfter_text ho.1)
    have hmode : b.mode ≠ .tagName := by rw [Assembly.mode, R.holding.keeps.modes]; exact R.mode
    have h : dispatch (mark .typeWord t.stop t.text) b = .ok ()
        { b with fragments := b.fragments ++ [⟨.type, span.start, t.text⟩] } := by
      refine bind_ok.2 ⟨_, _, hspan, ?_⟩
      rw [get_bind, if_neg hmode]
      rfl
    exact ⟨_, .of_dispatch R.failure h, R.push (hp.trans hstart) _,
      .inl ⟨_, mem_append_right _ (mem_singleton.2 rfl), rfl⟩⟩
  | tag k n =>
    simp only [Specifier.events, forall_mem_cons] at hl
    obtain ⟨span, hspan⟩ := exists_leafSpan hl.1 b
    obtain ⟨-, hstart, -⟩ := leafSpan_ok hspan (leafAfter_text ho.1)
    -- The keyword waits for its name.
    let b₁ : Assembly := { b with waitingTag? := some ⟨.type, span.start, k.1.text⟩, modes := .tagName :: b.modes }
    have h₁ : dispatch (mark .tagKeyword k.1.stop k.1.text) b = .ok () b₁ := bind_ok.2 ⟨_, _, hspan, rfl⟩
    obtain ⟨span', hspan'⟩ := exists_leafSpan hl.2.1 b₁
    have h₂ : dispatch (tokenLeaf .typeWord n.1) b₁ = .ok ()
        { b with
          waitingTag? := none
          fragments := b.fragments ++ [⟨.type, span.start, k.1.text ++ " " ++ n.1.literal⟩] } :=
      bind_ok.2 ⟨_, _, hspan', rfl⟩
    exact ⟨_, (Takes.of_dispatch R.failure h₁).trans (.of_dispatch R.failure h₂), R.push (hp.trans hstart) none,
      .inl ⟨_, mem_append_right _ (mem_singleton.2 rfl), rfl⟩⟩

theorem Reads.specifiers (R : Reads a b lo hi f) (ss : Specifiers) (hp : hi ≤ p)
    (ho : Ordered p (ss.1.flatMap Specifier.tokens)) (hl : ∀ e ∈ ss.1.flatMap Specifier.events, e.legible = true) :
    ∃ b', Takes b (ss.1.flatMap Specifier.events) b' ∧ Declares a b' lo hi f := by
  obtain ⟨ss, hne⟩ := ss
  induction ss generalizing b p with
  | nil => exact absurd rfl hne
  | cons s ss ih =>
    simp only [flatMap_cons, forall_mem_append, ordered_append] at hl ho ⊢
    obtain ⟨b₁, h₁, D₁⟩ := R.specifier s hp ho.1 hl.1
    by_cases hss : ss = []
    · exact ⟨b₁, by simpa [hss] using h₁, D₁⟩
    · obtain ⟨b₂, h₂, D₂⟩ := ih D₁.toReads (hp.trans ho.1.le_lastStop) hss ho.2 hl.2
      exact ⟨b₂, h₁.trans h₂, D₂⟩

theorem Declares.onFragment (D : Declares a b lo hi f) {kind : FragmentKind}
    (hd : dispatch e = Assembly.onFragment e kind) (hl : e.placed = true) (hp : hi ≤ p) (he : LeafAfter p e) :
    ∃ b', Takes b [e] b' ∧ Declares a b' lo hi f := by
  obtain ⟨span, hspan⟩ := exists_leafSpan hl b
  obtain ⟨-, hstart, -⟩ := leafSpan_ok hspan he
  have h : dispatch e b = .ok () { b with fragments := b.fragments ++ [⟨kind, span.start, e.literal⟩] } := by
    rw [hd]
    exact bind_ok.2 ⟨_, _, hspan, rfl⟩
  refine ⟨_, .of_dispatch D.failure h, D.push (hp.trans hstart) _, ?_⟩
  exact D.typed.imp_left fun ⟨r, hr, hk⟩ => ⟨r, mem_append_left _ hr, hk⟩

theorem Declares.marks : ∀ (ms : List Token) {b : Assembly} {p : Nat}, Declares a b lo hi f → hi ≤ p → Ordered p ms →
    (∀ e ∈ ms.flatMap markEvents, e.legible = true) → ∃ b', Takes b (ms.flatMap markEvents) b' ∧ Declares a b' lo hi f
  | [], b, _, D, _, _, _ => ⟨b, takes_nil.2 rfl, D⟩
  | m :: ms, b, p, D, hp, ⟨hm, hm', ho⟩, hl => by
    rw [flatMap_cons, forall_mem_append] at hl
    obtain ⟨b₁, h₁, D₁⟩ : ∃ b', Takes b (markEvents m) b' ∧ Declares a b' lo hi f := by
      have htext {w : String} (hw : m.isPunct w = true) : m.text = w := by simpa using (Bool.and_eq_true_iff.1 hw).2
      have hl' := hl.1
      unfold markEvents at hl' ⊢
      split
      case isTrue hw =>
        rw [if_pos hw] at hl'
        exact D.onFragment rfl (hl' _ mem_cons_self) hp (htext hw ▸ leafAfter_text hm)
      case isFalse hn =>
        rw [if_neg hn] at hl'
        split
        case isTrue hw =>
          rw [if_pos hw] at hl'
          exact D.onFragment rfl (hl' _ mem_cons_self) hp (htext hw ▸ leafAfter_text hm)
        case isFalse => exact ⟨b, takes_nil.2 rfl, D⟩
    obtain ⟨b₂, h₂, D₂⟩ := D₁.marks ms (by omega) ho hl.2
    exact ⟨b₂, h₁.trans h₂, D₂⟩

/-! ## Names -/

/-- Where a declaration starts. -/
def firstStart (n : Nat) (fragments : List Fragment) : Nat := fragments.foldl (fun n f => min n f.start) n

theorem firstStart_le : ∀ (fragments : List Fragment) (n : Nat), firstStart n fragments ≤ n
  | [], _ => le_rfl
  | r :: fragments, n => (firstStart_le fragments (min n r.start)).trans (Nat.min_le_left _ _)

theorem le_firstStart : ∀ {fragments : List Fragment} {n : Nat}, hi ≤ n → (∀ r ∈ fragments, hi ≤ r.start) →
    hi ≤ firstStart n fragments
  | [], _, h, _ => h
  | r :: _, n, h, hr =>
    le_firstStart (n := min n r.start) (Nat.le_min.2 ⟨h, hr r mem_cons_self⟩)
      fun u hu => hr u (mem_cons_of_mem _ hu)

theorem typeText?_ne_none {fragments : List Fragment} (h : ∃ r ∈ fragments, r.kind = .type) :
    ∃ type, typeText? fragments = some type := by
  obtain ⟨r, hr, hk⟩ := h
  unfold typeText?
  split
  case h_1 hnil =>
    have hm : r ∈ fragments.filter (·.kind == .type) := mem_filter.2 ⟨hr, by simp [hk]⟩
    simp [hnil] at hm
  case h_2 => exact ⟨_, rfl⟩

theorem typeText?_append_marks {fs gs : List Fragment} (hg : ∀ r ∈ gs, r.kind ≠ .type) :
    typeText? (fs ++ gs) = typeText? fs := by
  have hgs : gs.filter (·.kind == .type) = [] := filter_eq_nil_iff.2 fun r hr => by simpa using hg r hr
  rw [typeText?, typeText?, filter_append, hgs, List.append_nil]

theorem typeText?_words {fs : List Fragment} (hne : fs ≠ []) (hf : ∀ r ∈ fs, r.kind = .type) :
    typeText? fs = some (" ".intercalate (fs.map (·.text))) := by
  have hfs : fs.filter (·.kind == .type) = fs := filter_eq_self.2 fun r hr => by simp [hf r hr]
  rw [typeText?, hfs]
  cases fs with
  | nil => exact absurd rfl hne
  | cons r fs => rfl

theorem stars_eq (fs : List Fragment) :
    stars fs = String.ofList (List.replicate (fs.countP (·.kind == .pointer)) '*') := by
  rw [stars, map_const', countP_eq_length_filter]

theorem stars_words_append {fs : List Fragment} (hf : ∀ r ∈ fs, r.kind = .type) (gs : List Fragment) :
    stars (fs ++ gs) = stars gs := by
  have hfs : fs.filter (·.kind == .pointer) = [] := filter_eq_nil_iff.2 fun r hr => by simp [hf r hr]
  rw [stars, stars, filter_append, hfs, List.nil_append]

theorem any_reference_words_append {fs : List Fragment} (hf : ∀ r ∈ fs, r.kind = .type) (gs : List Fragment) :
    ((fs ++ gs).any (·.kind == .reference)) = gs.any (·.kind == .reference) := by
  have hfs : fs.any (·.kind == .reference) = false := any_eq_false.2 fun r hr => by simp [hf r hr]
  rw [any_append, hfs, Bool.false_or]

/-- A declared name becomes a node. Its type is that of the fragments, or the one that is shared. -/
theorem dispatch_name {span : Span} {type : String} (hk : e.kind = .declaratorName) (hspan : leafSpan e b = .ok span b)
    (htype : (typeText? b.fragments).or b.sharedType? = some type) : ∃ log, dispatch e b = .ok ()
      { b with
        fragments := []
        sharedType? := some type
        log
        tree :=
          (b.tree.push (.declaration (type ++ stars b.fragments) e.literal (b.fragments.any (·.kind == .reference)))
          ⟨firstStart span.start b.fragments, e.offset⟩).2
        staged := ⟨b.tree.size⟩ :: b.staged } := by
  rw [dispatch, hk]
  cases htext : typeText? b.fragments <;> cases hr : b.fragments.any (·.kind == .reference)
  all_goals
    simp only [htext, Option.some_or, Option.none_or, Option.some.injEq] at htype
    refine ⟨?_, bind_ok.2 ⟨_, _, hspan, ?_⟩⟩
    rotate_left
    simp only [get_bind, modify_bind, htext, htype, pure_bind, hr]
    rfl

theorem Declares.exists_type (D : Declares a b lo hi f) :
    ∃ type, (typeText? b.fragments).or b.sharedType? = some type := by
  refine Option.isSome_iff_exists.1 ?_
  rw [Option.isSome_or, Bool.or_eq_true]
  refine D.typed.imp_left fun h => ?_
  obtain ⟨type, ht⟩ := typeText?_ne_none h
  simp [ht]

theorem Declares.name (D : Declares a b lo hi f) (hk : e.kind = .declaratorName) (hl : e.placed = true) (hp : hi ≤ p)
    (he : LeafAfter p e) (hpos : 0 < e.offset) : ∃ b' g type isReference, Takes b [e] b' ∧
      Declared a b' lo e.offset g ∧ g.terms = ⟨.declaration type e.literal isReference, .nil⟩ :: f.terms := by
  obtain ⟨span, hspan⟩ := exists_leafSpan hl b
  obtain ⟨-, hstart, hle, hstop, -⟩ := leafSpan_ok hspan he
  obtain ⟨type, htype⟩ := D.exists_type
  obtain ⟨log, hd⟩ := dispatch_name hk hspan htype
  have hfirst := firstStart_le b.fragments span.start
  have hlow := le_firstStart (hp.trans hstart) D.after
  have hw := D.holding.within
  rw [append_nil] at hw
  have H := D.holding.bundle
    (.declaration (type ++ stars b.fragments) e.literal (b.fragments.any (·.kind == .reference)))
    ⟨firstStart span.start b.fragments, e.offset⟩ rfl hpos
    (hw.append (.cons hpos hlow (by rw [within_nil]; simp only [Entry.span_fresh]; omega) le_rfl))
  refine ⟨_, _, type ++ stars b.fragments, b.fragments.any (·.kind == .reference), .of_dispatch D.failure hd,
    ⟨⟨{ H.keeps with fragments := D.blank.symm }, H.lastEnd, H.base, H.staged, H.stands, H.within, H.operands⟩,
      D.failure,
      rfl⟩, ?_⟩
  simp [Entry.term, Construct.bare, Construct.mapSlots]

theorem pushes_suffixes (source : List UInt8) {name : String} {isReference : Bool} {below : Forest Construct}
    {xs : List Term} : ∀ (gs : List Enclosed) (type : String), ∃ type', Pushes (suffixEvents source gs)
      (⟨.declaration type name isReference, below⟩ :: xs) (⟨.declaration type' name isReference, below⟩ :: xs)
  | [], type => ⟨type, .nil _⟩
  | g :: gs, type => by
    obtain ⟨type', h⟩ := pushes_suffixes source gs (type ++ sliceOf source g.opening.start g.closing.stop)
    exact ⟨type', .cons (.array rfl) h⟩

theorem Declares.declarator (D : Declares a b lo hi f) (d : Declarator) (hp : hi ≤ p) (ho : Ordered p d.tokens)
    (hl : ∀ e ∈ d.events source, e.legible = true) :
    ∃ b' g type name isReference, Takes b (d.events source) b' ∧ Declared a b' lo (lastStop p d.tokens) g ∧
      g.terms = ⟨.declaration type name isReference, .nil⟩ :: f.terms := by
  simp only [Declarator.events, forall_mem_append, forall_mem_cons] at hl
  obtain ⟨hmarks, hname, -⟩ := hl
  simp only [Declarator.tokens, ordered_append, ordered_cons] at ho
  obtain ⟨hm, hn, hn', hs⟩ := ho
  have hle := hm.le_lastStop
  obtain ⟨b₁, h₁, D₁⟩ := D.marks d.marks hp hm hmarks
  obtain ⟨b₂, g, type, isReference, h₂, D₂, hg⟩ := D₁.name (e := tokenLeaf .declaratorName d.name.1) rfl hname
    (hp.trans hle) hn (show 0 < d.name.1.stop by omega)
  obtain ⟨type', hpush⟩ := pushes_suffixes source d.suffixes type
  obtain ⟨b₃, g', h₃, D₃, hg'⟩ := D₂.run (rising_suffixes hs) (hg ▸ hpush)
  simp only [Declarator.tokens, lastStop_append, lastStop_cons]
  exact ⟨b₃, g', type', _, isReference, h₁.trans (h₂.trans h₃), D₃, hg'⟩

/-! ## Declarations -/

theorem Declares.initDeclarator (D : Declares a b lo hi f) (d : InitDeclarator) (hp : hi ≤ p) (ho : Ordered p d.tokens)
    (hl : ∀ e ∈ d.events source, e.legible = true) :
    ∃ b' g, Takes b (d.events source) b' ∧ Declared a b' lo (lastStop p d.tokens) g ∧ Topped f.terms g.terms := by
  obtain ⟨declarator, init?⟩ := d
  cases init? with
  | none =>
    simp only [InitDeclarator.tokens, InitDeclarator.events, List.append_nil] at ho hl ⊢
    obtain ⟨b₁, g, type, name, isReference, h₁, D₁, hg⟩ := D.declarator declarator hp ho hl
    exact ⟨b₁, g, h₁, D₁, hg ▸ .intro rfl f.terms⟩
  | some q =>
    obtain ⟨eq, i⟩ := q
    simp only [InitDeclarator.tokens, InitDeclarator.events, ordered_append, ordered_cons, lastStop_append,
      lastStop_cons, Init.lastStop_tokens, forall_mem_append, forall_mem_cons] at ho hl ⊢
    obtain ⟨hd, heq, heq', hi⟩ := ho
    obtain ⟨b₁, g, type, name, isReference, h₁, D₁, hg⟩ := D.declarator declarator hp hd hl.1
    have htop : Topped f.terms g.terms := hg ▸ .intro rfl f.terms
    have htop' : Topped g.terms (i.push source g.terms) := i.topped htop.settled
    have := Init.le_stop hi
    obtain ⟨b₂, g', h₂, D₂, hg'⟩ := D₁.run
      (((Init.rising hi).mono_left (by omega)).append (rising_compound rfl le_rfl (by omega)))
      ((i.pushes htop.settled hl.2.1).append (push_binary (.inl rfl) hl.2.2.1 (htop.full_two htop').1).one)
    exact ⟨b₂, g', h₁.trans h₂, D₂, hg' ▸ htop.combined rfl htop'⟩

theorem Declares.initDeclarators : ∀ (ds : InitDeclarators) {b : Assembly} {hi p : Nat} {f : Forest Entry},
    Declares a b lo hi f → hi ≤ p → Ordered p ds.tokens → (∀ e ∈ ds.events source, e.legible = true) →
      ∃ b' g xs, Takes b (ds.events source) b' ∧ Declared a b' lo (lastStop p ds.tokens) g ∧ Topped xs g.terms
  | .last d, b, hi, p, f, D, hp, ho, hl => by
    obtain ⟨b₁, g, h₁, D₁, hg⟩ := D.initDeclarator d hp ho hl
    exact ⟨b₁, g, _, h₁, D₁, hg⟩
  | .more d _ rest, b, hi, p, f, D, hp, ho, hl => by
    simp only [InitDeclarators.events, InitDeclarators.tokens, forall_mem_append, ordered_append, ordered_cons,
      lastStop_append, lastStop_cons] at hl ho ⊢
    obtain ⟨hd, hc, hc', hr⟩ := ho
    obtain ⟨b₁, g, h₁, D₁, -⟩ := D.initDeclarator d hp hd hl.1
    obtain ⟨b₂, g', xs, h₂, D₂, hg'⟩ := (D₁.declares D.mode D.blank).initDeclarators rest (by omega) hr hl.2
    exact ⟨b₂, g', xs, h₁.trans h₂, D₂, hg'⟩

/-- The events of a declaration are taken. They leave operands, and no operator that waits. -/
theorem Reads.declaration (R : Reads a b lo p f) (d : Declaration) (ho : Ordered p d.tokens)
    (hl : ∀ e ∈ d.events source, e.legible = true) :
    ∃ b' g xs, Takes b (d.events source) b' ∧ Holding a b' lo (lastStop p d.tokens) g .nil ∧ Topped xs g.terms := by
  simp only [Declaration.events, Declaration.tokens, forall_mem_append, ordered_append, lastStop_append] at hl ho ⊢
  obtain ⟨b₁, h₁, D₁⟩ := R.specifiers d.specifiers le_rfl ho.1 hl.1
  obtain ⟨b₂, g, xs, h₂, D₂, hg⟩ := D₁.initDeclarators d.declarators ho.1.le_lastStop ho.2 hl.2
  exact ⟨b₂, g, xs, h₁.trans h₂, D₂.holding, hg⟩

/-! ## The head of a function -/

/-- Declared names and nothing else, and at least one. -/
def Declarations (xs : List Term) : Prop :=
  xs ≠ [] ∧ ∀ x ∈ xs, ∃ type name isReference, x.label = .declaration type name isReference

theorem Declarations.cons (h : ∀ x ∈ xs, ∃ type name isReference, x.label = .declaration type name isReference)
    (type name : String) (isReference : Bool) : Declarations (⟨.declaration type name isReference, .nil⟩ :: xs) :=
  ⟨cons_ne_nil _ _, forall_mem_cons.2 ⟨⟨_, _, _, rfl⟩, h⟩⟩

/-- A name with its words, of a parameter or of a function. -/
theorem Reads.declarator (R : Reads a b lo p f) (ss : Specifiers) (d : Declarator)
    (ho : Ordered p (ss.1.flatMap Specifier.tokens ++ d.tokens))
    (hl : ∀ e ∈ ss.1.flatMap Specifier.events ++ d.events source, e.legible = true)
    (hf : ∀ x ∈ f.terms, ∃ type name isReference, x.label = .declaration type name isReference) :
    ∃ b' g, Takes b (ss.1.flatMap Specifier.events ++ d.events source) b' ∧
      Declared a b' lo (lastStop p (ss.1.flatMap Specifier.tokens ++ d.tokens)) g ∧ Declarations g.terms := by
  simp only [forall_mem_append, ordered_append, lastStop_append] at hl ho ⊢
  obtain ⟨b₁, h₁, D₁⟩ := R.specifiers ss le_rfl ho.1 hl.1
  obtain ⟨b₂, g, type, name, isReference, h₂, D₂, hg⟩ := D₁.declarator d ho.1.le_lastStop ho.2 hl.2
  exact ⟨b₂, g, h₁.trans h₂, D₂, hg ▸ .cons hf type name isReference⟩

theorem Declared.param (D : Declared a b lo p f) (hm : a.mode ≠ .tagName) (ha : a.fragments = []) (q : Param)
    (ho : Ordered p q.tokens) (hl : ∀ e ∈ q.events source p, e.legible = true) (hf : Declarations f.terms) :
    ∃ b' g, Takes b (q.events source p) b' ∧ Declared a b' lo (lastStop p q.tokens) g ∧ Declarations g.terms := by
  cases q with
  | named ss d => exact (D.declares hm ha).toReads.declarator ss d ho hl hf.2
  | nameless ss marks suffixes =>
    -- The empty name is not legible.
    simp only [Param.events, forall_mem_append, forall_mem_cons] at hl
    have hname := hl.2.2.1
    simp [Event.legible, Event.placed, mark] at hname

theorem Declared.params (hm : a.mode ≠ .tagName) (ha : a.fragments = []) : ∀ (ps : Params) {b : Assembly} {p : Nat}
    {f : Forest Entry}, Declared a b lo p f → Ordered p ps.tokens → (∀ e ∈ ps.events source p, e.legible = true) →
      Declarations f.terms → ∃ b' g, Takes b (ps.events source p) b' ∧ Declared a b' lo (lastStop p ps.tokens) g ∧
        Declarations g.terms
  | .none, b, _, f, D, _, _, hf => ⟨b, f, takes_nil.2 rfl, D, hf⟩
  | .word _, b, _, f, D, ho, _, hf =>
    ⟨b, f, takes_nil.2 rfl, ⟨D.holding.mono ho.le_lastStop, D.failure, D.shared⟩, hf⟩
  | .last q, b, p, f, D, ho, hl, hf => D.param hm ha q ho hl hf
  | .more q comma rest, b, p, f, D, ho, hl, hf => by
    simp only [Params.events, Params.tokens, forall_mem_append, ordered_append, ordered_cons, lastStop_append,
      lastStop_cons] at hl ho ⊢
    obtain ⟨hq, hc, hc', hr⟩ := ho
    obtain ⟨b₁, g, h₁, D₁, hg⟩ := D.param hm ha q hq hl.1 hf
    obtain ⟨b₂, g', h₂, D₂, hg'⟩ := Declared.params hm ha rest
      ⟨D₁.holding.mono (show _ ≤ comma.1.stop by omega), D₁.failure, D₁.shared⟩ hr hl.2 hg
    exact ⟨b₂, g', h₁.trans h₂, D₂, hg'⟩

theorem Holding.exists_term {h : Forest Entry} (H : Holding a b lo hi f h) {s : Slot} (hs : s ∈ f.rootSlots) :
    ∃ x ∈ f.terms, x.label = (b.tree.construct s).bare := by
  obtain ⟨y, hy, rfl⟩ := mem_map.1 hs
  have hmem : y ∈ (f ++ h).members := by simp [mem_members_of_mem_roots hy]
  rw [H.stands.holds.construct_eq hmem]
  clear H hs hmem
  induction f with
  | nil => simp at hy
  | node z d r _ ih =>
    rcases mem_cons.1 hy with rfl | hy
    · exact ⟨y.term d, by simp, rfl⟩
    · obtain ⟨x, hx, hl⟩ := ih hy
      exact ⟨x, by simp [hx], hl⟩

/-- The assembly before a function is opened: what names it has left the stage. -/
def unstaged (b : Assembly) (rest : List Slot) : Assembly :=
  { b with staged := rest, fragments := [], sharedType? := none }

/-- The first name on the stage is that of the function, and the others are its parameters. -/
theorem Holding.openFunction (H : Holding a b lo hi f .nil) (hf : Declarations f.terms) (e : Event) :
    ∃ form log, form.params ⊆ f.rootSlots ∧ Assembly.onFunctionHeader e b = .ok ()
      { (b.unstaged a.staged).opened (.function form) with
        tree := form.params.foldl (fun t p => t.modify p ({ · with parent? := some ⟨b.tree.size⟩ }))
          ((b.unstaged a.staged).opened (.function form)).tree
        lastEnd := e.offset
        log } := by
  have hconstruct : ∀ s ∈ f.rootSlots, ∃ type name isReference,
      b.tree.construct s = .declaration type name isReference := fun s hs => by
    obtain ⟨x, hx, hl⟩ := H.exists_term hs
    obtain ⟨type, name, isReference, hd⟩ := hf.2 x hx
    rw [hd] at hl
    cases hc : b.tree.construct s with
    | declaration => exact ⟨_, _, _, rfl⟩
    | _ => rw [hc] at hl; cases hl
  have hne : f ≠ .nil := fun hn => hf.1 (by simp [hn])
  have htags : (f.rootSlots.any fun s => b.tree.tag s != .declaration) = false := by
    rw [any_eq_false]
    intro s hs
    obtain ⟨type, name, isReference, hc⟩ := hconstruct s hs
    have htag : b.tree.tag s = .declaration := congrArg Construct.tag hc
    simp [htag]
  simp only [Assembly.onFunctionHeader, get_bind, if_pos (H.hasOperands.2 hne), H.base,
    height, unstage_bind f.rootSlots a.staged H.staged, htags, if_neg Bool.false_ne_true]
  cases hslots : f.rootSlots with
  | nil => exact absurd (eq_nil_of_rootSlots hslots) hne
  | cons s ss =>
    obtain ⟨type, name, isReference, hc⟩ := hconstruct s (by simp [hslots])
    simp only [map_cons, hc, modify_bind, openScope_bind]
    refine ⟨_, _, ?_, bind_ok.2 ⟨_, _, forM_modify _ _ _, rfl⟩⟩
    intro u hu
    exact mem_cons_of_mem _ (by simpa using hu)

end Deferral.Assembly
