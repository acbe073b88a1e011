import Deferral.Proofs.Declaring
import Deferral.Proofs.Rebuilding

/-!
# Declared names and their types

A declaration is reported as the words of its type (`BaseWord`) and then its names (`DeclaredName`), each with its marks
before it, and with its array suffixes and its value behind it. The words wait as fragments until the first name comes,
and the names after that share its type. So the type of every name is the words of the declaration, with the stars and
the suffixes of that name only (`DeclaredName.type`), and when the statement ends nothing of it waits for the next one
(`declared_of_events`).
-/

namespace Deferral

open Assembly (Fragment FragmentKind)

/-! ## Declarations in events -/

/-- It has a text and a place. -/
def Lexeme.Placed (w : Lexeme) : Prop := w.Written 0 w.stop

instance (w : Lexeme) : Decidable w.Placed := inferInstanceAs (Decidable (w.Written 0 w.stop))

/-- A word of a type, which may be a tag keyword with a name. -/
inductive BaseWord where
  | word (w : Lexeme)
  | tagged (keyword name : Lexeme)

namespace BaseWord

def events : BaseWord → List Event
  | .word w => [w.event .typeWord]
  | .tagged keyword name => [keyword.event .tagKeyword, name.event .typeWord]

def text : BaseWord → String
  | .word w => w.text
  | .tagged keyword name => keyword.text ++ " " ++ name.text

def start : BaseWord → Nat
  | .word w => w.start
  | .tagged keyword _ => keyword.start

def Placed : BaseWord → Prop
  | .word w => w.Placed
  | .tagged keyword name => keyword.Placed ∧ name.Placed

instance : (w : BaseWord) → Decidable w.Placed
  | .word w => inferInstanceAs (Decidable w.Placed)
  | .tagged keyword name => inferInstanceAs (Decidable (keyword.Placed ∧ name.Placed))

/-- How it waits for the declared name. -/
def fragment (w : BaseWord) : Fragment := ⟨.type, w.start, w.text⟩

end BaseWord

/-- A mark before a declared name. -/
inductive NameMark where
  | pointer (w : Lexeme)
  | reference (w : Lexeme)

namespace NameMark

def lexeme : NameMark → Lexeme
  | .pointer w | .reference w => w

def event : NameMark → Event
  | .pointer w => w.event .pointer
  | .reference w => w.event .reference

def kind : NameMark → FragmentKind
  | .pointer _ => .pointer
  | .reference _ => .reference

def fragment (m : NameMark) : Fragment := ⟨m.kind, m.lexeme.start, m.lexeme.text⟩

theorem kind_ne (m : NameMark) : m.kind ≠ .type := by cases m <;> simp [kind]

end NameMark

/-- A value, and the sign that assigns it to the name before. It is reported behind the value. -/
structure Initializer where
  value : Expression
  sign : Lexeme

namespace Initializer

def events (i : Initializer) : List Event := i.value.events ++ [i.sign.event .assignment]

structure Placed (i : Initializer) : Prop where
  admissible : i.value.isAdmissible = true
  written : ∃ lo hi, i.value.Written lo hi ∧ hi < UInt64.size
  sign : i.sign.text.isEmpty = false

end Initializer

/-- A declared name with its marks, its array suffixes and its value. -/
structure DeclaredName where
  marks : List NameMark
  name : Lexeme
  suffixes : List Lexeme
  initializer? : Option Initializer

namespace DeclaredName

def events (d : DeclaredName) : List Event :=
  d.marks.map NameMark.event ++ (d.name.event .declaratorName :: (d.suffixes.map (·.event .arraySuffix) ++
    d.initializer?.toList.flatMap Initializer.events))

structure Placed (d : DeclaredName) : Prop where
  marks : ∀ m ∈ d.marks, m.lexeme.Placed
  name : d.name.Placed
  initializer : ∀ i ∈ d.initializer?, i.Placed

/-- The type of the name: the words, a star for each pointer, and the array suffixes. -/
def type (base : String) (d : DeclaredName) : String :=
  base ++ String.ofList (List.replicate (d.marks.countP (·.kind == .pointer)) '*') ++
    String.join (d.suffixes.map Lexeme.text)

def construct (base : String) (d : DeclaredName) : Construct :=
  .declaration (d.type base) d.name.text (d.marks.any (·.kind == .reference))

/-- The tree with the root `e` is the declaration of the name or, if there is a value, the assignment of the value to
that declaration. -/
def Is (base : String) (d : DeclaredName) (e : Entry) (k : Forest Entry) : Prop :=
  match d.initializer? with
  | none => e.node.construct = d.construct base ∧ k = .nil
  | some i => ∃ y z m, k = .tree y .nil ++ .tree z m ∧ y.node.construct = d.construct base ∧ i.value.Is z m ∧
    e.node.construct = .binary i.sign.text y.slot z.slot

/-- The trees of the names, in order. -/
def Are (base : String) : List DeclaredName → Forest Entry → Prop
  | [], f => f = .nil
  | d :: ds, f => ∃ e k r, f = .node e k r ∧ d.Is base e k ∧ Are base ds r

variable {base : String} {d : DeclaredName} {e e' : Entry} {k f : Forest Entry}

theorem Is.waits (h : d.Is base e k) : e.node.construct.waits = false := by
  unfold Is at h
  split at h
  · rw [h.1]; rfl
  · obtain ⟨_, _, _, -, -, -, he⟩ := h
    rw [he]; rfl

theorem Is.congr (h : d.Is base e k) (he : e'.node.construct = e.node.construct) : d.Is base e' k := by
  unfold Is at h ⊢
  split at h
  · exact ⟨he.trans h.1, h.2⟩
  · obtain ⟨y, z, m, hk, hy, hz, hc⟩ := h
    exact ⟨y, z, m, hk, hy, hz, he.trans hc⟩

theorem Are.waits : ∀ {ds : List DeclaredName} {f : Forest Entry}, Are base ds f →
    ∀ y ∈ f.roots, y.node.construct.waits = false
  | [], _, h => by
    rw [show _ = _ from h]
    simp
  | d :: ds, _, h => by
    obtain ⟨e, k, r, rfl, he, hr⟩ := h
    rw [Forest.roots_node, List.forall_mem_cons]
    exact ⟨he.waits, hr.waits⟩

theorem Are.tiled (stop : Nat) : ∀ {ds : List DeclaredName} {f : Forest Entry} (start : Nat), Are base ds f →
    Are base ds (Assembly.tiled start stop f)
  | [], _, _, h => by
    rw [show _ = _ from h]
    rfl
  | d :: ds, _, start, h => by
    obtain ⟨e, k, r, rfl, he, hr⟩ := h
    cases r with
    | nil => exact ⟨_, _, _, rfl, he.congr rfl, hr⟩
    | node x m r => exact ⟨_, _, _, rfl, he.congr rfl, hr.tiled stop _⟩

end DeclaredName

namespace Assembly

open Forest

variable {a b : Assembly} {f h d : Forest Entry} {y : Entry} {e : Event} {fs : List Fragment} {type? : Option String}
  {base : String} {w : Lexeme}

/-! ## Fragments -/

/-- The assembly with other parts of a declaration. -/
def reword (a : Assembly) (fragments : List Fragment) (type? : Option String) (tag? : Option Fragment)
    (log : Array Log.Entry) : Assembly :=
  { a with fragments, sharedType? := type?, waitingTag? := tag?, log }

theorem takes_baseWord (hfail : b.failure? = none) (hmode : b.mode ≠ .tagName) {w : BaseWord} (hw : w.Placed) :
    ∃ tag?, Takes b w.events (b.reword (b.fragments ++ [w.fragment]) b.sharedType? tag? b.log) := by
  cases w with
  | word w =>
    refine ⟨b.waitingTag?, .of_dispatch hfail (bind_ok.2 ⟨_, _, leafSpan_event hw .typeWord, ?_⟩)⟩
    rw [get_bind, if_neg hmode]
    rfl
  | tagged keyword name =>
    -- The keyword waits for its name.
    let b₁ : Assembly :=
      { b with waitingTag? := some ⟨.type, keyword.start, keyword.text⟩, modes := .tagName :: b.modes }
    have h₁ : dispatch (keyword.event .tagKeyword) b = .ok () b₁ :=
      bind_ok.2 ⟨_, _, leafSpan_event hw.1 .tagKeyword, rfl⟩
    have h₂ : dispatch (name.event .typeWord) b₁ =
        .ok () (b.reword (b.fragments ++ [(BaseWord.tagged keyword name).fragment]) b.sharedType? none b.log) :=
      bind_ok.2 ⟨_, _, leafSpan_event hw.2 .typeWord, rfl⟩
    exact ⟨none, (Takes.of_dispatch hfail h₁).trans (.of_dispatch hfail h₂)⟩

theorem takes_baseWords : ∀ (ws : List BaseWord) {b : Assembly}, b.failure? = none → b.mode ≠ .tagName →
    (∀ w ∈ ws, w.Placed) → ∃ tag?, Takes b (ws.flatMap BaseWord.events)
      (b.reword (b.fragments ++ ws.map BaseWord.fragment) b.sharedType? tag? b.log)
  | [], b, _, _, _ => ⟨b.waitingTag?, takes_nil.2 (by rw [List.map_nil, List.append_nil]; rfl)⟩
  | w :: ws, b, hfail, hmode, hw => by
    obtain ⟨hw, hws⟩ := List.forall_mem_cons.1 hw
    obtain ⟨_, h₁⟩ := takes_baseWord hfail hmode hw
    obtain ⟨tag?, h₂⟩ := takes_baseWords ws (b := b.reword (b.fragments ++ [w.fragment]) _ _ _) hfail hmode hws
    refine ⟨tag?, ?_⟩
    simpa [reword] using h₁.trans h₂

theorem takes_nameMarks : ∀ (ms : List NameMark) {b : Assembly}, b.failure? = none → (∀ m ∈ ms, m.lexeme.Placed) →
    Takes b (ms.map NameMark.event)
      (b.reword (b.fragments ++ ms.map NameMark.fragment) b.sharedType? b.waitingTag? b.log)
  | [], b, _, _ => takes_nil.2 (by rw [List.map_nil, List.append_nil]; rfl)
  | m :: ms, b, hfail, hm => by
    obtain ⟨hm, hms⟩ := List.forall_mem_cons.1 hm
    have h₁ : dispatch m.event b =
        .ok () (b.reword (b.fragments ++ [m.fragment]) b.sharedType? b.waitingTag? b.log) := by
      cases m with
      | pointer => exact bind_ok.2 ⟨_, _, leafSpan_event hm .pointer, rfl⟩
      | reference => exact bind_ok.2 ⟨_, _, leafSpan_event hm .reference, rfl⟩
    have h₂ := takes_nameMarks ms (b := b.reword (b.fragments ++ [m.fragment]) b.sharedType? b.waitingTag? b.log)
      hfail hms
    simpa [reword] using (Takes.of_dispatch hfail h₁).trans h₂

/-! ## Names on the stage -/

theorem Calm.reword (ha : a.Calm) (fs : List Fragment) (type? : Option String) (tag? : Option Fragment)
    (log : Array Log.Entry) : (a.reword fs type? tag? log).Calm := ⟨ha.based, ha.bound, ha.top⟩

theorem Heaped.reword (H : Heaped a b f h) (fs : List Fragment) (type? : Option String) (tag? : Option Fragment)
    (log : Array Log.Entry) : Heaped (a.reword fs type? tag? log) (b.reword fs type? tag? log) f h where
  toPiled := ⟨H.base, H.staged, H.stands, H.plain, H.low⟩
  same := H.same
  kept t l := congrArg (Assembly.reword · fs type? tag? log) (H.kept t l)

/-- Since `a`, the trees of `f` have been staged. Of all else only the parts of a declaration have changed: `fs` wait
for a name, and `type?` is shared. -/
def Declaring (a b : Assembly) (fs : List Fragment) (type? : Option String) (f : Forest Entry) : Prop :=
  ∃ tag? log, Heaped (a.reword fs type? tag? log) b f .nil

namespace Declaring

section

variable (D : Declaring a b fs type? f)
include D

theorem failure?_eq : b.failure? = a.failure? := by
  obtain ⟨tag?, log, H⟩ := D
  exact H.failure?_eq

theorem fragments_eq : b.fragments = fs := by
  obtain ⟨tag?, log, H⟩ := D
  have h := congrArg (·.fragments) (H.kept b.tree b.staged)
  exact h

theorem sharedType?_eq : b.sharedType? = type? := by
  obtain ⟨tag?, log, H⟩ := D
  have h := congrArg (·.sharedType?) (H.kept b.tree b.staged)
  exact h

theorem reword (gs : List Fragment) (shared? : Option String) (tag? : Option Fragment)
    (log : Array Log.Entry) : Declaring a (b.reword gs shared? tag? log) gs shared? f := by
  obtain ⟨_, _, H⟩ := D
  exact ⟨tag?, log, H.reword gs shared? tag? log⟩

theorem marks (hfail : a.failure? = none) {ms : List NameMark}
    (hm : ∀ m ∈ ms, m.lexeme.Placed) :
    ∃ b', Takes b (ms.map NameMark.event) b' ∧ Declaring a b' (fs ++ ms.map NameMark.fragment) type? f := by
  have hb := takes_nameMarks ms (D.failure?_eq.trans hfail) hm
  rw [D.fragments_eq, D.sharedType?_eq] at hb
  exact ⟨_, hb, D.reword _ _ _ _⟩

theorem name (hfail : a.failure? = none) (hw : w.Placed)
    (htype : (typeText? fs).or type? = some base) :
    ∃ b' y, Takes b [w.event .declaratorName] b' ∧ Declaring a b' [] (some base) (f ++ Forest.tree y .nil) ∧
      y.node.construct = .declaration (base ++ stars fs) w.text (fs.any (·.kind == .reference)) := by
  have hfs := D.fragments_eq
  have hshared := D.sharedType?_eq
  subst hfs hshared
  obtain ⟨log, hd⟩ := dispatch_name rfl (leafSpan_event hw .declaratorName) htype
  obtain ⟨_, _, H⟩ := D.reword [] (some base) b.waitingTag? log
  exact ⟨_, _, .of_dispatch (D.failure?_eq.trans hfail) hd, ⟨_, _, H.bundle _ _⟩, rfl⟩

end

/-- Array suffixes extend the type of the name before them, one after the other. -/
theorem suffixes (hfail : a.failure? = none) {name : String} {isReference : Bool} : ∀ (ws : List Lexeme) {b : Assembly}
    {y : Entry} {type : String}, Declaring a b fs type? (f ++ Forest.tree y .nil) →
      y.node.construct = .declaration type name isReference →
      ∃ b' y', Takes b (ws.map (·.event .arraySuffix)) b' ∧ Declaring a b' fs type? (f ++ Forest.tree y' .nil) ∧
        y'.node.construct = .declaration (type ++ String.join (ws.map Lexeme.text)) name isReference
  | [], b, y, type, D, hy => ⟨b, y, takes_nil.2 rfl, D, by rw [hy]; simp [String.join]⟩
  | w :: ws, b, y, type, D, hy => by
    have hb := D.failure?_eq.trans hfail
    obtain ⟨tag?, log, H⟩ := D
    obtain ⟨t, hd, hsame, P⟩ := H.toPiled.onArraySuffix (e := w.event .arraySuffix) hy
    obtain ⟨b', y', h', D', hy'⟩ := suffixes hfail ws ⟨tag?, log, P, H.same.trans hsame, H.kept⟩ rfl
    refine ⟨b', y', (Takes.of_dispatch (e := w.event .arraySuffix) hb hd).trans h', D', ?_⟩
    rw [hy', List.map_cons, String.join_cons, String.append_assoc]
    rfl

theorem initializer (D : Declaring a b fs type? (f ++ Forest.tree y .nil)) (ha : a.Calm) (hfail : a.failure? = none)
    (hf : f.Rests) (hy : y.node.construct.waits = false) {i : Initializer} (hi : i.Placed) :
    ∃ b' e z m, Takes b i.events b' ∧
      Declaring a b' fs type? (f ++ Forest.tree e (Forest.tree y .nil ++ Forest.tree z m)) ∧ i.value.Is z m ∧
      e.node.construct = .binary i.sign.text y.slot z.slot := by
  obtain ⟨hx, ⟨lo, hi, hw, hhi⟩, hsign⟩ := hi
  obtain ⟨tag?, log, H⟩ := D
  have hc := ha.reword fs type? tag? log
  have hrests : (f ++ Forest.tree y .nil).Rests := rests_append_tree.2 hy
  obtain ⟨b₁, g, h₁, H₁, hg⟩ := Heaped.takes hc hfail H hx hw hhi (.inr hrests)
  obtain ⟨b₂, z, m, hz, H₂, his⟩ := H₁.popOperand (e := i.sign.event .assignment) hc hrests hg
  have H₃ := H₂.unstage
  rw [append_nil] at H₃
  have h₃ := H₃.connect rfl hsign hz (H₂.popTree hc hf hy)
  exact ⟨_, _, z, m, h₁.trans (.of_dispatch (H₁.failure?_eq.trans hfail) h₃), ⟨tag?, log, H₃.bundle _ _⟩, his, rfl⟩

/-- A name is declared with the words that wait for it or those that are shared, its own stars and its own suffixes. -/
theorem declared (D : Declaring a b fs type? f) (ha : a.Calm) (hfail : a.failure? = none) (hf : f.Rests)
    (hfs : ∀ r ∈ fs, r.kind = .type) (htype : (typeText? fs).or type? = some base) {n : DeclaredName} (hn : n.Placed) :
    ∃ b' e k, Takes b n.events b' ∧ Declaring a b' [] (some base) (f ++ Forest.tree e k) ∧ n.Is base e k := by
  obtain ⟨marks, name, suffixes, initializer?⟩ := n
  obtain ⟨hmarks, hname, hinit⟩ := hn
  obtain ⟨b₁, h₁, D₁⟩ := D.marks hfail hmarks
  have hkinds : ∀ r ∈ marks.map NameMark.fragment, r.kind ≠ .type := by
    rw [List.forall_mem_map]
    exact fun m _ => m.kind_ne
  rw [← typeText?_append_marks hkinds] at htype
  obtain ⟨b₂, y, h₂, D₂, hy⟩ := D₁.name hfail hname htype
  obtain ⟨b₃, y', h₃, D₃, hy'⟩ := D₂.suffixes hfail suffixes hy
  have hc : y'.node.construct = DeclaredName.construct base ⟨marks, name, suffixes, initializer?⟩ := by
    rw [hy', stars_words_append hfs, any_reference_words_append hfs, stars_eq, List.countP_map, List.any_map]
    rfl
  have htaken := h₁.trans (h₂.trans h₃)
  cases initializer? with
  | none =>
    refine ⟨b₃, y', .nil, ?_, D₃, hc, rfl⟩
    simpa [DeclaredName.events] using htaken
  | some i =>
    obtain ⟨b₄, e, z, m, h₄, D₄, hz, he⟩ := D₃.initializer ha hfail hf (by rw [hc]; rfl) (hinit i rfl)
    refine ⟨b₄, e, _, ?_, D₄, y', z, m, rfl, hc, hz, he⟩
    simpa [DeclaredName.events] using htaken.trans h₄

theorem names (ha : a.Calm) (hfail : a.failure? = none) : ∀ (ns : List DeclaredName) {b : Assembly} {f : Forest Entry},
    Declaring a b [] (some base) f → f.Rests → (∀ n ∈ ns, n.Placed) →
      ∃ b' g, Takes b (ns.flatMap DeclaredName.events) b' ∧ Declaring a b' [] (some base) (f ++ g) ∧
        DeclaredName.Are base ns g
  | [], b, f, D, _, _ => ⟨b, .nil, takes_nil.2 rfl, by rwa [append_nil], rfl⟩
  | n :: ns, b, f, D, hf, hn => by
    obtain ⟨hn, hns⟩ := List.forall_mem_cons.1 hn
    obtain ⟨b₁, e, k, h₁, D₁, he⟩ := D.declared ha hfail hf (by simp) rfl hn
    obtain ⟨b₂, g, h₂, D₂, hg⟩ := names ha hfail ns D₁ (rests_append_tree.2 he.waits) hns
    rw [append_assoc] at D₂
    exact ⟨b₂, _, h₁.trans h₂, D₂, e, k, g, rfl, he, hg⟩

end Declaring

/-! ## The end of the statement -/

theorem Heaped.keeps (H : Heaped a b f h) : Keeps a b := by
  have hk := H.kept b.tree b.staged
  exact ⟨congrArg (·.scopes) hk, congrArg (·.modes) hk, congrArg (·.waitingDefers) hk,
    congrArg (·.fragments) hk, H.same⟩

theorem Heaped.popAll (ha : a.Calm) (hbase : a.statementBase = a.height) : ∀ {n : Nat} {b : Assembly}
    {f h : Forest Entry}, Heaped a b f h → f.rootSlots.length ≤ n → (∀ y ∈ f.roots, y.node.construct.waits = false) →
      ∃ b', Assembly.popAll e n h.rootSlots b = .ok (f ++ h).rootSlots b' ∧ Heaped a b' .nil (f ++ h)
  | 0, b, f, h, H, hn, _ => by
    obtain rfl := eq_nil_of_rootSlots (List.eq_nil_of_length_eq_zero (Nat.le_zero.1 hn))
    exact ⟨b, rfl, H⟩
  | n + 1, b, f, h, H, hn, hf => by
    have ho := H.toPiled.hasOperands (H.statementBase_eq.trans hbase)
    rw [Assembly.popAll, get_bind]
    by_cases hnil : f.roots = []
    · obtain rfl := eq_nil_of_roots hnil
      rw [if_neg fun hn => ho.1 hn rfl]
      exact ⟨b, rfl, H⟩
    · obtain ⟨g, d, hg, -⟩ := exists_last (List.dropLast_concat_getLast hnil).symm
      generalize f.roots.getLast hnil = y at hg
      subst hg
      have hne : g ++ Forest.tree y d ≠ .nil := fun hn => hnil (by rw [hn]; rfl)
      rw [if_pos (ho.2 hne)]
      have hrests : g.Rests := fun x hx => hf x (by simp [List.mem_of_mem_getLast? hx])
      obtain ⟨b', hb', H'⟩ := popAll ha hbase H.unstage (by simp at hn; omega) fun x hx => hf x (by simp [hx])
      rw [append_assoc]
      exact ⟨b', bind_ok.2 ⟨_, _, H.popTree ha hrests (hf y (by simp)), hb'⟩, H'⟩

/-- The trees of a declaration become statements, and nothing of it waits any more. -/
theorem Declaring.onStatementEnd (D : Declaring a b fs type? f) (ha : a.Calm) (hbase : a.statementBase = a.height)
    (hfragments : a.fragments = []) (hf : ∀ y ∈ f.roots, y.node.construct.waits = false) (hne : f ≠ .nil) :
    ∃ b' start, Assembly.onStatementEnd e b = .ok () b' ∧ Stacks a b' (tiled start e.offset f) .nil ∧
      b'.fragments = [] ∧ b'.sharedType? = none ∧ b'.failure? = a.failure? := by
  obtain ⟨tag?, log, H⟩ := D
  obtain ⟨b₁, hb₁, H₁⟩ := H.popAll (e := e) (n := b.height) (ha.reword fs type? tag? log) hbase
    (by rw [height, H.staged]; simp) hf
  rw [append_nil] at hb₁ H₁
  have hempty : f.rootSlots.isEmpty = false := by
    cases f with
    | nil => exact absurd rfl hne
    | node => rfl
  obtain ⟨hs, hsame⟩ := tile_stands (f := .nil) e.offset b₁.lastEnd H₁.stands H₁.plain
  have hstaged : b₁.staged = a.staged := H₁.staged
  have hb : Assembly.onStatementEnd e b = .ok ()
      { b₁ with
        tree := tile b₁.tree b₁.lastEnd e.offset f.rootSlots
        staged := f.rootSlots.reverse ++ b₁.staged
        lastEnd := e.offset
        statementBase := (f.rootSlots.reverse ++ b₁.staged).length
        fragments := []
        sharedType? := none } := by
    refine bind_ok.2 ⟨_, _, hb₁, ?_⟩
    rw [hempty, if_neg Bool.false_ne_true]
    simp only [get_bind, modifyTree_bind, forM_stage_bind, setLastEnd_bind, finishStatement_bind]
    rfl
  refine ⟨_, b₁.lastEnd, hb, ⟨?_, rfl, ?_, ?_⟩, rfl, rfl, H₁.failure?_eq⟩
  · exact { H₁.keeps with fragments := hfragments.symm, tree := H₁.same.trans hsame }
  · rw [rootSlots_tiled, ← hstaged]
  · rw [append_nil]
    exact hs

/-! ## After any calls -/

/-- **Types of declared names.** After any calls that return and leave no fault, where nothing of a declaration and no
operand waits, let words of a type, then names and then the end of the statement be reported. All of these events are
taken. They stage one tree for each name, in order, in which the type of the name is the words joined by blanks, as many
stars as the name has pointers, and its own array suffixes; the name is a reference if it has such a mark. No fragment
and no shared type are left. -/
theorem declared_of_events (path : Path) (calls : List Call) {a : Assembly} (hreached : (start path).after calls = a)
    (hanswers : ∀ halt, some halt ∈ (start path).answers calls → ∃ f, halt = .fault f) (hfail : a.failure? = none)
    (hfragments : a.fragments = []) (hoperands : a.hasOperands = false) (hmode : a.mode ≠ .tagName)
    {words : List BaseWord} (hwords : words ≠ []) (hw : ∀ w ∈ words, w.Placed) {names : List DeclaredName}
    (hnames : names ≠ []) (hn : ∀ n ∈ names, n.Placed) (he : e.kind = .statementEnd) :
    ∃ b f, Takes a (words.flatMap BaseWord.events ++ (names.flatMap DeclaredName.events ++ [e])) b ∧ Stacks a b f .nil ∧
      DeclaredName.Are (" ".intercalate (words.map BaseWord.text)) names f ∧
      b.fragments = [] ∧ b.sharedType? = none ∧ b.failure? = none := by
  have hkept := ((kept_start path).after calls (indexed_start path) hanswers).1
  have hbased := based_after calls (fun _ => le_rfl) hanswers (hreached ▸ hfail)
  rw [hreached] at hkept hbased
  have hbase : a.statementBase = a.height := by
    simp only [hasOperands, decide_eq_false_iff_not] at hoperands
    omega
  have ha : a.Calm := by
    refine ⟨hbased, fun s hs => (hkept.owning.sound.free s (by simp [Work.loose, hs])).1, fun s hs => ?_⟩
    rw [topOperand?, hoperands] at hs
    cases hs
  have D : Declaring a a a.fragments a.sharedType? .nil := ⟨a.waitingTag?, a.log, ha.heaped⟩
  obtain ⟨tag?, h₁⟩ := takes_baseWords words hfail hmode hw
  replace D := D.reword (a.fragments ++ words.map BaseWord.fragment) a.sharedType? tag? a.log
  rw [hfragments, List.nil_append] at D h₁
  have hkinds : ∀ r ∈ words.map BaseWord.fragment, r.kind = .type := by
    rw [List.forall_mem_map]
    exact fun _ _ => rfl
  have htype : typeText? (words.map BaseWord.fragment) = some (" ".intercalate (words.map BaseWord.text)) := by
    rw [typeText?_words (by simpa using hwords) hkinds, List.map_map]
    rfl
  obtain ⟨n, ns, rfl⟩ := List.exists_cons_of_ne_nil hnames
  obtain ⟨hn, hns⟩ := List.forall_mem_cons.1 hn
  obtain ⟨b₂, x, k, h₂, D₂, hx⟩ := D.declared ha hfail rests_nil hkinds (by rw [htype, Option.some_or]) hn
  obtain ⟨b₃, g, h₃, D₃, hg⟩ := Declaring.names ha hfail ns D₂ (rests_append_tree.2 hx.waits) hns
  have hare : DeclaredName.Are (" ".intercalate (words.map BaseWord.text)) (n :: ns) (.nil ++ Forest.tree x k ++ g) :=
    ⟨x, k, g, rfl, hx, hg⟩
  obtain ⟨b, first, hb, S, hfr, hty, hfa⟩ := D₃.onStatementEnd (e := e) ha hbase hfragments hare.waits (by simp)
  have h₄ : dispatch e b₃ = .ok () b := by rw [dispatch, he]; exact hb
  refine ⟨b, _, h₁.trans ?_, S, hare.tiled _ _, hfr, hty, hfa.trans hfail⟩
  rw [List.flatMap_cons, List.append_assoc]
  exact h₂.trans (h₃.trans (.of_dispatch (D₃.failure?_eq.trans hfail) h₄))

/-- A statement is staged already. -/
def statementFirst : List Call := [.event ⟨.identifier, 1, "q", none⟩, .event ⟨.statementEnd, 2, "", none⟩]

/-- A word and a tag: `const struct S`. -/
def constTag : List BaseWord := [.word ⟨"const", 3, 8, true⟩, .tagged ⟨"struct", 9, 15, false⟩ ⟨"S", 16, 17, false⟩]

/-- An array of pointers with a value, and a reference: `*p[2] = -x, &r`. -/
def arrayAndReference : List DeclaredName :=
  [{ marks := [.pointer ⟨"*", 18, 19, false⟩]
     name := ⟨"p", 19, 20, true⟩
     suffixes := [⟨"[2]", 20, 23, true⟩]
     initializer? := some ⟨.prefixed ⟨"-", 26, 27, true⟩ (.name ⟨"x", 27, 28, false⟩), ⟨"=", 24, 28, false⟩⟩ },
   { marks := [.reference ⟨"&", 30, 31, false⟩]
     name := ⟨"r", 31, 32, false⟩
     suffixes := []
     initializer? := none }]

theorem placed_arrayAndReference : ∀ n ∈ arrayAndReference, n.Placed := by
  rw [arrayAndReference, List.forall_mem_cons, List.forall_mem_singleton]
  refine ⟨⟨by decide, by decide, fun i hi => ?_⟩, by decide, by decide, by simp⟩
  cases hi
  have hx : Lexeme.Written ⟨"x", 27, 28, false⟩ 27 28 := by decide
  exact ⟨rfl, ⟨26, 28, ⟨by decide, hx⟩, by decide⟩, rfl⟩

theorem declared_arrayAndReference :
    ((start []).after statementFirst).staged = [⟨1⟩] ∧
    arrayAndReference.map (DeclaredName.construct (" ".intercalate (constTag.map BaseWord.text))) =
      [.declaration "const struct S*[2]" "p" false, .declaration "const struct S" "r" true] ∧
    ∃ b f, Takes ((start []).after statementFirst) (constTag.flatMap BaseWord.events ++
        (arrayAndReference.flatMap DeclaredName.events ++ [⟨.statementEnd, 33, "", none⟩])) b ∧
      Stacks ((start []).after statementFirst) b f .nil ∧
      DeclaredName.Are (" ".intercalate (constTag.map BaseWord.text)) arrayAndReference f ∧
      b.fragments = [] ∧ b.sharedType? = none ∧ b.failure? = none := by
  have hanswers : (start []).answers statementFirst = [none, none] := by decide +kernel
  refine ⟨by decide +kernel, by decide +kernel, declared_of_events [] statementFirst rfl ?_ (by decide +kernel)
    (by decide +kernel) (by decide +kernel) (by decide +kernel) (List.cons_ne_nil _ _) (by decide +kernel)
    (List.cons_ne_nil _ _) placed_arrayAndReference rfl⟩
  rw [hanswers]
  simp

end Assembly

end Deferral
