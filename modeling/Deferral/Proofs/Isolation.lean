import Deferral.Batch.Run
import Deferral.Proofs.Places
import Deferral.Proofs.Resolving
import Deferral.Proofs.Silence

/-!
# Inputs are isolated

One assembly and one session serve all inputs of a run, and all of them work on the same files. None of this lets one
input change what comes of another. An assembly that starts on another source cannot be told from a new one, since only
its log is left and no step reads the log. The work on an input depends on what is at the places on the way to the input
and to its output, and writes to its output only (`Confined`, `confined_runUnit`). So a run on inputs whose outputs are
not in each other's way is made up of runs on single inputs (`isolated_runInputs`).
-/

namespace Deferral

open List

namespace Assembly

variable {a b : Assembly} {e : Event} {f : Fault} {room : Nat}

/-! ## One assembly for all sources -/

/-- Answers, and what is left but for the log. -/
def outcome {α : Type} (r : Except Crash (Assembly × α)) : Except Crash (Assembly × α) :=
  r.map fun r => (r.1.unlogged, r.2)

theorem call_unlogged (h : a.unlogged = b.unlogged) (c : Call) :
    (a.call c).1.unlogged = (b.call c).1.unlogged ∧ (a.call c).2 = (b.call c).2 := by
  cases c with
  | event e => exact handle_unlogged h e
  | startUnit path => exact ⟨rfl, rfl⟩
  | take =>
    rw [eq_of_unlogged h]
    exact ⟨rfl, rfl⟩

theorem serve_unlogged (room : Nat) (h : a.unlogged = b.unlogged) (c : Call) :
    outcome (a.serve room c) = outcome (b.serve room c) := by
  obtain ⟨hab, hanswer⟩ := call_unlogged h c
  have hfailure : a.unlogged.failure? = b.unlogged.failure? := congrArg failure? h
  change a.failure? = b.failure? at hfailure
  unfold serve
  rw [hfailure]
  split
  · rfl
  · generalize a.call c = p, b.call c = q at hab hanswer ⊢
    obtain ⟨a', halt?⟩ := p
    obtain ⟨b', _⟩ := q
    cases hanswer
    rcases halt? with _ | ⟨_ | _⟩
    · exact congrArg (fun a => Except.ok (a, none)) hab
    · exact congrArg (fun a => Except.ok (a, some _)) hab
    · rfl

theorem serveAll_unlogged (room : Nat) : ∀ (calls : List Call) {a b : Assembly}, a.unlogged = b.unlogged →
    outcome (a.serveAll room calls) = outcome (b.serveAll room calls)
  | [], _, _, h => congrArg (fun a => Except.ok (a, [])) h
  | c :: calls, a, b, h => by
    have hone := serve_unlogged room h c
    rw [serveAll, serveAll]
    generalize a.serve room c = p, b.serve room c = q at hone ⊢
    rcases p with crash | ⟨a', answer⟩ <;> rcases q with crash' | ⟨b', answer'⟩
    · obtain rfl := Except.error.inj hone
      rfl
    · cases hone
    · cases hone
    · obtain ⟨hab, rfl⟩ := Prod.mk.inj (Except.ok.inj hone)
      have hrest := serveAll_unlogged room calls hab
      dsimp only
      generalize a'.serveAll room calls = p, b'.serveAll room calls = q at hrest ⊢
      rcases p with crash | ⟨a₁, answers⟩ <;> rcases q with crash' | ⟨b₁, answers'⟩
      · obtain rfl := Except.error.inj hrest
        rfl
      · cases hrest
      · cases hrest
      · obtain ⟨hab, rfl⟩ := Prod.mk.inj (Except.ok.inj hrest)
        exact congrArg (fun a => Except.ok (a, answer :: answers)) hab

/-- A fault is recorded. -/
theorem failure_of_handle (h : (a.handle e).2 = some (.fault f)) : (a.handle e).1.failure? = some f := by
  unfold handle at h ⊢
  cases hf : a.failure? with
  | some g =>
    rw [hf] at h
    cases h
    exact hf
  | none =>
    simp only [hf] at h ⊢
    generalize dispatch e a = r at h ⊢
    rcases r with _ | ⟨⟨g⟩ | _, _⟩ <;> cases h
    rfl

theorem call_of_serve {c : Call} {answer? : Option Fault} (h : a.serve room c = .ok (b, answer?)) :
    a.call c = (b, answer?.map .fault) := by
  unfold serve at h
  split at h
  · cases h
  · generalize a.call c = p at h ⊢
    rcases p with ⟨a', _ | ⟨_ | _⟩⟩ <;> cases h <;> rfl

/-- A fault is final: every event is answered with it, and nothing changes. -/
theorem serveAll_of_failure (room : Nat) (h : a.failure? = some f) : ∀ events : List Event,
    a.serveAll room (events.map .event) = .ok (a, events.map fun _ => some f)
  | [] => rfl
  | e :: events => by
    have hone : a.serve room (.event e) = .ok (a, some f) := by simp [serve, call, handle, h]
    simp [serveAll, hone, serveAll_of_failure room h events, Except.map]

end Assembly

namespace Batch

variable {α β σ Place : Type} {disk : Disk (StateM σ)} {pl : disk.Placing Place} {ls : List Place}

/-- Two computations on files: from states that agree on `ls` they give results that `r` relates, and states that agree
on `ls` again. -/
def Alike (pl : disk.Placing Place) (ls : List Place) (r : α → β → Prop) (x : StateM σ α) (y : StateM σ β) : Prop :=
  ∀ t u, pl.AgreeOn ls t u → r (x.run t).1 (y.run u).1 ∧ pl.AgreeOn ls (x.run t).2 (y.run u).2

/-- A computation on files changes nothing but what is at `place`, and not even that if it is a directory. -/
def Keeps (pl : disk.Placing Place) (place : Place) (x : StateM σ α) : Prop :=
  ∀ t l, (l = place → pl.look t l = some .directory) → pl.look (x.run t).2 l = pl.look t l

/-- The work on an input depends on what is at `ls` only, and not on the session; it writes at `place` only. -/
structure Confined (pl : disk.Placing Place) (ls : List Place) (place : Place) (x : Work (StateM σ) α) : Prop where
  alike : ∀ s s', Alike pl ls (fun p q => p.1 = q.1) (x.run.run s) (x.run.run s')
  keeps : ∀ s, Keeps pl place (x.run.run s)

namespace Confined

variable {place : Place} {x : Work (StateM σ) α} {f : α → Work (StateM σ) β}

theorem run_bind (x : Work (StateM σ) α) (f : α → Work (StateM σ) β) (s : Session) (t : σ) :
    ((x >>= f).run.run s).run t = match (x.run.run s).run t with
      | ((.ok v, s'), t') => ((f v).run.run s').run t'
      | ((.error e, s'), t') => ((.error e, s'), t') := by
  simp only [ExceptT.run_bind, StateT.run_bind]
  change (let p := (x.run.run s).run t; _) = _
  rcases (x.run.run s).run t with ⟨⟨_ | _, _⟩, _⟩ <;> rfl

theorem bind (hx : Confined pl ls place x) (hf : ∀ v, Confined pl ls place (f v)) : Confined pl ls place (x >>= f) := by
  constructor
  · intro s s' t u h
    obtain ⟨hr, hls⟩ := hx.alike s s' t u h
    rw [run_bind, run_bind]
    generalize (x.run.run s).run t = p, (x.run.run s').run u = q at hr hls ⊢
    obtain ⟨⟨r, s₁⟩, t₁⟩ := p
    obtain ⟨⟨r', s₂⟩, u₁⟩ := q
    obtain rfl : r = r' := hr
    cases r with
    | ok v => exact (hf v).alike s₁ s₂ t₁ u₁ hls
    | error e => exact ⟨rfl, hls⟩
  · intro s t l hl
    have hx := hx.keeps s t l hl
    rw [run_bind]
    generalize (x.run.run s).run t = p at hx ⊢
    obtain ⟨⟨r, s₁⟩, t₁⟩ := p
    cases r with
    | ok v => exact ((hf v).keeps s₁ t₁ l fun h => hx.trans (hl h)).trans hx
    | error e => exact hx

theorem pure (v : α) : Confined pl ls place (Pure.pure v) := ⟨fun _ _ _ _ h => ⟨rfl, h⟩, fun _ _ _ _ => rfl⟩

theorem throw (e : UnitError) : Confined pl ls place (throw e : Work (StateM σ) α) :=
  ⟨fun _ _ _ _ h => ⟨rfl, h⟩, fun _ _ _ _ => rfl⟩

theorem modify (g : Session → Session) : Confined pl ls place (modify g : Work (StateM σ) Unit) :=
  ⟨fun _ _ _ _ h => ⟨rfl, h⟩, fun _ _ _ _ => rfl⟩

theorem lift {y : StateM σ α} (ha : Alike pl ls Eq y y) (hk : Keeps pl place y) :
    Confined pl ls place (liftM y : Work (StateM σ) α) :=
  ⟨fun _ _ t u h => ⟨congrArg Except.ok (ha t u h).1, (ha t u h).2⟩, fun _ => hk⟩

theorem ite {c : Prop} [Decidable c] {y : Work (StateM σ) α} (hx : Confined pl ls place x)
    (hy : Confined pl ls place y) : Confined pl ls place (if c then x else y) := by
  split
  · exact hx
  · exact hy

theorem first {c : Prop} [Decidable c] {y : Work (StateM σ) Unit} {k : Unit → Work (StateM σ) β}
    (hy : Confined pl ls place y) (hk : ∀ v, Confined pl ls place (k v)) :
    Confined pl ls place (if c then y >>= k else k ()) := .ite (hy.bind hk) (hk ())

theorem either {c : Prop} [Decidable c] {y : Work (StateM σ) Unit} {v w : α} (P : α → Prop) (hv : P v)
    (hw : P w) (hy : Confined pl ls place y) (hf : ∀ a, P a → Confined pl ls place (f a)) :
    Confined pl ls place (if c then y >>= fun _ => Pure.pure v >>= f else Pure.pure w >>= f) :=
  .ite (hy.bind fun _ => hf v hv) (hf w hw)

theorem run_buildTree (path : Path) (source : List UInt8) (s : Session) :
    ∃ s', ∀ files : σ, ((buildTree path source : Work (StateM σ) Tree).run.run s).run files =
      ((((Assembly.start path).build source).1.mapError (.build path), s'), files) := by
  have hstart := Assembly.build_startUnit s.assembly path source
  rcases hb : (s.assembly.startUnit path).build source with ⟨result, assembly⟩
  rw [hb] at hstart
  refine ⟨{ s with assembly := { assembly with log := #[] }, log := s.log ++ assembly.log }, fun files => ?_⟩
  have hget : ((get : Work (StateM σ) Session).run.run s).run files = ((.ok s, s), files) := rfl
  rw [← hstart, buildTree, run_bind, hget]
  simp only [hb]
  cases result with
  | ok t => rfl
  | error e => rfl

theorem build {path : Path} {source : List UInt8} {f : Tree → Work (StateM σ) β}
    (hf : ∀ t, ((Assembly.start path).build source).1 = .ok t → Confined pl ls place (f t)) :
    Confined pl ls place (buildTree path source >>= f) := by
  constructor
  · intro s s' t u h
    obtain ⟨s₁, hs⟩ := run_buildTree (σ := σ) path source s
    obtain ⟨s₂, hs'⟩ := run_buildTree (σ := σ) path source s'
    rw [run_bind, run_bind, hs, hs']
    cases hb : ((Assembly.start path).build source).1 with
    | ok tree => exact (hf tree hb).alike s₁ s₂ t u h
    | error e => exact ⟨rfl, h⟩
  · intro s t l hl
    obtain ⟨s₁, hs⟩ := run_buildTree (σ := σ) path source s
    rw [run_bind, hs]
    cases hb : ((Assembly.start path).build source).1 with
    | ok tree => exact (hf tree hb).keeps s₁ t l hl
    | error e => rfl

end Confined

/-! ## One input -/

variable {path output : Path}

/-- The bytes of what is opened. -/
def bytesOf : Except FileError SourceText → Except FileError (List UInt8)
  | .ok (.bytes bytes) => .ok bytes.toList
  | .ok (.unreadable cause) => .error cause
  | .error e => .error e

theorem run_openSource (pl : disk.Placing Place) (path : Path) (s : σ) :
    (disk.openSource path).run s = (((disk.openSource path).run s).1, s) := Prod.ext rfl (pl.run_openSource path s)

/-- Reading a file changes nothing, and what is read depends on what is opened. -/
theorem run_read (pl : disk.Placing Place) (path : Path) (s : σ) :
    (disk.read path).run s = (bytesOf ((disk.openSource path).run s).1, s) := by
  rw [Disk.read, StateT.run_bind, run_openSource pl]
  rcases ((disk.openSource path).run s).1 with _ | ⟨_ | _⟩ <;> rfl

/-- What is opened for copying, given whether it is the output. -/
def openedAs (same : Bool) : Except FileError SourceText → Except FileError CopySource :=
  Except.map fun source => if same then .output else .file source

theorem run_openFor (pl : disk.Placing Place) (path output : Path) (s : σ) : (openFor disk path output).run s =
    (openedAs ((disk.same path output).run s).1 ((disk.openSource path).run s).1, s) := by
  have hsame : (disk.same path output).run s = (((disk.same path output).run s).1, s) :=
    Prod.ext rfl (pl.run_same path output s)
  rw [openFor, StateT.run_bind, run_openSource pl]
  cases ((disk.openSource path).run s).1 with
  | error e => rfl
  | ok source =>
    change ((disk.same path output >>= _).run s : Id _) = _
    rw [StateT.run_bind, hsame]
    rfl

/-- Writing a tree makes a file and fills it with what depends on the source that is opened then. -/
theorem run_writeTree (pl : disk.Placing Place) (tree : Tree) (output : Path) (s : σ) :
    (writeTree disk tree output).run s = match (disk.create output).run s with
      | (.error e, made) => (.error e, made)
      | (.ok _, made) =>
        let opened := openedAs ((disk.same tree.path output).run made).1 ((disk.openSource tree.path).run made).1
        let emission := emitOpened ((disk.writer output).run made).1 tree opened
        (.ok (flushed emission output ((disk.fill output emission.output).run made).1),
          ((disk.fill output emission.output).run made).2) := by
  rw [writeTree, StateT.run_bind]
  rcases (disk.create output).run s with ⟨_ | _, made⟩
  · rfl
  · have hwriter : (disk.writer output).run made = (((disk.writer output).run made).1, made) :=
      Prod.ext rfl (pl.run_writer output made)
    change ((openFor disk tree.path output >>= _).run made : Id _) = _
    rw [StateT.run_bind, run_openFor pl]
    change ((disk.writer output >>= _).run made : Id _) = _
    rw [StateT.run_bind, hwriter]
    rfl

theorem alike_read (h : pl.stops path ⊆ ls) : Alike pl ls Eq (disk.read path) (disk.read path) := by
  intro t u hls
  rw [run_read pl, run_read pl, pl.openSource_congr (hls.mono h)]
  exact ⟨rfl, hls⟩

theorem keeps_read (place : Place) : Keeps pl place (disk.read path) := by
  intro t l _
  rw [run_read pl]

theorem alike_writeTree {tree : Tree} (h : pl.stops tree.path ⊆ ls) (h' : pl.stops output ⊆ ls) :
    Alike pl ls Eq (writeTree disk tree output) (writeTree disk tree output) := by
  intro t u hls
  obtain ⟨hr, hagree⟩ := pl.create_congr h' hls
  rw [run_writeTree pl, run_writeTree pl]
  generalize (disk.create output).run t = p, (disk.create output).run u = q at hr hagree ⊢
  obtain ⟨r, made⟩ := p
  obtain ⟨_, made'⟩ := q
  cases hr
  have hmade : pl.AgreeOn ls made made' := hagree
  clear hagree
  cases r with
  | error e => exact ⟨rfl, hmade⟩
  | ok _ =>
    dsimp only
    rw [pl.openSource_congr (hmade.mono h), pl.same_congr (hmade.mono h) (hmade.mono h'),
      pl.writer_congr (hmade.mono h')]
    obtain ⟨hresult, hfilled⟩ := pl.fill_congr h' hmade _
    exact ⟨by rw [hresult], hfilled⟩

theorem keeps_writeTree (tree : Tree) (output : Path) : Keeps pl (pl.place output) (writeTree disk tree output) := by
  intro t l hl
  rw [run_writeTree pl]
  by_cases hplace : l = pl.place output
  · obtain ⟨e, he⟩ := pl.create_directory (hplace ▸ hl hplace)
    rw [he]
  · have hmade : pl.look ((disk.create output).run t).2 l = pl.look t l := pl.look_create hplace
    rcases hc : (disk.create output).run t with ⟨_ | _, made⟩
    · rwa [hc] at hmade
    · rw [hc] at hmade
      exact (pl.look_fill _ hplace).trans hmade

/-- The tree of a source names the path it was read from, and resolving keeps it. -/
theorem path_of_build {source : List UInt8} {tree : Tree} (h : ((Assembly.start path).build source).1 = .ok tree) :
    tree.path = path ∧ (Firing.resolve tree).tree.path = path := by
  obtain ⟨tokens, f, hb⟩ := Assembly.exists_built h
  obtain ⟨armed, f', -, hs, -⟩ := Firing.exists_resolves hb
  have hroot : (Firing.resolve tree).tree.construct .root = .unit path :=
    hs.holds.construct_eq (e := .fresh .root (.unit path) ⟨0, source.length⟩) (by simp [Tree.Built.whole])
  exact ⟨by rw [Tree.path, hb.construct_root], by rw [Tree.path, hroot]⟩

/-- The work on an input depends on what is on the way to the input and to its output, and writes its output. -/
theorem confined_runUnit {settings : Settings} {input : Path} (phase : Phase) (hi : pl.stops input ⊆ ls)
    (ho : pl.stops (settings.outputPath input) ⊆ ls) :
    Confined pl ls (pl.place (settings.outputPath input)) (runUnit disk settings phase input) := by
  unfold runUnit
  refine (Confined.lift (alike_read hi) (keeps_read _)).bind fun r => ?_
  cases r with
  | error e => exact .throw _
  | ok source =>
    refine Confined.build fun tree htree => .ite (.pure _) ?_
    obtain ⟨hpath, hpath'⟩ := path_of_build htree
    dsimp only
    refine Confined.either (fun product => product.tree.path = input) hpath' hpath (.modify _) fun product hp =>
      Confined.first (.modify _) fun _ => .ite (.pure _) ?_
    refine (Confined.lift (alike_writeTree (hp ▸ hi) ho) (keeps_writeTree _ _)).bind fun r => ?_
    cases r with
    | error e => exact .throw _
    | ok emission => exact (Confined.modify _).bind fun _ => .first (.modify _) fun _ => .pure _

/-! ## All inputs -/

/-- The work on one input, from a session and files. -/
def runInput (disk : Disk (StateM σ)) (settings : Settings) (phase : Phase) (session : Session) (files : σ)
    (input : Path) : (Except UnitError Product × Session) × σ :=
  ((runUnit disk settings phase input).run.run session).run files

/-- What the work on an input can depend on. -/
def reads (pl : disk.Placing Place) (settings : Settings) (input : Path) : List Place :=
  pl.stops input ++ pl.stops (settings.outputPath input)

/-- No output of one input is in the way of another input, unless there is a directory in its place, so that it cannot
be made. -/
def Apart (pl : disk.Placing Place) (settings : Settings) (files : σ) (inputs : List Path) : Prop :=
  ∀ p ∈ inputs, ∀ q ∈ inputs, p ≠ q → pl.place (settings.outputPath p) ∈ reads pl settings q →
    pl.look files (pl.place (settings.outputPath p)) = some .directory

variable {settings : Settings} {phase : Phase} {session session' : Session} {files files' : σ} {input : Path}
  {inputs : List Path} {l : Place}

theorem runInput_congr (h : pl.AgreeOn (reads pl settings input) files files') :
    (runInput disk settings phase session files input).1.1 = (runInput disk settings phase session' files' input).1.1 ∧
      pl.AgreeOn (reads pl settings input) (runInput disk settings phase session files input).2
        (runInput disk settings phase session' files' input).2 :=
  (confined_runUnit phase (subset_append_left _ _) (subset_append_right _ _)).alike _ _ _ _ h

theorem runInput_keeps (h : l = pl.place (settings.outputPath input) → pl.look files l = some .directory) :
    pl.look (runInput disk settings phase session files input).2 l = pl.look files l :=
  (confined_runUnit phase (subset_append_left _ _) (subset_append_right _ _)).keeps _ _ _ h

theorem Results.insert_new {results : Results} (h : ∀ r ∈ results, Path.same r.1 input = false)
    (result : Except UnitError Product) : results.insert input result = results ++ [(input, result)] := by
  rw [Results.insert, if_neg]
  simpa using h

/-- Inputs one after the other. -/
def runInputs (disk : Disk (StateM σ)) (settings : Settings) (phase : Phase) (inputs : List Path) (results : Results) :
    StateT Session (StateM σ) Results :=
  inputs.foldlM (fun results input => do
    let result ← (runUnit disk settings phase input).run
    return results.insert input result) results

theorem runPhase_eq (disk : Disk (StateM σ)) (settings : Settings) (phase : Phase) :
    runPhase disk settings phase = runInputs disk settings phase settings.inputs [] := rfl

theorem runInputs_cons (disk : Disk (StateM σ)) (input : Path) (inputs : List Path) (results : Results)
    (session : Session) (files : σ) :
    ((runInputs disk settings phase (input :: inputs) results).run session).run files =
      ((runInputs disk settings phase inputs
        (results.insert input (runInput disk settings phase session files input).1.1)).run
          (runInput disk settings phase session files input).1.2).run
            (runInput disk settings phase session files input).2 := by
  rw [runInputs, foldlM_cons]
  rfl

/-- What is left after inputs that were taken one after the other: each has given what it gives alone, from any session,
and nothing but outputs has changed. -/
structure Isolated (pl : disk.Placing Place) (settings : Settings) (phase : Phase) (inputs : List Path)
    (earlier : Results) (session : Session) (files : σ) (left : (Results × Session) × σ) : Prop where
  results : left.1.1 = earlier ++ inputs.map fun p => (p, (runInput disk settings phase session files p).1.1)
  agree : ∀ p ∈ inputs, pl.AgreeOn (reads pl settings p) left.2 (runInput disk settings phase session files p).2
  keeps : ∀ l, (∀ p ∈ inputs, l = pl.place (settings.outputPath p) → pl.look files l = some .directory) →
    pl.look left.2 l = pl.look files l

section Step

variable (h : Apart pl settings files (input :: inputs)) (hne : ∀ p ∈ inputs, input ≠ p)

include h

theorem Apart.tail : Apart pl settings (runInput disk settings phase session files input).2 inputs := by
  intro p hp q hq hne hmem
  have hdir := h p (mem_cons_of_mem _ hp) q (mem_cons_of_mem _ hq) hne hmem
  rw [runInput_keeps fun _ => hdir, hdir]

include hne

theorem Apart.agreeOn {other : Path} (ho : other ∈ inputs) :
    pl.AgreeOn (reads pl settings other) (runInput disk settings phase session files input).2 files := by
  intro l hl
  refine runInput_keeps fun hplace => ?_
  subst hplace
  exact h input mem_cons_self other (mem_cons_of_mem _ ho) (hne other ho) hl

theorem Isolated.cons {earlier : Results} {left : (Results × Session) × σ}
    (hi : Isolated pl settings phase inputs
      (earlier ++ [(input, (runInput disk settings phase session files input).1.1)]) session'
      (runInput disk settings phase session files input).2 left) :
    Isolated pl settings phase (input :: inputs) earlier session' files left := by
  have hself :
      (runInput disk settings phase session files input).1.1 = (runInput disk settings phase session' files input).1.1 ∧
      pl.AgreeOn (reads pl settings input) (runInput disk settings phase session files input).2
        (runInput disk settings phase session' files input).2 := runInput_congr fun _ _ => rfl
  constructor
  · have hmap : (inputs.map fun p =>
        (p, (runInput disk settings phase session' (runInput disk settings phase session files input).2 p).1.1)) =
        inputs.map fun p => (p, (runInput disk settings phase session' files p).1.1) := by
      refine map_congr_left fun p hp => ?_
      rw [(runInput_congr (h.agreeOn hne hp)).1]
    rw [hi.results, hself.1, hmap, append_assoc, map_cons, singleton_append]
  · intro p hp
    rcases mem_cons.1 hp with rfl | hp
    · intro l hl
      refine Eq.trans (hi.keeps l fun q hq hplace => ?_) (hself.2 l hl)
      subst hplace
      have hdir := h q (mem_cons_of_mem _ hq) p mem_cons_self (hne q hq).symm hl
      rw [runInput_keeps fun _ => hdir, hdir]
    · exact fun l hl => (hi.agree p hp l hl).trans ((runInput_congr (h.agreeOn hne hp)).2 l hl)
  · intro l hl
    have hkeeps : pl.look (runInput disk settings phase session files input).2 l = pl.look files l :=
      runInput_keeps (hl input mem_cons_self)
    refine Eq.trans (hi.keeps l fun p hp hplace => ?_) hkeeps
    rw [hkeeps]
    exact hl p (mem_cons_of_mem _ hp) hplace

end Step

theorem isolated_runInputs (session' : Session) : ∀ {inputs : List Path} {earlier : Results} {session : Session}
    {files : σ}, inputs.Pairwise (fun p q => Path.same p q = false) →
    (∀ r ∈ earlier, ∀ p ∈ inputs, Path.same r.1 p = false) → Apart pl settings files inputs →
    Isolated pl settings phase inputs earlier session' files
      (((runInputs disk settings phase inputs earlier).run session).run files)
  | [], _, _, _, _, _, _ => ⟨(append_nil _).symm, nofun, fun _ _ => rfl⟩
  | input :: inputs, earlier, session, files, hpair, hnew, hapart => by
    obtain ⟨hfirst, hpair⟩ := pairwise_cons.1 hpair
    have hne : ∀ p ∈ inputs, input ≠ p := by
      rintro p hp rfl
      simpa [Path.same] using hfirst input hp
    rw [runInputs_cons, Results.insert_new fun r hr => hnew r hr input mem_cons_self]
    have hnew' : ∀ r ∈ earlier ++ [(input, (runInput disk settings phase session files input).1.1)], ∀ p ∈ inputs,
        Path.same r.1 p = false := by
      intro r hr p hp
      rcases mem_append.1 hr with hr | hr
      · exact hnew r hr p (mem_cons_of_mem _ hp)
      · rw [mem_singleton.1 hr]
        exact hfirst p hp
    have hapart' : Apart pl settings (runInput disk settings phase session files input).2 inputs := hapart.tail
    exact .cons hapart hne (isolated_runInputs session' hpair hnew' hapart')

instance [DecidableEq Place] (pl : disk.Placing Place) (settings : Settings) (files : σ) (inputs : List Path) :
    Decidable (Apart pl settings files inputs) :=
  inferInstanceAs (Decidable (∀ p ∈ inputs, ∀ q ∈ inputs, p ≠ q → _ → _))

/-- The inputs without a result, and why. -/
def Results.errors (results : Results) : List (Path × UnitError) :=
  results.filterMap fun (path, result) =>
    match result with
    | .ok _ => none
    | .error e => some (path, e)

/-- **Inputs are isolated.** Whatever an assembly was used for, on a new source it answers every event as a new assembly
does and assembles the same; after a fault it answers every event with that fault and does not change. In a run on
inputs with different paths, where no output stands in the way of another input or output, each input gives what it
gives in a run of its own, whatever comes of the others; so does its output, and no other file changes. -/
theorem isolated_inputs {σ Place : Type} {disk : Disk (StateM σ)} (pl : disk.Placing Place) (settings : Settings)
    (phase : Phase) (session session' : Session) (files : σ)
    (hd : settings.inputs.Pairwise fun p q => Path.same p q = false) (ha : Apart pl settings files settings.inputs) :
    (∀ (room : Nat) (used : Assembly) (path : Path) (events : List Event),
      Assembly.outcome ((used.startUnit path).serveAll room (events.map .event)) =
        Assembly.outcome ((Assembly.start path).serveAll room (events.map .event))) ∧
    (∀ (room : Nat) (a b : Assembly) (e : Event) (f : Assembly.Fault), a.serve room (.event e) = .ok (b, some f) →
      ∀ events : List Event, b.serveAll room (events.map .event) = .ok (b, events.map fun _ => some f)) ∧
    let all := ((runPhase disk settings phase).run session).run files
    let alone := fun p => ((runPhase disk { settings with inputs := [p] } phase).run session').run files
    all.1.1 = settings.inputs.flatMap (fun p => (alone p).1.1) ∧
      (∀ p ∈ settings.inputs, (∃ result, (alone p).1.1 = [(p, result)]) ∧
        pl.look all.2 (pl.place (settings.outputPath p)) = pl.look (alone p).2 (pl.place (settings.outputPath p))) ∧
      ∀ l, (∀ p ∈ settings.inputs, l ≠ pl.place (settings.outputPath p)) → pl.look all.2 l = pl.look files l := by
  refine ⟨fun room used path events => Assembly.serveAll_unlogged room _ (Assembly.unlogged_startUnit _ path),
    fun room a b e f h events => Assembly.serveAll_of_failure room ?_ events, ?_⟩
  · have hcall := Assembly.call_of_serve h
    have hfailure : (a.handle e).1.failure? = some f := Assembly.failure_of_handle (congrArg Prod.snd hcall)
    exact (congrArg (fun r : Assembly × Option Assembly.Halt => r.1.failure?) hcall).symm.trans hfailure
  have hi : Isolated pl settings phase settings.inputs [] session' files
      (((runPhase disk settings phase).run session).run files) := by
    rw [runPhase_eq]
    exact isolated_runInputs session' hd (fun r hr => absurd hr not_mem_nil) ha
  have halone (p : Path) : ((runPhase disk { settings with inputs := [p] } phase).run session').run files =
      (([(p, (runInput disk settings phase session' files p).1.1)],
        (runInput disk settings phase session' files p).1.2),
        (runInput disk settings phase session' files p).2) := rfl
  simp only [halone]
  refine ⟨?_, fun p hp => ⟨⟨_, rfl⟩, ?_⟩, fun l hl => hi.keeps l fun p hp h => absurd h (hl p hp)⟩
  · rw [hi.results, nil_append, map_eq_flatMap]
  · exact hi.agree p hp _ (mem_append_right _ (pl.place_mem_stops _))

/-- Of three inputs, one is accepted, one is not, and one is not there. -/
def mixed : Settings := { inputs := ["a.c", "b.c", "sub/c.c"].map Utf8.encode }

def mixedFiles : FileTree :=
  (({} : FileTree).put (Utf8.encode "a.c") (.file (Utf8.encode "void f()\x7b defer g(); \x7d"))).put
    (Utf8.encode "b.c") (.file (Utf8.encode "void f()\x7b x"))

set_option maxRecDepth 100000 in
theorem isolated_inputs_mixed :
    (mixed.inputs.Pairwise fun p q => Path.same p q = false) ∧ Apart FileTree.placing mixed mixedFiles mixed.inputs ∧
      let all := ((runPhase FileTree.disk mixed .write).run {}).run mixedFiles
      all.1.1.errors.map Prod.fst = ["b.c", "sub/c.c"].map Utf8.encode ∧
      all.1.1 = mixed.inputs.flatMap fun p =>
        (((runPhase FileTree.disk { mixed with inputs := [p] } .write).run {}).run mixedFiles).1.1 :=
  ⟨by decide +kernel, by decide +kernel, by decide +kernel,
    (isolated_inputs FileTree.placing mixed .write {} {} mixedFiles (by decide +kernel) (by decide +kernel)).2.2.1⟩

/-- Two inputs, the second of which is below the output of the first. -/
def below : Settings := { inputs := ["d.c", "d.out.c/x.c"].map Utf8.encode }

def belowFiles : FileTree := ({} : FileTree).put (Utf8.encode "d.c") (.file (Utf8.encode "void f()\x7b \x7d"))

set_option maxRecDepth 100000 in
/-- That all paths of inputs and outputs are different is not enough: an output can turn what is missing on the way to
another input into a file. -/
theorem not_isolated_below :
    ((below.inputs ++ below.inputs.map below.outputPath).Pairwise fun p q => Path.same p q = false) ∧
      let late := Utf8.encode "d.out.c/x.c"
      (((runPhase FileTree.disk below .write).run {}).run belowFiles).1.1.errors =
        [(late, .unreadable late .notDirectory)] ∧
      (((runPhase FileTree.disk { below with inputs := [late] } .write).run {}).run belowFiles).1.1.errors =
        [(late, .unreadable late .notFound)] := by
  decide +kernel

end Batch

end Deferral
