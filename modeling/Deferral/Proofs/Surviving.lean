import Deferral.Lowering
import Deferral.Proofs.Isolation

/-!
# What a run leaves in its files

Where writes succeed, an input that ends well leaves in its output what was emitted for it (`emitted_runInput`). A later
input changes nothing but what is at the place of its own output. So sources and outputs survive a run unless an output
leads to a source or two outputs lead to one place (`Recorded`), and the paths of outputs tell when that can be.
-/

namespace Deferral

open List

namespace Batch

variable {α β σ Place : Type} {disk : Disk (StateM σ)} {pl : disk.Placing Place} {settings : Settings}
  {session : Session} {files : σ} {input : Path}

/-! ## One input -/

/-- From files with `P`, work that ends well ends with a value and files that `Q` relates. -/
def Leaves (P : σ → Prop) (x : Work (StateM σ) α) (Q : α → σ → Prop) : Prop :=
  ∀ s t v s' t', P t → (x.run.run s).run t = ((.ok v, s'), t') → Q v t'

namespace Leaves

variable {P : σ → Prop} {x y : Work (StateM σ) α} {f : α → Work (StateM σ) β}
  {R Q : α → σ → Prop} {S : β → σ → Prop}

theorem bind (hx : Leaves P x R) (hf : ∀ v, Leaves (R v) (f v) S) : Leaves P (x >>= f) S := by
  intro s t v s' t' hP h
  rw [Confined.run_bind] at h
  rcases hr : (x.run.run s).run t with ⟨⟨_ | w, s₁⟩, t₁⟩
  · rw [hr] at h
    cases h
  · rw [hr] at h
    exact hf w s₁ t₁ v s' t' (hx s t w s₁ t₁ hP hr) h

theorem pure {v : α} (h : ∀ t, P t → Q v t) : Leaves P (Pure.pure v) Q := by
  rintro s t v s' t' hP ⟨⟩
  exact h t hP

theorem throw (e : UnitError) : Leaves P (throw e : Work (StateM σ) α) Q := by
  rintro s t v s' t' - ⟨⟩

theorem modify (g : Session → Session) : Leaves P (modify g : Work (StateM σ) Unit) fun _ => P := by
  rintro s t v s' t' hP ⟨⟩
  exact hP

theorem lift {z : StateM σ α} (h : ∀ t, P t → Q (z.run t).1 (z.run t).2) :
    Leaves P (liftM z : Work (StateM σ) α) Q := by
  rintro s t v s' t' hP ⟨⟩
  exact h t hP

theorem mono {P' : σ → Prop} (hx : Leaves P x Q) (h : ∀ t, P' t → P t) : Leaves P' x Q :=
  fun s t v s' t' hP => hx s t v s' t' (h t hP)

theorem assume {φ : Prop} (hP : ∀ t, P t → φ) (hx : φ → Leaves P x Q) : Leaves P x Q :=
  fun s t v s' t' ht => hx (hP t ht) s t v s' t' ht

theorem ite {c : Prop} [Decidable c] (hx : Leaves P x Q) (hy : Leaves P y Q) : Leaves P (if c then x else y) Q := by
  split
  · exact hx
  · exact hy

theorem skip {c : Prop} [Decidable c] (hc : ¬c) (hy : Leaves P y Q) : Leaves P (if c then x else y) Q := by
  rwa [if_neg hc]

theorem first {c : Prop} [Decidable c] {z : Work (StateM σ) Unit} {k : Unit → Work (StateM σ) α}
    (hz : Leaves P z fun _ => P) (hk : ∀ v, Leaves P (k v) Q) : Leaves P (if c then z >>= k else k ()) Q :=
  .ite (hz.bind hk) (hk ())

theorem either {c : Prop} [Decidable c] {z : Work (StateM σ) Unit} {v w : α} (φ : α → Prop) (hv : c → φ v)
    (hw : ¬c → φ w) (hz : Leaves P z fun _ => P) (hf : ∀ a, φ a → Leaves P (f a) S) :
    Leaves P (if c then z >>= fun _ => Pure.pure v >>= f else Pure.pure w >>= f) S := by
  split
  · next hc => exact hz.bind fun _ => hf v (hv hc)
  · next hc => exact hf w (hw hc)

end Leaves

/-- The files have what there was at the place of an input. -/
def Intact (pl : disk.Placing Place) (original : σ) (input : Path) (files : σ) : Prop :=
  pl.look files (pl.place input) = pl.look original (pl.place input)

/-- The output of an input has what lowering its source gives. -/
def Emitted (pl : disk.Placing Place) (settings : Settings) (original : σ) (input : Path) (files : σ) : Prop :=
  ∃ spelled source t, Path.same spelled input = true ∧ pl.look original (pl.place input) = some (.file source) ∧
    ((Assembly.start spelled).build source).1 = .ok t ∧
    pl.look files (pl.place (settings.outputPath input)) =
      some (.file ((lowerTree t !settings.resolveDefers).1.emit (some (.file (.bytes source.toArray)))).output)

section Input

variable (hw : pl.Reliable)
include hw

theorem leaves_read {original : σ} (input : Path) :
    Leaves (Intact pl original input) (liftM (disk.read input)) fun r t => ∀ source, r = .ok source →
      pl.look original (pl.place input) = some (.file source) ∧
        ((disk.openSource input).run t).1 = .ok (.bytes source.toArray) := by
  refine .lift fun t ht => ?_
  rw [run_read pl]
  rcases ho : ((disk.openSource input).run t).1 with _ | ⟨bytes | _⟩
  · rintro source ⟨⟩
  · rintro source ⟨⟩
    exact ⟨ht ▸ hw.look_of_openSource ho, by rw [Array.toArray_toList]⟩
  · rintro source ⟨⟩

omit hw in
theorem leaves_buildTree {P : σ → Prop} (path : Path) (source : List UInt8) :
    Leaves P (buildTree path source) fun t files => P files ∧ ((Assembly.start path).build source).1 = .ok t := by
  intro s files t s' files' hP h
  obtain ⟨s₁, hs⟩ := Confined.run_buildTree (σ := σ) path source s
  rw [hs] at h
  cases hb : ((Assembly.start path).build source).1 with
  | error e =>
    rw [hb] at h
    cases h
  | ok tree =>
    rw [hb] at h
    cases h
    exact ⟨hP, rfl⟩

/-- A tree that is written to another place than its source is copied from there. -/
theorem leaves_writeTree (tree : Tree) {output : Path} (text : SourceText)
    (h : pl.place output ≠ pl.place tree.path) :
    Leaves (fun t => ((disk.openSource tree.path).run t).1 = .ok text) (liftM (writeTree disk tree output)) fun r t =>
      ∀ emission, r = .ok emission →
        pl.look t (pl.place output) = some (.file (tree.emit (some (.file text))).output) := by
  refine .lift fun t ht emission hr => ?_
  rw [run_writeTree pl] at hr ⊢
  rcases hc : (disk.create output).run t with ⟨_ | _, made⟩
  · rw [hc] at hr
    cases hr
  · have hok : ((disk.create output).run t).1 = .ok () := by rw [hc]
    obtain ⟨hopen, hsame⟩ := hw.openSource_created ht hok h
    have hfilled := fun bytes => hw.look_filled bytes hok
    rw [hc] at hopen hsame hfilled
    dsimp only at hopen hsame hfilled ⊢
    rw [hopen, hsame, hw.writer_eq, hfilled]
    rfl

theorem leaves_runUnit {original : σ} (h : pl.place (settings.outputPath input) ≠ pl.place input) :
    Leaves (Intact pl original input) (runUnit disk settings .write input) fun _ =>
      Emitted pl settings original input := by
  unfold runUnit
  refine (leaves_read hw input).bind fun r => ?_
  cases r with
  | error e => exact .throw _
  | ok source =>
    refine Leaves.assume (φ := pl.look original (pl.place input) = some (.file source)) (fun t ht => (ht source rfl).1)
      fun hsource => Leaves.mono (P := fun t => ((disk.openSource input).run t).1 = .ok (.bytes source.toArray)) ?_
        fun t ht => (ht source rfl).2
    refine (leaves_buildTree input source).bind fun tree => .assume (fun _ => And.right) fun hbuild =>
      Leaves.mono (.skip (by decide) ?_) fun _ => And.left
    obtain ⟨hpath, hpath'⟩ := path_of_build hbuild
    dsimp only
    refine Leaves.either (fun product => product.tree = (lowerTree tree !settings.resolveDefers).1 ∧
      product.tree.path = input)
        (fun hc => ⟨by simp [lowerTree, hc], hpath'⟩) (fun hc => ⟨by simp [lowerTree, hc], hpath⟩)
      (.modify _) fun product hproduct => .first (.modify _) fun _ => .skip (by decide) ?_
    obtain ⟨htree, rfl⟩ := hproduct
    refine (leaves_writeTree hw _ _ h).bind fun r => ?_
    cases r with
    | error e => exact .throw _
    | ok emission =>
      refine (Leaves.modify _).bind fun _ => .first (.modify _) fun _ => .pure fun t ht => ?_
      exact ⟨_, source, tree, Path.same_refl _, hsource, hbuild, htree ▸ ht emission rfl⟩

theorem emitted_runInput {original : σ} {product : Product}
    (hp : pl.place (settings.outputPath input) ≠ pl.place input) (hi : Intact pl original input files)
    (h : (runInput disk settings .write session files input).1.1 = .ok product) :
    Emitted pl settings original input (runInput disk settings .write session files input).2 :=
  leaves_runUnit hw hp session files product (runInput disk settings .write session files input).1.2 _ hi
    (by rw [← h]; rfl)

end Input

/-! ## All inputs -/

theorem Emitted.of_same {original : σ} {p q : Path} (h : Emitted pl settings original p files)
    (hs : Path.same p q = true) : Emitted pl settings original q files := by
  obtain ⟨spelled, source, t, hspelled, hsource, hbuild, hl⟩ := h
  rw [pl.place_of_same hs] at hsource
  rw [pl.place_of_same (Settings.same_outputPath hs)] at hl
  exact ⟨spelled, source, t, Path.same_trans hspelled hs, hsource, hbuild, hl⟩

/-- No output leads to an input, and the outputs of different inputs do not lead to one place. -/
def Separate (pl : disk.Placing Place) (settings : Settings) : Prop :=
  ∀ p ∈ settings.inputs, ∀ q ∈ settings.inputs, pl.place (settings.outputPath p) ≠ pl.place q ∧
    (Path.same p q = false → pl.place (settings.outputPath p) ≠ pl.place (settings.outputPath q))

instance [DecidableEq Place] (pl : disk.Placing Place) (settings : Settings) : Decidable (Separate pl settings) :=
  inferInstanceAs (Decidable (∀ p ∈ settings.inputs, ∀ q ∈ settings.inputs, _ ∧ (_ → _)))

/-- No source has changed, and the outputs of the inputs that are recorded have what was emitted for them. -/
structure Recorded (pl : disk.Placing Place) (settings : Settings) (original : σ) (results : Results) (files : σ) :
    Prop where
  intact : ∀ p ∈ settings.inputs, Intact pl original p files
  known : ∀ r ∈ results, r.1 ∈ settings.inputs
  emitted : ∀ r ∈ results, ∀ product, r.2 = .ok product → Emitted pl settings original r.1 files

variable {original : σ} {results : Results}

theorem mem_insert {result : Except UnitError Product} {r : Path × Except UnitError Product}
    (h : r ∈ results.insert input result) :
    (r.2 = result ∧ (r.1 = input ∨ ∃ old ∈ results, old.1 = r.1) ∧ Path.same r.1 input = true) ∨
      r ∈ results ∧ Path.same r.1 input = false := by
  unfold Results.insert at h
  split at h
  · obtain ⟨⟨p, old⟩, hmem, rfl⟩ := mem_map.1 h
    cases hs : Path.same p input with
    | true => exact .inl ⟨by simp [hs], .inr ⟨_, hmem, by simp [hs]⟩, by simp [hs]⟩
    | false => exact .inr ⟨by simpa [hs] using hmem, by simp [hs]⟩
  · next hnew =>
    rcases mem_append.1 h with hmem | hmem
    · refine .inr ⟨hmem, ?_⟩
      rw [any_eq_true, not_exists] at hnew
      exact Bool.eq_false_iff.2 fun hs => hnew r ⟨hmem, hs⟩
    · obtain rfl := mem_singleton.1 hmem
      exact .inl ⟨rfl, .inl rfl, Path.same_refl _⟩

theorem exists_mem_insert {result : Except UnitError Product} {p : Path}
    (h : p = input ∨ ∃ r ∈ results, Path.same r.1 p = true) :
    ∃ r ∈ results.insert input result, Path.same r.1 p = true := by
  unfold Results.insert
  split
  · next hany =>
    obtain ⟨r, hr, hs⟩ : ∃ r ∈ results, Path.same r.1 p = true := by
      rcases h with rfl | h
      · simpa using hany
      · exact h
    refine ⟨_, mem_map_of_mem hr, ?_⟩
    dsimp only
    split
    · exact hs
    · exact hs
  · rcases h with rfl | ⟨r, hr, hs⟩
    · exact ⟨_, mem_append_right _ (mem_singleton_self _), Path.same_refl _⟩
    · exact ⟨r, mem_append_left _ hr, hs⟩

theorem Recorded.step (hw : pl.Reliable) (hr : Recorded pl settings original results files) (hs : Separate pl settings)
    (session : Session) (hi : input ∈ settings.inputs) :
    Recorded pl settings original (results.insert input (runInput disk settings .write session files input).1.1)
      (runInput disk settings .write session files input).2 where
  intact p hp := by
    have hkeep : pl.look (runInput disk settings .write session files input).2 (pl.place p) =
        pl.look files (pl.place p) := runInput_keeps fun hplace => absurd hplace.symm (hs input hi p hp).1
    exact hkeep.trans (hr.intact p hp)
  known r hmem := by
    rcases mem_insert hmem with ⟨-, rfl | ⟨old, hold, hkey⟩, -⟩ | ⟨hold, -⟩
    · exact hi
    · exact hkey ▸ hr.known old hold
    · exact hr.known r hold
  emitted r hmem product hp := by
    rcases mem_insert hmem with ⟨hresult, -, hsame⟩ | ⟨hold, hdiff⟩
    · have hrun := emitted_runInput hw (hs input hi input hi).1 (hr.intact input hi) (hresult ▸ hp)
      exact hrun.of_same (Path.same_symm hsame)
    · obtain ⟨spelled, source, t, hspelled, hsource, hbuild, hl⟩ := hr.emitted r hold product hp
      refine ⟨spelled, source, t, hspelled, hsource, hbuild, ?_⟩
      rw [runInput_keeps, hl]
      exact fun hplace => absurd hplace ((hs r.1 (hr.known r hold) input hi).2 hdiff)

theorem recorded_runInputs (hw : pl.Reliable) (hs : Separate pl settings) : ∀ {inputs : List Path} {results : Results}
    (session : Session) {files : σ}, inputs ⊆ settings.inputs → Recorded pl settings original results files →
    let left := ((runInputs disk settings .write inputs results).run session).run files
    Recorded pl settings original left.1.1 left.2 ∧
      ∀ p, (p ∈ inputs ∨ ∃ r ∈ results, Path.same r.1 p = true) → ∃ r ∈ left.1.1, Path.same r.1 p = true
  | [], _, _, _, _, hr => ⟨hr, fun _ h => h.resolve_left not_mem_nil⟩
  | input :: inputs, results, session, files, hsub, hr => by
    obtain ⟨hi, hsub⟩ := cons_subset.1 hsub
    dsimp only
    rw [runInputs_cons]
    obtain ⟨hrec, hkeys⟩ := recorded_runInputs hw hs (runInput disk settings .write session files input).1.2 hsub
      (hr.step hw hs session hi)
    refine ⟨hrec, fun p hp => hkeys p ?_⟩
    rcases hp with hp | hp
    · rcases mem_cons.1 hp with rfl | hp
      · exact .inr (exists_mem_insert (.inl rfl))
      · exact .inl hp
    · exact .inr (exists_mem_insert (.inr hp))

/-- **Sources and outputs survive.** The outputs of two files have the same path exactly if the stems of the files are
shown as the same text and, unless an output directory is given, the files have the same parent; the output of a file
has the path of an input exactly if the input has the components of the directory for the output and then those of the
stem, as it is shown, with the suffix. On a disk where writes succeed, unless an output leads to an input or the outputs
of different inputs lead to one place, a run leaves every source as it is, and in the output of every input that ends
well it leaves what lowering its source gives. -/
theorem survive_of_separate (settings : Settings) :
    (∀ (p q : Path) (a b : Path.Name), Path.stem? p = some a → Path.stem? q = some b → settings.StemStays a →
      settings.StemStays b → (Path.same (settings.outputPath p) (settings.outputPath q) = true ↔
        Utf8.lossy a = Utf8.lossy b ∧ (settings.outDir?.isSome ∨ Path.same (Path.parent p) (Path.parent q) = true))) ∧
    (∀ (p q : Path) (a : Path.Name), Path.stem? p = some a → settings.StemStays a →
      (Path.same (settings.outputPath p) q = true ↔
        Path.components q = Path.components (settings.folder p) ++ Path.names (settings.outputName a))) ∧
    ∀ {σ Place : Type} {disk : Disk (StateM σ)} (pl : disk.Placing Place), pl.Reliable → Separate pl settings →
      ∀ (session : Session) (files : σ),
      let left := ((runPhase disk settings .write).run session).run files
      (∀ p ∈ settings.inputs, pl.look left.2 (pl.place p) = pl.look files (pl.place p)) ∧
      ∀ p ∈ settings.inputs, ∃ r ∈ left.1.1, Path.same r.1 p = true ∧
        ∀ product, r.2 = .ok product → ∃ spelled source t, Path.same spelled p = true ∧
          pl.look files (pl.place p) = some (.file source) ∧ ((Assembly.start spelled).build source).1 = .ok t ∧
          pl.look left.2 (pl.place (settings.outputPath p)) =
            some
              (.file ((lowerTree t !settings.resolveDefers).1.emit (some (.file (.bytes source.toArray)))).output) := by
  refine ⟨fun p q a b hp hq ha hb => Settings.same_outputPath_iff hp hq ha hb, fun p q a hp ha => ?_, ?_⟩
  · rw [Path.same_iff, Settings.components_outputPath hp ha, eq_comm]
  · intro σ Place disk pl hw hs session files
    have hstart : Recorded pl settings files [] files := ⟨fun _ _ => rfl, nofun, nofun⟩
    obtain ⟨hrec, hkeys⟩ := recorded_runInputs hw hs session (List.Subset.refl settings.inputs) hstart
    refine ⟨hrec.intact, fun p hp => ?_⟩
    obtain ⟨r, hr, hsame⟩ := hkeys p (.inl hp)
    exact ⟨r, hr, hsame, fun product hproduct => (hrec.emitted r hr product hproduct).of_same hsame⟩

/-- Two stems that are no text and are shown alike. -/
def unreadableStems : Path.Name × Path.Name := ([0x61, 0xFF], [0x61, 0xFE])

set_option maxRecDepth 100000 in
theorem survive_mixed :
    (let p := unreadableStems.1 ++ Utf8.encode ".c"
     let q := unreadableStems.2 ++ Utf8.encode ".h"
     Path.same p q = false ∧ Path.same (mixed.outputPath p) (mixed.outputPath q) = true) ∧
    Path.same (mixed.outputPath (Utf8.encode "x/a.c")) (mixed.outputPath (Utf8.encode "./x/a.h")) = false ∧
    Path.same (mixed.outputPath (Utf8.encode "x/a.c")) (Utf8.encode "x/a.out.c") = true ∧
    Separate FileTree.placing mixed ∧
    let left := ((runPhase FileTree.disk mixed .write).run {}).run mixedFiles
    left.1.1.errors.map Prod.fst = ["b.c", "sub/c.c"].map Utf8.encode ∧
      (∀ p ∈ mixed.inputs, left.2.lookup? (FileTree.place p) = mixedFiles.lookup? (FileTree.place p)) ∧
      ∃ r ∈ left.1.1, Path.same r.1 (Utf8.encode "a.c") = true := by
  obtain ⟨hsame, hinput, hrun⟩ := survive_of_separate mixed
  have hseparate : Separate FileTree.placing mixed := by decide +kernel
  obtain ⟨hsources, houtputs⟩ := hrun FileTree.placing FileTree.reliable_placing hseparate {} mixedFiles
  refine ⟨⟨by decide +kernel, ?_⟩, ?_, ?_, hseparate, by decide +kernel, hsources, ?_⟩
  · exact (hsame _ _ unreadableStems.1 unreadableStems.2 (by decide +kernel) (by decide +kernel) (by decide +kernel)
      (by decide +kernel)).2 (by decide +kernel)
  · refine Bool.eq_false_iff.2
      (mt (hsame _ _ (Utf8.encode "a") (Utf8.encode "a") (by decide +kernel) (by decide +kernel)
      (by decide +kernel) (by decide +kernel)).1 (by decide +kernel))
  · exact (hinput _ _ (Utf8.encode "a") (by decide +kernel) (by decide +kernel)).2 (by decide +kernel)
  · obtain ⟨r, hr, hs, -⟩ := houtputs (Utf8.encode "a.c") (by decide +kernel)
    exact ⟨r, hr, hs⟩

/-- An input whose extension is the suffix of outputs. -/
def ownOutput : Settings := { inputs := [Utf8.encode "a.c"], suffix := ".c" }

/-- Two inputs that differ in their extensions. -/
def sharedOutput : Settings := { inputs := ["a.c", "a.h"].map Utf8.encode }

def sharedFiles : FileTree :=
  (({} : FileTree).put (Utf8.encode "a.c") (.file (Utf8.encode "void f()\x7b \x7d"))).put (Utf8.encode "a.h")
    (.file (Utf8.encode "int g();"))

set_option maxRecDepth 100000 in
/-- An input can be its own output, and is lost then; and of two inputs with one output, that of the first is lost. -/
theorem not_survive_ownOutput :
    let a := Utf8.encode "a.c"
    let b := Utf8.encode "a.h"
    (Path.same (ownOutput.outputPath a) a = true ∧
      (((runPhase FileTree.disk ownOutput .write).run {}).run sharedFiles).2.lookup? (FileTree.place a) =
        some (.file [])) ∧
    Path.same a b = false ∧ Path.same (sharedOutput.outputPath a) (sharedOutput.outputPath b) = true ∧
      (((runPhase FileTree.disk sharedOutput .write).run {}).run sharedFiles).2.lookup?
        (FileTree.place (sharedOutput.outputPath a)) = some (.file (Utf8.encode "int g();")) := by
  decide +kernel

end Batch

end Deferral
