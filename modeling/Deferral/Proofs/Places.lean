import Deferral.Proofs.Components
import Deferral.Proofs.Placing

/-!
# Places in a file tree

A path leads through places that its text gives (`stops`), whatever is there. Everything that can be done with a path
depends on what is at these places only (`AgreeOn`), and changes at most what is at the last of them (`place`); a file
that has been created is found again under its path (`locate_insert`). So a file tree is a disk with places (`placing`).
-/

namespace Deferral.FileTree

open List

/-- Where one part of a path leads. -/
def step (l : Location) (part : Path.Name) : Location := if Path.isVoid part then l else child l part

/-- The locations on the way along the parts of a path, the first and the last included. -/
def way (l : Location) : List Path.Name → List Location
  | [] => [l]
  | part :: rest => l :: way (step l part) rest

/-- The locations on the way along a path, its end included. -/
def stops (path : Path) : List Location := way (start path).1 (start path).2

/-- The end of the way along a path. -/
def place (path : Path) : Location := (start path).2.foldl step (start path).1

/-- Two file trees have the same at some locations. -/
def AgreeOn (ls : List Location) (t u : FileTree) : Prop := ∀ l ∈ ls, t.lookup? l = u.lookup? l

variable {t u : FileTree} {l k : Location} {path other : Path} {ls : List Location} {e : Entry}

theorem AgreeOn.mono {ms : List Location} (h : AgreeOn ls t u) (hs : ms ⊆ ls) : AgreeOn ms t u :=
  fun l hl => h l (hs hl)

theorem foldl_mem_way : ∀ (parts : List Path.Name) (l : Location), parts.foldl step l ∈ way l parts
  | [], _ => mem_singleton_self _
  | part :: rest, l => mem_cons_of_mem _ (foldl_mem_way rest (step l part))

theorem way_subset_append (qs : List Path.Name) : ∀ (ps : List Path.Name) (l : Location), way l ps ⊆ way l (ps ++ qs)
  | [], l => by cases qs <;> simp [way]
  | p :: ps, l => cons_subset_cons l (way_subset_append qs ps (step l p))

theorem place_mem_stops (path : Path) : place path ∈ stops path := foldl_mem_way _ _

/-! ## Components -/

/-- Where one component of a path leads. -/
def enter (l : Location) (component : Path.Name) : Location :=
  if component = [Path.slash] then root else step l component

theorem foldl_step_names : ∀ (ps : List Path.Name) (l : Location),
    (ps.filter (!Path.isVoid ·)).foldl step l = ps.foldl step l
  | [], _ => rfl
  | p :: ps, l => by
    cases hp : Path.isVoid p with
    | true => simp [hp, step, foldl_step_names ps]
    | false => simp [hp, foldl_step_names ps]

theorem foldl_enter_names (path : Path) (l : Location) :
    (Path.names path).foldl enter l = (Path.parts path).foldl step l := by
  rw [← foldl_step_names (Path.parts path)]
  exact foldl_ext enter step l fun k name hname => if_neg (Path.ne_slash_of_mem_names hname)

theorem place_eq (path : Path) : place path = (Path.components path).foldl enter [] := by
  rw [Path.components_eq, foldl_append, foldl_enter_names, place, start, Path.anchor?]
  cases ha : Path.isAbsolute path with
  | true =>
    obtain ⟨r, rfl⟩ := Path.eq_slash_of_isAbsolute ha
    simp [Path.parts_root, enter, step, Path.isVoid_nil]
  | false =>
    by_cases hdot : (Path.parts path).head? = some [Path.dot]
    · simp [hdot, enter, step, Path.isVoid_dot, show Path.dot ≠ Path.slash by decide]
    · simp [hdot]

theorem place_of_same (h : Path.same path other = true) : place path = place other := by
  rw [place_eq, place_eq, Path.same_iff.1 h]

/-! ## Following a path -/

theorem follow_congr : ∀ {parts : List Path.Name} {l : Location}, AgreeOn (way l parts) t u →
    t.follow l parts = u.follow l parts
  | [], _, _ => rfl
  | part :: rest, l, h => by
    have hl := h l mem_cons_self
    have hrest : t.follow (step l part) rest = u.follow (step l part) rest :=
      follow_congr fun k hk => h k (mem_cons_of_mem _ hk)
    unfold step at hrest
    simp only [follow, hl, hrest]

theorem follow_eq : ∀ {parts : List Path.Name} {l : Location}, t.follow l parts = .ok k → k = parts.foldl step l
  | [], _, h => (Except.ok.inj h).symm
  | part :: rest, l, h => by
    rw [follow] at h
    split at h
    · cases h
    · cases h
    · split at h
      · cases h
      · have hk : k = rest.foldl step (step l part) := follow_eq h
        exact hk

theorem directory_of_follow : ∀ {parts : List Path.Name} {l : Location}, t.follow l parts = .ok k →
    ∀ m ∈ way l parts, m ≠ k → t.lookup? m = some .directory
  | [], l, h, m, hm, hne => absurd ((mem_singleton.1 hm).trans (Except.ok.inj h)) hne
  | part :: rest, l, h, m, hm, hne => by
    rw [follow] at h
    split at h
    · cases h
    · cases h
    · next hl =>
      split at h
      · cases h
      · rcases mem_cons.1 hm with rfl | hm
        · exact hl
        · exact directory_of_follow h m hm hne

theorem locate_congr (h : AgreeOn (stops path) t u) : t.locate path = u.locate path := by
  unfold locate
  cases checkPath path with
  | error e => rfl
  | ok _ => exact follow_congr h

theorem locate_eq (h : t.locate path = .ok l) : l = place path := by
  unfold locate at h
  cases hc : checkPath path with
  | error e =>
    rw [hc] at h
    cases h
  | ok _ =>
    rw [hc] at h
    exact follow_eq h

theorem openSource_congr (h : AgreeOn (stops path) t u) : t.openSource path = u.openSource path := by
  unfold openSource
  rw [locate_congr h]
  cases hl : u.locate path with
  | error e => rfl
  | ok l =>
    have hat : t.lookup? l = u.lookup? l := locate_eq hl ▸ h _ (place_mem_stops path)
    simp only [bind, Except.bind, hat]

theorem same_congr (h : AgreeOn (stops path) t u) (h' : AgreeOn (stops other) t u) :
    t.same path other = u.same path other := by
  simp only [same, locate_congr h, locate_congr h']

/-! ## Creating a file -/

/-- The directory for a new file is found by following a part of the path, the same part in every file tree. If the path
has a name for the file, the name is the rest of the path. -/
theorem exists_locateParent (path : Path) :
    (∃ e, ∀ t : FileTree, t.locateParent path = .error e) ∨ ∃ front name?, checkPath path = .ok () ∧
      front <+: (start path).2 ∧ (∀ name ∈ name?, (start path).2 = front ++ [name] ∧ Path.isVoid name = false) ∧
      ∀ t : FileTree, t.locateParent path = (t.follow (start path).1 front).map fun l => (l, name?) := by
  unfold locateParent
  obtain ⟨l, parts⟩ := start path
  cases checkPath path with
  | error e => exact .inl ⟨e, fun _ => rfl⟩
  | ok _ =>
    right
    have hpre : parts.rdropWhile (·.isEmpty) <+: parts := rdropWhile_prefix _ parts
    cases hlast : (parts.rdropWhile (·.isEmpty)).getLast? with
    | none =>
      refine ⟨[], none, rfl, nil_prefix, nofun, fun t => ?_⟩
      unfold List.rdropWhile at hlast
      simp only [hlast]
      rfl
    | some last =>
      have hconcat := dropLast_append_getLast? last hlast
      have hfull : last.isEmpty = false := by
        obtain ⟨hne, rfl⟩ := mem_getLast?_eq_getLast hlast
        exact Bool.eq_false_iff.2 (rdropWhile_last_not _ parts hne)
      unfold List.rdropWhile at hlast
      by_cases hdots : (last == [Path.dot] || last == upward) = true
      · refine ⟨parts, none, rfl, prefix_refl parts, nofun, fun t => ?_⟩
        simp only [hlast, hdots, if_true]
        rfl
      · refine ⟨(parts.rdropWhile (·.isEmpty)).dropLast,
          if (parts.rdropWhile (·.isEmpty)).length = parts.length then some last else none,
          rfl, (List.dropLast_prefix _).trans hpre, ?_, fun t => ?_⟩
        · intro name hname
          by_cases hlen : (parts.rdropWhile (·.isEmpty)).length = parts.length
          · rw [if_pos hlen, Option.mem_some_iff] at hname
            subst hname
            refine ⟨?_, ?_⟩
            · rw [hconcat, hpre.eq_of_length hlen]
            · simp only [Path.isVoid, hfull, Bool.false_or]
              grind
          · rw [if_neg hlen] at hname
            cases hname
        · simp only [hlast, hdots]
          rfl

theorem locateParent_congr (h : AgreeOn (stops path) t u) : t.locateParent path = u.locateParent path := by
  rcases exists_locateParent path with ⟨e, he⟩ | ⟨front, name?, -, ⟨back, hfront⟩, -, hlocate⟩
  · rw [he, he]
  · rw [hlocate, hlocate, follow_congr]
    refine h.mono ?_
    rw [stops, ← hfront]
    exact way_subset_append back front _

theorem locateParent_ok {name? : Option Path.Name} (h : t.locateParent path = .ok (l, name?)) :
    ∃ front, checkPath path = .ok () ∧ front <+: (start path).2 ∧ t.follow (start path).1 front = .ok l ∧
      ∀ name ∈ name?, (start path).2 = front ++ [name] ∧ Path.isVoid name = false := by
  rcases exists_locateParent path with ⟨e, he⟩ | ⟨front, name?, hcheck, hfront, hname, hlocate⟩
  · rw [he] at h
    cases h
  · rw [hlocate] at h
    cases hf : t.follow (start path).1 front with
    | error e =>
      rw [hf] at h
      cases h
    | ok k =>
      rw [hf] at h
      cases h
      exact ⟨front, hcheck, hfront, hf, hname⟩

/-- The directory for a new file is on the way along the path, and a name in it is at the end of the way. -/
theorem mem_stops_of_locateParent {name? : Option Path.Name} (h : t.locateParent path = .ok (l, name?)) :
    l ∈ stops path ∧ ∀ name ∈ name?, child l name = place path := by
  obtain ⟨front, -, ⟨back, hfront⟩, hf, hname⟩ := locateParent_ok h
  rw [follow_eq hf]
  refine ⟨?_, fun name hn => ?_⟩
  · rw [stops, ← hfront]
    exact way_subset_append back front _ (foldl_mem_way front _)
  · obtain ⟨hparts, hvoid⟩ := hname name hn
    rw [place, hparts, foldl_append]
    simp [step, hvoid]

/-- A file may be created in a directory, under a name that is no directory. -/
theorem exists_of_creatable (h : t.creatable path = .ok l) :
    ∃ dir name, t.locateParent path = .ok (dir, some name) ∧ t.lookup? dir = some .directory ∧
      name.length ≤ longestName ∧ l = child dir name ∧ t.lookup? l ≠ some .directory := by
  unfold creatable at h
  cases hp : t.locateParent path with
  | error e =>
    rw [hp] at h
    cases h
  | ok r =>
    obtain ⟨dir, name?⟩ := r
    rw [hp] at h
    dsimp only [bind, Except.bind] at h
    split at h
    · cases h
    · cases h
    · cases h
    · next name hdir =>
      split at h
      · cases h
      · next hlen =>
        split at h
        · cases h
        · next hne =>
          cases h
          exact ⟨dir, name, rfl, hdir, Nat.not_lt.1 hlen, rfl, hne⟩

theorem creatable_ok (h : t.creatable path = .ok l) : l = place path ∧ t.lookup? l ≠ some .directory := by
  obtain ⟨dir, name, hparent, -, -, rfl, hne⟩ := exists_of_creatable h
  exact ⟨(mem_stops_of_locateParent hparent).2 name rfl, hne⟩

theorem creatable_congr (h : AgreeOn (stops path) t u) : t.creatable path = u.creatable path := by
  unfold creatable
  rw [locateParent_congr h]
  cases hp : u.locateParent path with
  | error e => rfl
  | ok r =>
    obtain ⟨k, name?⟩ := r
    obtain ⟨hk, hname⟩ := mem_stops_of_locateParent hp
    dsimp only [bind, Except.bind]
    rw [h k hk]
    rcases u.lookup? k with _ | ⟨_ | _⟩
    · rfl
    · rfl
    · cases name? with
      | none => rfl
      | some name => simp only [h (child k name) (hname name rfl ▸ place_mem_stops path)]

/-! ## Changes -/

theorem lookup_filter_ne (h : k ≠ l) : ∀ entries : List (Location × Entry),
    (entries.filter fun (k, _) => k != l).lookup k = entries.lookup k
  | [] => rfl
  | (m, e) :: entries => by
    by_cases hm : m = l
    · simp [hm, lookup_cons, beq_eq_false_iff_ne.2 h, lookup_filter_ne h entries]
    · simp [hm, lookup_cons, lookup_filter_ne h entries]

theorem lookup?_insert_of_ne (h : k ≠ l) : (t.insert l e).lookup? k = t.lookup? k := by
  simp only [lookup?, insert, lookup_cons, beq_eq_false_iff_ne.2 h, lookup_filter_ne h]

theorem AgreeOn.insert (h : AgreeOn ls t u) (l : Location) (e : Entry) : AgreeOn ls (t.insert l e) (u.insert l e) := by
  intro k hk
  by_cases hkl : k = l
  · subst hkl
    simp [lookup?, FileTree.insert]
  · rw [lookup?_insert_of_ne hkl, lookup?_insert_of_ne hkl, h k hk]

theorem lookup?_fill_of_ne {bytes : List UInt8} (h : l ≠ place path) :
    (t.fill path bytes).lookup? l = t.lookup? l := by
  unfold fill
  cases hl : t.locate path with
  | error e => rfl
  | ok k => exact lookup?_insert_of_ne (locate_eq hl ▸ h)

theorem AgreeOn.fill (h : AgreeOn ls t u) (hs : stops path ⊆ ls) (bytes : List UInt8) :
    AgreeOn ls (t.fill path bytes) (u.fill path bytes) := by
  unfold FileTree.fill
  rw [locate_congr (h.mono hs)]
  cases u.locate path with
  | error e => exact h
  | ok l => exact h.insert l (.file bytes)

/-! ## Created files -/

theorem follow_append (t : FileTree) (qs : List Path.Name) : ∀ (ps : List Path.Name) (l : Location),
    t.follow l (ps ++ qs) = (t.follow l ps).bind fun k => t.follow k qs
  | [], _ => rfl
  | p :: ps, l => by
    rw [cons_append, follow, follow]
    rcases t.lookup? l with _ | ⟨_ | _⟩
    · rfl
    · rfl
    · dsimp only
      split
      · rfl
      · exact follow_append t qs ps _

/-- A path that leads somewhere does so wherever the same directories are. -/
theorem follow_mono (h : ∀ k, t.lookup? k = some .directory → u.lookup? k = some .directory) :
    ∀ {ps : List Path.Name} {l : Location}, t.follow l ps = .ok k → u.follow l ps = .ok k
  | [], _, hf => hf
  | p :: ps, l, hf => by
    rw [follow] at hf ⊢
    rcases hl : t.lookup? l with _ | ⟨_ | _⟩
    · rw [hl] at hf
      cases hf
    · rw [hl] at hf
      cases hf
    · rw [hl] at hf
      rw [h l hl]
      dsimp only at hf ⊢
      split at hf
      · cases hf
      · next hlen =>
        rw [if_neg hlen]
        exact follow_mono h hf

theorem lookup?_insert_self (h : isOuter l = false) : (t.insert l e).lookup? l = some e := by
  simp [lookup?, FileTree.insert, h]

theorem isOuter_of_lookup? (h : t.lookup? l ≠ some .directory) : isOuter l = false := by
  by_contra hc
  exact h (by simp [lookup?, hc])

theorem locate_insert (h : t.creatable path = .ok l) (e : Entry) : (t.insert l e).locate path = .ok l := by
  obtain ⟨dir, name, hparent, hd, hlen, rfl, hdir⟩ := exists_of_creatable h
  obtain ⟨front, hcheck, -, hfollow, hname⟩ := locateParent_ok hparent
  obtain ⟨hparts, hvoid⟩ := hname name rfl
  have hmono : ∀ k, t.lookup? k = some .directory → (t.insert (child dir name) e).lookup? k = some .directory := by
    intro k hk
    rw [lookup?_insert_of_ne, hk]
    rintro rfl
    exact hdir hk
  have hstart : start path = ((start path).1, front ++ [name]) := by rw [← hparts]
  rw [locate, hcheck, hstart]
  change follow _ _ (front ++ [name]) = _
  rw [follow_append, follow_mono hmono hfollow]
  simp [Except.bind, follow, hmono dir hd, Nat.not_lt.2 hlen, hvoid]

theorem locate_of_openSource {text : SourceText} (h : t.openSource path = .ok text) :
    t.locate path = .ok (place path) := by
  unfold openSource at h
  cases hl : t.locate path with
  | error e =>
    rw [hl] at h
    cases h
  | ok k => rw [locate_eq hl]

theorem lookup?_of_openSource {bytes : Array UInt8} (h : t.openSource path = .ok (.bytes bytes)) :
    t.lookup? (place path) = some (.file bytes.toList) := by
  have hl := locate_of_openSource h
  unfold openSource at h
  rw [hl] at h
  dsimp only [bind, Except.bind] at h
  split at h
  · cases h
  · next hat =>
    cases h
    rw [hat]
  · cases h

theorem directory_of_locate (h : t.locate path = .ok l) : ∀ m ∈ stops path, m ≠ l → t.lookup? m = some .directory := by
  unfold locate at h
  cases hc : checkPath path with
  | error e =>
    rw [hc] at h
    cases h
  | ok _ =>
    rw [hc] at h
    exact directory_of_follow h

theorem run_create (path : Path) (t : FileTree) : (disk.create path).run t = match t.creatable path with
    | .error e => (.error e, t)
    | .ok l => (.ok (), t.insert l (.file [])) := by
  change t.create path = _
  unfold create
  cases t.creatable path <;> rfl

/-- A file tree is a disk with places. -/
def placing : disk.Placing Location where
  look := lookup?
  place := place
  stops := stops
  place_mem_stops := place_mem_stops
  place_of_same := place_of_same
  run_openSource _ _ := rfl
  run_same _ _ _ := rfl
  run_writer _ _ := rfl
  openSource_congr := openSource_congr
  same_congr := same_congr
  writer_congr _ := rfl
  create_congr {path s t ls} hs h := by
    have hls : AgreeOn ls s t := h
    rw [run_create, run_create, creatable_congr (hls.mono hs)]
    cases t.creatable path with
    | error e => exact ⟨rfl, h⟩
    | ok l => exact ⟨rfl, hls.insert l (.file [])⟩
  fill_congr {path s t ls} hs h bytes := ⟨rfl, AgreeOn.fill h hs bytes⟩
  look_create {path s l} hl := by
    rw [run_create]
    cases hc : s.creatable path with
    | error e => rfl
    | ok k =>
      obtain ⟨rfl, -⟩ := creatable_ok hc
      exact lookup?_insert_of_ne hl
  look_fill bytes := lookup?_fill_of_ne
  create_directory {path s} hd := by
    rw [run_create]
    cases hc : s.creatable path with
    | error e => exact ⟨e, rfl⟩
    | ok k =>
      obtain ⟨rfl, hk⟩ := creatable_ok hc
      exact absurd hd hk

theorem reliable_placing : placing.Reliable where
  look_of_openSource := lookup?_of_openSource
  directory_of_openSource h := directory_of_locate (locate_of_openSource h)
  place_of_run_same {path other s} h := by
    change s.same path other = true at h
    unfold same at h
    cases hl : s.locate path with
    | error e => simp [hl] at h
    | ok l =>
      cases hk : s.locate other with
      | error e => simp [hl, hk] at h
      | ok k =>
        simp only [hl, hk, beq_iff_eq] at h
        exact (locate_eq hl).symm.trans (h.trans (locate_eq hk))
  writer_eq _ _ := rfl
  look_filled {path s} bytes h := by
    rw [run_create] at h ⊢
    cases hc : s.creatable path with
    | error e =>
      rw [hc] at h
      cases h
    | ok l =>
      obtain ⟨rfl, hdir⟩ := creatable_ok hc
      change ((s.insert (place path) (.file [])).fill path bytes).lookup? (place path) = _
      rw [fill, locate_insert hc]
      exact lookup?_insert_self (isOuter_of_lookup? hdir)

end Deferral.FileTree
