import Deferral.Files.FileTree

/-!
# Disks with places

What is to be known of a disk so that files are told apart by their places. A path leads to one place, all its spellings
to the same, and two paths to one place if they lead to one file, whatever their text is. What comes of an operation
depends on what is at the places on the way along its path, and nothing changes but at the end of that way
(`Disk.Placing`). Whether sources are read as they are and writes succeed is a matter of its own
(`Disk.Placing.Reliable`).
-/

namespace Deferral

variable {σ Place : Type}

/-- Every file of a disk has one place, and each operation is a matter of what is on its way. -/
structure Disk.Placing (disk : Disk (StateM σ)) (Place : Type) where
  /-- What is at a place. -/
  look : σ → Place → Option FileTree.Entry
  /-- Where a path leads. -/
  place : Path → Place
  /-- The places on the way along a path, its own included. -/
  stops : Path → List Place
  place_mem_stops (path : Path) : place path ∈ stops path
  place_of_same {path other : Path} : Path.same path other = true → place path = place other
  -- looking changes nothing
  run_openSource (path : Path) (s : σ) : ((disk.openSource path).run s).2 = s
  run_same (path other : Path) (s : σ) : ((disk.same path other).run s).2 = s
  run_writer (path : Path) (s : σ) : ((disk.writer path).run s).2 = s
  -- what comes of an operation depends on what is on the way
  openSource_congr {path : Path} {s t : σ} (h : ∀ l ∈ stops path, look s l = look t l) :
    ((disk.openSource path).run s).1 = ((disk.openSource path).run t).1
  same_congr {path other : Path} {s t : σ} (h : ∀ l ∈ stops path, look s l = look t l)
    (h' : ∀ l ∈ stops other, look s l = look t l) :
    ((disk.same path other).run s).1 = ((disk.same path other).run t).1
  writer_congr {path : Path} {s t : σ} (h : ∀ l ∈ stops path, look s l = look t l) :
    ((disk.writer path).run s).1 = ((disk.writer path).run t).1
  create_congr {path : Path} {s t : σ} {ls : List Place} (hs : stops path ⊆ ls) (h : ∀ l ∈ ls, look s l = look t l) :
    ((disk.create path).run s).1 = ((disk.create path).run t).1 ∧
      ∀ l ∈ ls, look ((disk.create path).run s).2 l = look ((disk.create path).run t).2 l
  fill_congr {path : Path} {s t : σ} {ls : List Place} (hs : stops path ⊆ ls) (h : ∀ l ∈ ls, look s l = look t l)
    (bytes : List UInt8) : ((disk.fill path bytes).run s).1 = ((disk.fill path bytes).run t).1 ∧
      ∀ l ∈ ls, look ((disk.fill path bytes).run s).2 l = look ((disk.fill path bytes).run t).2 l
  -- nothing changes but at the end of the way, and a directory not even there
  look_create {path : Path} {s : σ} {l : Place} : l ≠ place path → look ((disk.create path).run s).2 l = look s l
  look_fill {path : Path} {s : σ} {l : Place} (bytes : List UInt8) : l ≠ place path →
    look ((disk.fill path bytes).run s).2 l = look s l
  create_directory {path : Path} {s : σ} : look s (place path) = some .directory →
    ∃ e, (disk.create path).run s = (.error e, s)

namespace Disk.Placing

variable {disk : Disk (StateM σ)} (pl : disk.Placing Place)

/-- Two states of a disk have the same at some places. -/
def AgreeOn (ls : List Place) (s t : σ) : Prop := ∀ l ∈ ls, pl.look s l = pl.look t l

/-- Sources are read as they are, and every write succeeds. -/
structure Reliable : Prop where
  look_of_openSource {path : Path} {s : σ} {bytes : Array UInt8} :
    ((disk.openSource path).run s).1 = .ok (.bytes bytes) → pl.look s (pl.place path) = some (.file bytes.toList)
  directory_of_openSource {path : Path} {s : σ} {text : SourceText} : ((disk.openSource path).run s).1 = .ok text →
    ∀ l ∈ pl.stops path, l ≠ pl.place path → pl.look s l = some .directory
  place_of_run_same {path other : Path} {s : σ} :
    ((disk.same path other).run s).1 = true → pl.place path = pl.place other
  writer_eq (path : Path) (s : σ) : ((disk.writer path).run s).1 = .acceptAll
  look_filled {path : Path} {s : σ} (bytes : List UInt8) : ((disk.create path).run s).1 = .ok () →
    pl.look ((disk.fill path bytes).run ((disk.create path).run s).2).2 (pl.place path) = some (.file bytes)

variable {pl} {ls ms : List Place} {s t : σ} {path output : Path}

theorem AgreeOn.mono (h : pl.AgreeOn ls s t) (hs : ms ⊆ ls) : pl.AgreeOn ms s t := fun l hl => h l (hs hl)

/-- A source that can be opened can still be when a file was made elsewhere, and it is not that file. -/
theorem Reliable.openSource_created (h : pl.Reliable) {text : SourceText}
    (ho : ((disk.openSource path).run s).1 = .ok text) (hc : ((disk.create output).run s).1 = .ok ())
    (hne : pl.place output ≠ pl.place path) :
    ((disk.openSource path).run ((disk.create output).run s).2).1 = .ok text ∧
      ((disk.same path output).run ((disk.create output).run s).2).1 = false := by
  refine ⟨?_, Bool.eq_false_iff.2 fun hsame => hne (h.place_of_run_same hsame).symm⟩
  rw [← ho]
  refine pl.openSource_congr fun l hl => pl.look_create ?_
  rintro rfl
  -- a file cannot be made where there is a directory on the way
  obtain ⟨e, he⟩ := pl.create_directory (h.directory_of_openSource ho _ hl hne)
  rw [he] at hc
  cases hc

end Disk.Placing

end Deferral
