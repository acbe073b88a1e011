import Deferral.Files.Basic

/-!
# A file tree as a value

Files and directories by location, seen from a working directory. It serves as a `Disk` without effects.
-/

namespace Deferral

/-- Where a path leads from the working directory: names, after `..` for each step above it. A location that begins with
`/` is counted from the root. -/
abbrev Location := List Path.Name

inductive FileTree.Entry where
  | file (bytes : List UInt8)
  | directory
  deriving DecidableEq, Repr

structure FileTree where
  entries : List (Location × FileTree.Entry) := []

namespace FileTree

/-- The name of the directory above. -/
def upward : Path.Name := [Path.dot, Path.dot]

/-- The root of all directories. -/
def root : Location := [[Path.slash]]

/-- Whether a location is outside all that is recorded: the working directory, one above it, or the root. -/
def isOuter (l : Location) : Bool := l.all (· == upward) || l == root

def lookup? (t : FileTree) (l : Location) : Option Entry :=
  if isOuter l then some .directory else t.entries.lookup l

def insert (t : FileTree) (l : Location) (e : Entry) : FileTree :=
  ⟨(l, e) :: t.entries.filter fun (k, _) => k != l⟩

def erase (t : FileTree) (l : Location) : FileTree := ⟨t.entries.filter fun (k, _) => k != l⟩

/-- One step from a directory. -/
def child (l : Location) (part : Path.Name) : Location :=
  if part == upward then
    if l == root then l else if l.all (· == upward) then l ++ [upward] else l.dropLast
  else l ++ [part]

/-- The greatest size of a name in bytes. -/
def longestName : Nat := 255

/-- The greatest size of a path in bytes. -/
def longestPath : Nat := 4095

/-- Refuses what is no path at all. -/
def checkPath (path : Path) : Except FileError Unit :=
  if path.contains 0 then .error .nulInPath
  else if path.isEmpty then .error .notFound
  else if longestPath < path.length then .error .nameTooLong
  else .ok ()

/-- Follows the parts of a path from a location. Everything but the last has to be a directory. -/
def follow (t : FileTree) : Location → List Path.Name → Except FileError Location
  | l, [] => .ok l
  | l, part :: rest =>
    match t.lookup? l with
    | none => .error .notFound
    | some (.file _) => .error .notDirectory
    | some .directory =>
      if longestName < part.length then .error .nameTooLong
      else t.follow (if Path.isVoid part then l else child l part) rest

/-- Where a path starts, and its parts. -/
def start (path : Path) : Location × List Path.Name :=
  if Path.isAbsolute path then (root, (Path.parts path).tail) else ([], Path.parts path)

/-- Where a path leads. -/
def locate (t : FileTree) (path : Path) : Except FileError Location := do
  checkPath path
  let (l, parts) := start path
  t.follow l parts

def openSource (t : FileTree) (path : Path) : Except FileError SourceText := do
  let l ← t.locate path
  match t.lookup? l with
  | none => .error .notFound
  | some (.file bytes) => .ok (.bytes bytes.toArray)
  | some .directory => .ok (.unreadable .isDirectory)

/-- The directory that a path leads to and the name in it. A path that ends with a slash or with dots has no name. -/
def locateParent (t : FileTree) (path : Path) : Except FileError (Location × Option Path.Name) := do
  checkPath path
  let (l, parts) := start path
  let body := (parts.reverse.dropWhile (·.isEmpty)).reverse
  match body.getLast? with
  | none => return (l, none)
  | some last =>
    if last == [Path.dot] || last == upward then return (← t.follow l parts, none)
    else return (← t.follow l body.dropLast, if body.length = parts.length then some last else none)

/-- Where a file may be created: in a directory that exists, under a name that is not a directory. -/
def creatable (t : FileTree) (path : Path) : Except FileError Location := do
  let (l, name?) ← t.locateParent path
  match t.lookup? l, name? with
  | none, _ => .error .notFound
  | some (.file _), _ => .error .notDirectory
  | some .directory, none => .error .isDirectory
  | some .directory, some name =>
    if longestName < name.length then .error .nameTooLong
    else match t.lookup? (child l name) with
    | some .directory => .error .isDirectory
    | _ => .ok (child l name)

/-- Whether two paths lead to one place. -/
def same (t : FileTree) (path other : Path) : Bool :=
  match t.locate path, t.locate other with
  | .ok l, .ok k => l == k
  | _, _ => false

def create (t : FileTree) (path : Path) : Except FileError Unit × FileTree :=
  match t.creatable path with
  | .error e => (.error e, t)
  | .ok l => (.ok (), t.insert l (.file []))

def fill (t : FileTree) (path : Path) (bytes : List UInt8) : FileTree :=
  match t.locate path with
  | .ok l => t.insert l (.file bytes)
  | .error _ => t

/-- A file tree as a disk, where every write is taken. -/
def disk : Disk (StateM FileTree) where
  openSource path := return (← get).openSource path
  create path := modifyGet (·.create path)
  same path other := return (← get).same path other
  writer _ := return .acceptAll
  fill path bytes := modifyGet fun t => (.ok (), t.fill path bytes)

/-! ## Making and listing -/

/-- Puts an entry at a path below the working directory, together with the directories above it. -/
def put (t : FileTree) (path : Path) (e : Entry) : FileTree :=
  let l := (Path.parts path).filter (!Path.isVoid ·)
  let t := (List.range l.length).foldl (fun t n =>
    if (t.lookup? (l.take n)).isSome then t else t.insert (l.take n) .directory) t
  t.insert l e

/-- The files below the working directory. -/
def files (t : FileTree) : List (Path × List UInt8) :=
  t.entries.filterMap fun (l, e) =>
    match e with
    | .file bytes =>
      if l.head? == some upward || l.head? == some [Path.slash] then none
      else some ([Path.slash].intercalate l, bytes)
    | .directory => none

end FileTree

end Deferral
