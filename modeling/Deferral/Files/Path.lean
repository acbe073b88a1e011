import Deferral.Text.Utf8

/-!
# Paths

A path is a byte string, which need not be text; its components are what stands between slashes. Empty components and
single dots mean nothing, except that a dot at the beginning of a relative path is kept. Two paths are the same if their
components are.
-/

namespace Deferral

abbrev Path := List UInt8

/-- What stands between two slashes of a path. -/
abbrev Path.Name := List UInt8

namespace Path

def slash : UInt8 := 0x2F

def dot : UInt8 := 0x2E

/-- The path as it is shown. -/
def text (path : Path) : String := Utf8.lossy path

/-- What stands between slashes. -/
def parts : Path → List Name
  | [] => [[]]
  | b :: rest =>
    match parts rest with
    | [] => [[b]]
    | part :: more => if b == slash then [] :: part :: more else (b :: part) :: more

def isAbsolute (path : Path) : Bool := path.head? == some slash

/-- Whether a part stands for nothing. -/
def isVoid (part : Name) : Bool := part.isEmpty || part == [dot]

/-- The fixed beginning of a path, which is no name (the root, or a dot), and the parts after it. -/
def split (path : Path) : Option Name × List Name :=
  match parts path with
  | [] => (none, [])
  | first :: rest =>
    if first == [dot] then (some [dot], rest)
    else if first.isEmpty then (if isAbsolute path then some [slash] else none, rest)
    else (none, first :: rest)

/-- The components of a path, by which paths are compared. -/
def components (path : Path) : List Name :=
  let (head?, rest) := split path
  head?.toList ++ rest.filter (!isVoid ·)

/-- Whether two spellings name the same path. -/
def same (a b : Path) : Bool := components a == components b

/-- The parts up to the last that means something. -/
def dropVoids (parts : List Name) : List Name := (parts.reverse.dropWhile isVoid).reverse

/-- The last component, unless it leads upward or there is none. -/
def fileName? (path : Path) : Option Name :=
  match (dropVoids (split path).2).getLast? with
  | some name => if name == [dot, dot] then none else some name
  | none => none

/-- A name up to its last dot, and what follows it. A dot at the beginning does not count. -/
def splitName (name : Name) : Name × Option Name :=
  let after := name.reverse.takeWhile (· != dot)
  match name.reverse.drop after.length with
  | [] => (name, none)
  | _ :: before => if before.isEmpty then (name, none) else (before.reverse, some after.reverse)

/-- The file name without its extension. -/
def stem? (path : Path) : Option Name := (fileName? path).map fun name => (splitName name).1

def extension? (path : Path) : Option Name := (fileName? path).bind fun name => (splitName name).2

/-- The path without its last component. -/
def parent (path : Path) : Path :=
  let (head?, rest) := split path
  let kept := dropVoids (dropVoids rest).dropLast
  if head? == some [slash] then slash :: [slash].intercalate kept else [slash].intercalate (head?.toList ++ kept)

/-- `path` below `base`; an absolute path stands for itself. -/
def join (base path : Path) : Path :=
  if isAbsolute path then path
  else if base.isEmpty || base.getLast? == some slash then base ++ path
  else base ++ slash :: path

/-- The path with another file name; a path without one gets it at its end. -/
def withFileName (path : Path) (name : Name) : Path :=
  match fileName? path with
  | some _ => join (parent path) name
  | none => join path name

end Path

end Deferral
