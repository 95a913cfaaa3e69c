import EmbeddedBuffers.Files.Tree
import EmbeddedBuffers.Problem

/-!
# Search paths

The directories in which data files are looked up, first one first, and sets of files
that keep the order in which their members came. In both, paths with the same components
count as one, and the first spelling stays.
-/

namespace EmbeddedBuffers

/-- A list of paths, no two of them the same. -/
structure PathSet where
  paths : List String := []
deriving DecidableEq, Repr, Inhabited

namespace PathSet

def empty : PathSet := ⟨[]⟩

def isEmpty (s : PathSet) : Bool := s.paths.isEmpty

def contains (s : PathSet) (path : String) : Bool := s.paths.any (Path.same path)

/-- Adds a path at the end, unless it is there already. -/
def insert (s : PathSet) (path : String) : PathSet :=
  if s.contains path then s else ⟨s.paths ++ [path]⟩

/-- Adds paths one after the other. -/
def extend (s : PathSet) (paths : List String) : PathSet := paths.foldl insert s

def ofList (paths : List String) : PathSet := empty.extend paths

/-- The paths under which a file is looked for. An absolute path is taken as it is, a
relative one is put behind one directory after the other; the working directory is none of
them unless it is named. -/
def candidates (dirs : PathSet) (requested : String) : List String :=
  if Path.isAbsolute requested then [requested]
  else dirs.paths.map fun dir => Path.join dir requested

/-- Finds a file: the first candidate that is one. -/
def resolve (dirs : PathSet) (t : FileTree) (requested : String) : Except Problem String :=
  match (dirs.candidates requested).find? t.isFile with
  | some path =>
    (t.canonical path).mapError fun f => .file path f.message
  | none =>
    let searched := String.intercalate ", " dirs.paths
    .error (.missingData .unknown requested
      (some (if Path.isAbsolute requested ∨ dirs.isEmpty then "Add a search directory with -I"
        else s!"Searched: {searched}")))

end PathSet

end EmbeddedBuffers
