import EmbeddedBuffers.Settings.Manifest

/-!
# Source files

The source files that some paths stand for. A file stands for itself, whatever its name. A
directory stands for the source files in it and below it, which are told by their
extensions, those of each directory in ascending order of their names.
-/

namespace EmbeddedBuffers

/-- Extensions of source files, unless the manifest names its own. -/
def defaultExtensions : List String :=
  ["h", "hh", "hpp", "hxx", "inl", "c", "cc", "cpp", "cxx"]

/-- Whether two texts differ in the case of ASCII letters at most. -/
def sameIgnoringCase (a b : String) : Bool := Text.lower a.toList == Text.lower b.toList

/-- Whether the extension of a path makes it a source file. -/
def Manifest.isSource (m : Manifest) (path : String) : Bool :=
  match Path.extension? path with
  | none => false
  | some found =>
    if m.extensions.isEmpty then defaultExtensions.any (sameIgnoringCase found)
    else m.extensions.any fun known =>
      sameIgnoringCase found (String.ofList (known.toList.dropWhile (· == '.')))

namespace FileTree

/-- The files at and below a place that is shown as `path`, down to the given depth. -/
def walk (t : FileTree) : (depth : Nat) → Location → (path : String) → List String
  | 0, _, _ => []
  | depth + 1, place, path =>
    match t.get? place with
    | some (.file _ _) => [path]
    | some (.directory _) =>
      (t.entries place).flatMap fun name =>
        t.walk depth (place ++ [name]) (Path.join path name)
    | none => []

/-- A depth that no directory of a tree exceeds. -/
def depth (t : FileTree) : Nat := t.nodes.foldl (fun n e => max n (e.1.length + 2)) 2

/-- The source files that some paths stand for. -/
def sources (t : FileTree) (m : Manifest) (paths : List String) : List String :=
  paths.flatMap fun path =>
    if t.isDirectory path then
      match t.locate path with
      | .ok place =>
        (t.walk t.depth place path).filter fun found => !m.isExcluded found && m.isSource found
      | .error _ => []
    else [path]

end FileTree

end EmbeddedBuffers
