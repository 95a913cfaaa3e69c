import EmbeddedBuffers.Text.Split

/-!
# Paths

Paths as texts. Two paths are the same when their components are: repeated separators, a
separator at the end, and the parts `.` that do not stand at the front say nothing. Nothing
here looks at a file, so `..` stays where it is.
-/

namespace EmbeddedBuffers.Path

/-- A component of a path. -/
inductive Component
  | root
  /-- A `.` at the front of a relative path. -/
  | current
  | parent
  | name (text : String)
deriving DecidableEq, Repr

/-- The parts between the separators. -/
def parts (path : String) : List String :=
  (Text.splitAt '/' path.toList).map String.ofList

def isAbsolute (path : String) : Bool := path.toList.head? == some '/'

/-- Whether a part says nothing, wherever it stands behind the first. -/
def isSilent (part : String) : Bool := part == "" || part == "."

/-- The component that a part stands for. -/
def component (part : String) : Component :=
  if part = ".." then .parent else .name part

/-- The components of a path. -/
def components (path : String) : List Component :=
  let front := match parts path with
    | "" :: _ :: _ => [Component.root]
    | "." :: _ => [.current]
    | _ => []
  front ++ ((parts path).filter fun part => !isSilent part).map component

/-- Whether two paths have the same components. -/
def same (a b : String) : Bool := components a == components b

/-- The names of a path, `.` and `..` among them, from its first part on. Absolute and
relative paths are not told apart. -/
def names (path : String) : List String :=
  (components path).filterMap fun
    | .root => none
    | .current => some "."
    | .parent => some ".."
    | .name text => some text

/-- A path from a directory on. An absolute path stays as it is. -/
def join (directory path : String) : String :=
  if isAbsolute path ∨ directory.isEmpty then path
  else if directory.toList.getLast? = some '/' then directory ++ path
  else directory ++ "/" ++ path

/-- The last component, when it is a name. -/
def fileName? (path : String) : Option String :=
  match (components path).getLast? with
  | some (.name text) => some text
  | _ => none

/-- What follows the last dot of the file name. A name that only starts with its dot has
nothing of the kind. -/
def extension? (path : String) : Option String :=
  match fileName? path with
  | none => none
  | some name =>
    match (Text.splitAt '.' name.toList).reverse with
    | [] | [_] | [_, []] => none
    | last :: _ => some (String.ofList last)

/-- The shortest beginning of a text with a property, `done` being what stands before. -/
def shortest? (p : String → Bool) (done : List Char) (s : List Char) : Option String :=
  let text := String.ofList done.reverse
  if p text then some text
  else
    match s with
    | [] => none
    | c :: rest => shortest? p (c :: done) rest

/-- The path without its last component: the shortest beginning of the text that has all
components but the last. The root and the empty path have none. -/
def parent? (path : String) : Option String :=
  let all := components path
  match all.getLast? with
  | none | some .root => none
  | some _ => shortest? (fun text => components text == all.dropLast) [] path.toList

/-- The directory that a path lies in, `.` when the path names none. -/
def directory (path : String) : String :=
  match parent? path with
  | some text => if text.isEmpty then "." else text
  | none => "."

/-- Drops the silent parts at the end. -/
def dropSilentEnd (ps : List String) : List String :=
  (ps.reverse.dropWhile isSilent).reverse

/-- Drops as many parts as hold the given number of components that are spoken, and the
silent ones after them. -/
def dropSpoken : Nat → List String → List String
  | _, [] => []
  | n, part :: rest =>
    if isSilent part then dropSpoken n rest
    else
      match n with
      | 0 => part :: rest
      | n + 1 => dropSpoken n rest

/-- What remains of a path behind a directory that it starts with, both absolute. -/
def strip? (directory path : String) : Option String :=
  if isAbsolute directory && isAbsolute path && (components directory).isPrefixOf (components path)
  then
    let rest := dropSpoken ((components directory).length - 1) (parts path)
    some (String.intercalate "/" (dropSilentEnd rest))
  else none

/-- A path as it is shown to a user who works in a directory: relative to it where
possible, and `.` for the directory itself. -/
def shown (directory path : String) : String :=
  match strip? directory path with
  | some "" => "."
  | some text => text
  | none => path

end EmbeddedBuffers.Path
