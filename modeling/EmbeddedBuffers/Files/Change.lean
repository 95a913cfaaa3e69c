import EmbeddedBuffers.Files.Tree
import EmbeddedBuffers.Problem

/-!
# Changes to a file tree

The four things that are done to files, each of which happens at once or not at all, and
the questions that come before them: where a new file goes, and why it may not. A
`Session` is a tree together with the changes that have led to it, so a run that is cut off
after any of them is a beginning of that list. What a machine makes of a write is not for the
program to say: a session tells which writes fail, and how much of the text they leave.
-/

namespace EmbeddedBuffers

/-- A single change. -/
inductive Change
  | makeDirectory (place : Location)
  /-- Gives a file new contents; the file is made when it does not exist. -/
  | write (place : Location) (data : List UInt8)
  /-- Moves a file, over what stands at its new place. -/
  | rename (source target : Location)
  | remove (place : Location)
deriving DecidableEq, Repr, Inhabited

namespace FileTree

/-- The tree after a change. -/
def apply (t : FileTree) : Change → FileTree
  | .makeDirectory place => t.put place (.directory t.now)
  | .write place data => t.put place (.file (.bytes data) t.now)
  | .rename source target =>
    match t.get? source with
    | some node => (t.erase source).put target node
    | none => t
  | .remove place => t.erase place

/-- The tree after some changes, one after the other. -/
def replay (t : FileTree) (changes : List Change) : FileTree := changes.foldl apply t

/-! ## Places for new files -/

/-- The directory of a path that may not exist yet and its last part; separators at the
end are left out. The last part is missing in the root. -/
def split (t : FileTree) (path : String) : Except FileFault (Location × Option String) :=
  if path.isEmpty then .error .missing
  else
    match (Path.parts path).reverse.dropWhile String.isEmpty with
    | [] => .ok ([], none)
    | last :: before => do
      let place ← t.follow path before.reverse
      if t.hasDirectory place then return (place, some last) else throw .notDirectory

/-- Whether a last part names an entry of its directory. -/
def isEntryName (part : String) : Bool := part != "." && part != ".."

/-- Whether a path ends with a separator. -/
def endsOpen (path : String) : Bool := path.toList.getLast? == some '/'

/-- The place of a new directory. -/
def newDirectory (t : FileTree) (path : String) : Except FileFault Location := do
  match ← t.split path with
  | (_, none) => throw .alreadyExists
  | (place, some last) =>
    if isEntryName last ∧ (t.get? (place ++ [last])).isNone then return place ++ [last]
    else throw .alreadyExists

/-- The place to which a file may be moved. -/
def moveTarget (t : FileTree) (path : String) : Except FileFault Location := do
  match ← t.split path with
  | (_, none) => throw .busy
  | (place, some last) =>
    if !isEntryName last then throw .busy
    else if endsOpen path then throw .notDirectory
    else if t.hasDirectory (place ++ [last]) then throw .isDirectory
    else return place ++ [last]

/-- The place of a file that is opened for writing. -/
def writeTarget (t : FileTree) (path : String) : Except FileFault Location := do
  match ← t.split path with
  | (_, none) => throw .isDirectory
  | (place, some last) =>
    if !isEntryName last ∨ endsOpen path ∨ t.hasDirectory (place ++ [last]) then
      throw .isDirectory
    else return place ++ [last]

/-- The last part of a path, separators at the end left out. -/
def lastPart (path : String) : String :=
  ((Path.parts path).reverse.dropWhile String.isEmpty).headD ""

/-- A name that no entry of a directory has, and another one than a given name. -/
def freeName (t : FileTree) (place : Location) (other : String) : String :=
  let candidates := (List.range (t.nodes.length + 2)).map fun n => s!".tmp{n}"
  (candidates.find? fun name => name != other && (t.get? (place ++ [name])).isNone).getD ".tmp"

end FileTree

/-! ## Sessions -/

/-- A write that fails, with so many bytes of the text written before. -/
structure WriteFault where
  written : Nat
  reason : FileFault
deriving DecidableEq, Repr, Inhabited

/-- A tree with the changes made so far, the oldest first. -/
structure Session where
  tree : FileTree
  changes : List Change := []
  /-- The writes that fail, each with the number of changes in front of it. -/
  failing : List (Nat × WriteFault) := []
deriving Repr, Inhabited

namespace Session

/-- A tree without changes. -/
def start (t : FileTree) (failing : List (Nat × WriteFault) := []) : Session := ⟨t, [], failing⟩

/-- Makes a change. -/
def perform (s : Session) (c : Change) : Session :=
  { s with tree := s.tree.apply c, changes := s.changes ++ [c] }

/-- Makes a directory together with the directories above it, unless they exist. -/
def makeDirectories (s : Session) : (levels : Nat) → (path : String) →
    Except FileFault Unit × Session
  | 0, _ => (.error .missing, s)
  | levels + 1, path =>
    if path.isEmpty then (.ok (), s)
    else
      match s.tree.newDirectory path with
      | .ok place => (.ok (), s.perform (.makeDirectory place))
      | .error .missing =>
        match s.makeDirectories levels ((Path.parent? path).getD "") with
        | (.error f, s) => (.error f, s)
        | (.ok (), s) =>
          match s.tree.newDirectory path with
          | .ok place => (.ok (), s.perform (.makeDirectory place))
          | .error f => (if s.tree.isDirectory path then .ok () else .error f, s)
      | .error f => (if s.tree.isDirectory path then .ok () else .error f, s)

/-- Gives a file its text, or the beginning of it at which the machine fails. -/
def writeText (s : Session) (place : Location) (text : String) :
    Except FileFault Unit × Session :=
  match s.failing.lookup s.changes.length with
  | none => (.ok (), s.perform (.write place (utf8 text)))
  | some fault => (.error fault.reason, s.perform (.write place ((utf8 text).take fault.written)))

/-- What is reported of an operation on a path that is refused. -/
def refused (shown action : String) (f : FileFault) : Problem :=
  .file shown s!"{action} {shown}: {f.message}"

/-- Writes a text to a new file, which `shown` is the path of, and moves it to its place. The new
file is removed when it gets no further. -/
def writeThrough (s : Session) (temporary : Location) (shown path text : String) :
    Except Problem Unit × Session :=
  match (s.perform (.write temporary [])).writeText temporary text with
  | (.error f, s) => (.error (refused shown "cannot write" f), s.perform (.remove temporary))
  | (.ok (), s) =>
    match s.tree.moveTarget path with
    | .ok target => (.ok (), s.perform (.rename temporary target))
    | .error f => (.error (refused path "cannot replace" f), s.perform (.remove temporary))

/-- Replaces a file at once: the text is written to a file of its own beside it, which is
then moved to its place. Directories on the way are made. -/
def replaceFile (s : Session) (path text : String) : Except Problem Unit × Session :=
  let directory := Path.directory path
  match s.makeDirectories ((Path.components directory).length + 1) directory with
  | (.error f, s) => (.error (refused directory "cannot create directory" f), s)
  | (.ok (), s) =>
    match s.tree.locate directory with
    | .error f => (.error (refused directory "cannot create temporary file in" f), s)
    | .ok place =>
      let name := s.tree.freeName place (FileTree.lastPart path)
      let shown := Path.join (Path.join s.tree.home.render directory) name
      s.writeThrough (place ++ [name]) shown path text

end Session

end EmbeddedBuffers
