import EmbeddedBuffers.Files.Path
import EmbeddedBuffers.Font.Typeface
import EmbeddedBuffers.Picture.Basic

/-!
# File trees

The files that a run can see, as a value: a tree of directories and files with their times
of modification, looked at through a working directory. Paths are followed as they are
read: every part but the last has to be a directory that exists, `..` included, and there
are no links. A place is given by its names from the root on; `get?` is what stands there.
-/

namespace EmbeddedBuffers

/-- A place in a tree: the names from the root on. -/
abbrev Location := List String

namespace Location

/-- The absolute path of a place. -/
def render (place : Location) : String := "/" ++ String.intercalate "/" place

end Location

/-- What a file holds. Pictures and typefaces in formats of their own are bytes too, and it is
left to others what these decode to; they may as well stand here as they come out. -/
inductive Content
  | bytes (data : List UInt8)
  | picture (p : Picture)
  | typeface (t : Typeface)
deriving DecidableEq, Repr, Inhabited

/-- What stands at a place, with its time of modification. -/
inductive Node
  | directory (time : Nat)
  | file (content : Content) (time : Nat)
deriving DecidableEq, Repr, Inhabited

namespace Node

def time : Node → Nat
  | .directory t | .file _ t => t

def isDirectory : Node → Bool
  | .directory _ => true
  | .file _ _ => false

def isFile : Node → Bool
  | .directory _ => false
  | .file _ _ => true

/-- The same node with another time. -/
def withTime (time : Nat) : Node → Node
  | .directory _ => .directory time
  | .file content _ => .file content time

end Node

/-- Why an operation on files is refused. -/
inductive FileFault
  | missing
  | busy
  | alreadyExists
  | notDirectory
  | isDirectory
  | noSpace
  | badDevice
  | notText
deriving DecidableEq, Repr, Inhabited

/-- The wording of the operating system. -/
def FileFault.message : FileFault → String
  | .missing => "No such file or directory (os error 2)"
  | .busy => "Device or resource busy (os error 16)"
  | .alreadyExists => "File exists (os error 17)"
  | .notDirectory => "Not a directory (os error 20)"
  | .isDirectory => "Is a directory (os error 21)"
  | .noSpace => "No space left on device (os error 28)"
  | .badDevice => "Input/output error (os error 5)"
  | .notText => "stream did not contain valid UTF-8"

/-- Directories and files, seen from a working directory. -/
structure FileTree where
  /-- The working directory. -/
  home : Location
  nodes : List (Location × Node)
  /-- The time that new and changed files get. -/
  now : Nat
deriving DecidableEq, Repr, Inhabited

namespace FileTree

/-- What stands at a place; the root is always a directory. -/
def get? (t : FileTree) (place : Location) : Option Node :=
  if place.isEmpty then some (.directory t.now) else t.nodes.lookup place

/-- Whether a directory stands at a place. -/
def hasDirectory (t : FileTree) (place : Location) : Bool :=
  match t.get? place with
  | some node => node.isDirectory
  | none => false

/-- Puts a node at a place, over what stood there. -/
def put (t : FileTree) (place : Location) (node : Node) : FileTree :=
  { t with nodes := (place, node) :: t.nodes.filter (·.1 ≠ place) }

/-- Removes what stands at a place. -/
def erase (t : FileTree) (place : Location) : FileTree :=
  { t with nodes := t.nodes.filter (·.1 ≠ place) }

/-- The names in a directory, in ascending order. -/
def entries (t : FileTree) (place : Location) : List String :=
  (t.nodes.filterMap fun (l, _) =>
    match l.getLast? with
    | some name => if l.dropLast = place then some name else none
    | none => none).mergeSort fun a b => decide (a ≤ b)

/-! ## Following paths -/

/-- Goes on from a place by one part of a path. -/
def enter (t : FileTree) (place : Location) (part : String) : Except FileFault Location :=
  if t.hasDirectory place then
    if Path.isSilent part then .ok place
    else if part = ".." then .ok place.dropLast
    else if (t.get? (place ++ [part])).isSome then .ok (place ++ [part])
    else .error .missing
  else .error .notDirectory

/-- The place from which a path starts. -/
def startOf (t : FileTree) (path : String) : Location :=
  if Path.isAbsolute path then [] else t.home

/-- Follows the parts of a path from its start. -/
def follow (t : FileTree) (path : String) (parts : List String) : Except FileFault Location :=
  parts.foldlM t.enter (t.startOf path)

/-- The place that a path leads to, where something stands. -/
def locate (t : FileTree) (path : String) : Except FileFault Location :=
  if path.isEmpty then .error .missing else t.follow path (Path.parts path)

/-- What a path leads to. -/
def find (t : FileTree) (path : String) : Except FileFault Node := do
  match t.get? (← t.locate path) with
  | some node => return node
  | none => throw .missing

def isFile (t : FileTree) (path : String) : Bool :=
  match t.find path with
  | .ok node => node.isFile
  | .error _ => false

def isDirectory (t : FileTree) (path : String) : Bool :=
  match t.find path with
  | .ok node => node.isDirectory
  | .error _ => false

/-- The absolute path without detours of what a path leads to. -/
def canonical (t : FileTree) (path : String) : Except FileFault String :=
  (t.locate path).map Location.render

/-! ## Reading -/

/-- What a file holds. -/
def read (t : FileTree) (path : String) : Except FileFault Content := do
  match ← t.find path with
  | .directory _ => throw .isDirectory
  | .file content _ => return content

/-- The bytes of a file. What is only known decoded has none to offer. -/
def readBytes (t : FileTree) (path : String) : Except FileFault (List UInt8) := do
  match ← t.read path with
  | .bytes data => return data
  | .picture _ | .typeface _ => return []

/-- The text of a file in UTF-8. -/
def readText (t : FileTree) (path : String) : Except FileFault String := do
  let data ← t.readBytes path
  match String.fromUTF8? ⟨data.toArray⟩ with
  | some text => return text
  | none => throw .notText

end FileTree

/-- The bytes of a text in UTF-8. -/
def utf8 (text : String) : List UInt8 := text.toUTF8.data.toList

end EmbeddedBuffers
