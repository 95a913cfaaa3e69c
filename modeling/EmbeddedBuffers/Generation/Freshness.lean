import EmbeddedBuffers.Files.Tree
import EmbeddedBuffers.Header.Basic
import EmbeddedBuffers.Problem

/-!
# Freshness

Whether a header has to be made again. It is fresh when it exists, is complete, records
the current fingerprint, and is newer than its source, every file that was read, and the
files of the program itself. A file with the same time counts as newer, since it may have
been edited after the header was made.
-/

namespace EmbeddedBuffers

/-- The line of a header that is still to be made. -/
def incompleteMark : String := "// bufproc: INCOMPLETE OUTPUT, regenerate"

/-- Why a header has to be made again, or not. -/
inductive Staleness
  | fresh
  | missing
  | incomplete
  | fingerprintChanged
  | outdated (newer : String)
  | missingInput (path : String)
deriving DecidableEq, Repr, Inhabited

namespace Staleness

def isFresh : Staleness → Bool
  | .fresh => true
  | _ => false

def render : Staleness → String
  | .fresh => "up to date"
  | .missing => "output does not exist"
  | .incomplete => "previous generation was interrupted"
  | .fingerprintChanged => "definitions or settings changed"
  | .outdated newer => s!"{newer} is newer"
  | .missingInput path => s!"{path} is missing"

end Staleness

/-- Whether some line of a header is the mark, blanks around it apart. -/
def isIncomplete (header : String) : Bool :=
  (Text.lines header.toList).any fun line => Text.trim line == incompleteMark.toList

namespace FileTree

/-- The first of the given inputs that is missing or not older than a time. -/
def staleInput? (t : FileTree) (time : Nat) : List String → Option Staleness
  | [] => none
  | path :: rest =>
    match t.find path with
    | .error _ => some (.missingInput path)
    | .ok node => if time ≤ node.time then some (.outdated path) else t.staleInput? time rest

/-- The first of the program's own files that is not older than a time. A missing one does
not matter. -/
def staleTool? (t : FileTree) (time : Nat) : List String → Option Staleness
  | [] => none
  | path :: rest =>
    match t.find path with
    | .error _ => t.staleTool? time rest
    | .ok node => if time ≤ node.time then some (.outdated path) else t.staleTool? time rest

/-- Whether a header is fresh. -/
def freshness (t : FileTree) (tools : List String) (output source : String)
    (dependencies : List String) (fingerprint : Nat) : Except Problem Staleness :=
  let refused (action : String) (f : FileFault) : Problem :=
    .file output s!"{action} {output}: {f.message}"
  match t.find output with
  | .error .missing => .ok .missing
  | .error f => .error (refused "cannot inspect" f)
  | .ok node =>
    match t.readText output with
    | .error f => .error (refused "cannot read" f)
    | .ok header =>
      if isIncomplete header then .ok .incomplete
      else if Header.recordedFingerprint? header.toList ≠ some fingerprint then
        .ok .fingerprintChanged
      else
        match t.staleInput? node.time (source :: dependencies) with
        | some s => .ok s
        | none => .ok ((t.staleTool? node.time tools).getD .fresh)

end FileTree

end EmbeddedBuffers
