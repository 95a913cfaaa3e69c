import EmbeddedBuffers.CommandLine.Basic
import EmbeddedBuffers.CommandLine.Report
import EmbeddedBuffers.Generation.Basic
import EmbeddedBuffers.Production.Outlines
import EmbeddedBuffers.Settings.Sources

/-!
# Running commands

What a command does to the files, and what it prints. Lists go to the standard output, and
everything that is meant for a reader to the other one.
-/

namespace EmbeddedBuffers.CommandLine

/-- The state of the files, and what has been printed. -/
structure Console where
  run : RunState
  out : String := ""
  err : String := ""
deriving Repr

/-- A run that prints. -/
abbrev Shell := ExceptT Stop (StateM Console)

namespace Shell

/-- A run that prints nothing. -/
def ofRun {α : Type} (x : Run α) : Shell α := do
  let c ← get
  let (result, run) := x.run.run c.run
  set { c with run }
  match result with
  | .ok a => return a
  | .error s => throw s

/-- Prints a line of a list. -/
def print (text : String) : Shell Unit := modify fun c => { c with out := c.out ++ text ++ "\n" }

/-- Prints a line for a reader. -/
def say (verb message : String) : Shell Unit :=
  modify fun c => { c with err := c.err ++ Report.line verb message }

end Shell

instance : MonadLift Run Shell where
  monadLift := Shell.ofRun

/-- The settings that a command asks for. -/
def Project.settings (p : Project) (t : FileTree) (config : Option String)
    (maxValues : Option Nat) : Except Problem Settings :=
  if maxValues = some 0 then
    .error (.configuration "--max-values must be at least 1" none)
  else
    Settings.load t config
      { flags := p.defines ++ p.undefines.map ("-U" ++ ·)
        search := p.search
        maxValues
        threads := p.threads }

/-- A path as a reader sees it. -/
def shown (t : FileTree) (path : String) : String := Path.shown t.home.render path

namespace Invocation

/-- A line that quiet runs leave out. -/
def tell (i : Invocation) (verb message : String) : Shell Unit :=
  if i.quiet then pure () else Shell.say verb message

/-- Lists the files with live declarations. -/
def filter (i : Invocation) (paths : List String) (p : Project) : Shell Unit := do
  let t ← (Run.tree : Run _)
  let settings ← ((p.settings t i.config none : Except Problem _) : Run _)
  let files := t.sources settings.manifest (if paths.isEmpty then ["."] else paths)
  let live ← ((settings.filter t files : Except Stop _) : Run _)
  live.forM Shell.print
  let count := Report.counted live.length "file" "files"
  i.tell "Filtered" s!"{count} of {files.length}"

/-- Lists the files that a source reads. -/
def deps (i : Invocation) (file : String) (json : Bool) (p : Project) : Shell Unit := do
  let t ← (Run.tree : Run _)
  let settings ← ((p.settings t i.config none : Except Problem _) : Run _)
  let set ← ((settings.deps t file : Except Stop _) : Run _)
  if json then Shell.print (Report.jsonLines set.paths) else set.paths.forM Shell.print

/-- Tells what became of a buffer. -/
def tellBuffer (i : Invocation) (b : BufferSummary) : Shell Unit :=
  match b.scheme with
  | some scheme =>
    i.tell "Compressed"
      s!"{b.name} {b.rawLength} -> {b.emittedLength} bytes ({scheme.render})"
  | none => i.tell "Packed" s!"{b.name} {b.rawLength} bytes"

/-- Makes the header of a source. -/
def generate (i : Invocation) (tools : List String) (input output : String)
    (maxValues : Option Nat) (force : Bool) (p : Project) : Shell Unit := do
  let t ← (Run.tree : Run _)
  let settings ← ((p.settings t i.config maxValues : Except Problem _) : Run _)
  match ← (settings.generate tools input output force : Run _) with
  | .upToDate => i.tell "Fresh" (shown t output)
  | .generated reason buffers =>
    if buffers.isEmpty then
      Shell.say "Warning" s!"no live declarations in {shown t input}"
    buffers.forM i.tellBuffer
    let count := Report.counted buffers.length "buffer" "buffers"
    let why := (reason.map Staleness.render).getD "forced"
    i.tell "Generated" s!"{shown t output} ({count}, {why})"

/-- Writes a file as it is. -/
def writeFile (path : String) (data : List UInt8) : Run Unit :=
  Run.change fun s =>
    match s.tree.writeTarget path with
    | .ok place => (.ok (), s.perform (.write place data))
    | .error f => (.error (.file path s!"Failed to write decoded data: {f.message}"), s)

/-- Tells what a container holds, and writes it to a file. -/
def decode (i : Invocation) (file : String) (output : Option String) : Shell Unit := do
  let t ← (Run.tree : Run _)
  let read := (t.readBytes file).mapError fun f =>
    Problem.file file s!"Failed to read container: {f.message}"
  let data ← ((read : Except Problem _) : Run _)
  let decoded := (Codec.decodeContainer data).mapError Codec.Fault.problem
  let (scheme, raw) ← ((decoded : Except Problem _) : Run _)
  i.tell "Scheme" scheme.render
  i.tell "Decoded" s!"{data.length} bytes -> {raw.length} bytes"
  match output with
  | none => return ()
  | some path =>
    (writeFile path raw : Run _)
    i.tell "Wrote" (shown t path)

/-- Does what a command asks for. Completions are left to the shells. -/
def execute (i : Invocation) (tools : List String) : Shell Unit :=
  match i.command with
  | .filter paths p => i.filter paths p
  | .deps file json p => i.deps file json p
  | .generate input output maxValues force p => i.generate tools input output maxValues force p
  | .decode file output => i.decode file output
  | .completions _ => pure ()

/-- What a command does and prints on a tree. -/
def run (i : Invocation) (tools : List String) (t : FileTree) :
    Except Stop Unit × Console :=
  (i.execute tools).run.run { run := ⟨.start t, []⟩ }

end Invocation

end EmbeddedBuffers.CommandLine
