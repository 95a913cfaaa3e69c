import EmbeddedBuffers.CommandLine.Demand
import EmbeddedBuffers.CommandLine.Usage

/-!
# The program

The outer layer: it learns from the system what a command wants to know about the files,
runs the command on that tree, and then carries out the changes that the run has made and
prints what it has to say. Pictures and typefaces are handed on as they are, not decoded.
-/

open EmbeddedBuffers EmbeddedBuffers.CommandLine

namespace EmbeddedBuffers.Program

/-- A place as an entry of its directory. -/
def entry (place : Location) : IO.FS.DirEntry :=
  ⟨Location.render place.dropLast, place.getLastD ""⟩

/-- A time in nanoseconds. -/
def nanoseconds (t : IO.FS.SystemTime) : Nat := t.sec.toNat * 1000000000 + t.nsec.toNat

/-- Learns what stands at a place. What a file holds is read only where that is asked for. -/
def look (contents : Bool) (t : FileTree) (place : Location) : IO FileTree := do
  if place.isEmpty ∨ (!contents ∧ (t.get? place).isSome) then return t
  try
    let path := (entry place).path
    let facts ← path.metadata
    let time := nanoseconds facts.modified
    if facts.type == .dir then return t.put place (.directory time)
    let data ← if contents then IO.FS.readBinFile path else pure .empty
    return t.put place (.file (.bytes data.toList) time)
  catch _ => return t

/-- Learns what stands along a path, and what the file at its end holds. -/
def reach (t : FileTree) (path : String) : IO FileTree := do
  let mut t := t
  let mut place := t.startOf path
  for part in Path.parts path do
    if part = ".." then place := place.dropLast
    else if !Path.isSilent part then
      place := place ++ [part]
      t ← look false t place
  look true t place

/-- Whether an entry is a link. -/
def isLink (e : IO.FS.DirEntry) : IO Bool :=
  return (← e.path.symlinkMetadata).type == .symlink

/-- Learns the entries of a directory down to some levels. Links are passed over. -/
def list : (levels : Nat) → FileTree → Location → IO FileTree
  | 0, t, _ => return t
  | levels + 1, t, place => do
    try
      (← (entry place).path.readDir).foldlM (fun t e => do
        if ← isLink e then return t
        let place := place ++ [e.fileName]
        let t ← look false t place
        if t.hasDirectory place then list levels t place else return t) t
    catch _ => return t

/-- Learns what is demanded. -/
def meet (t : FileTree) (d : Demand) : IO FileTree := do
  let t ← d.listings.foldlM (fun t (path, levels) => do
    let t ← reach t path
    match t.locate path with
    | .ok place => if t.hasDirectory place then list levels t place else return t
    | .error _ => return t) t
  d.files.foldlM reach t

/-- Carries out a change. -/
def carryOut : Change → IO Unit
  | .makeDirectory place => IO.FS.createDir (Location.render place)
  | .write place data => IO.FS.writeBinFile (Location.render place) ⟨data.toArray⟩
  | .rename source target => IO.FS.rename (Location.render source) (Location.render target)
  | .remove place => IO.FS.removeFile (Location.render place)

/-- The files as a command wants to know them, seen from the working directory. The time of
changed files is left to the system; no command looks at it. -/
def gather (i : Invocation) (tool : String) : IO FileTree := do
  let home ← IO.currentDir
  let place := (Path.parts home.toString).filter fun part => !Path.isSilent part
  let t ← reach ⟨place, [], 0⟩ home.toString
  let t ← reach t tool
  (List.range Demand.rounds).foldlM (fun t _ => meet t (i.demand t)) t

/-- Prints what stopped a run, and tells with which code the program ends. -/
def report : Stop → IO UInt32
  | .problem p => do
    IO.eprintln s!"Error: {p.message}"
    if let some help := p.help? then IO.eprintln s!"  help: {help}"
    return 1
  | .crash _ => do
    IO.eprintln "Error: an internal check failed"
    return 101

/-- Runs a command. -/
def execute (i : Invocation) : IO UInt32 := do
  let tool := (← IO.appPath).toString
  let (result, console) := i.run [tool] (← gather i tool)
  console.run.session.changes.forM carryOut
  IO.print console.out
  IO.eprint console.err
  for notice in console.run.notices do
    if notice.isError || LogLevel.of i.verbose i.quiet != .error then
      IO.eprintln notice.render
  match result with
  | .ok () => return 0
  | .error s => report s

end EmbeddedBuffers.Program

/-- Reads the command line and runs its command. -/
def main (args : List String) : IO UInt32 := do
  match parse args with
  | .ok i => Program.execute i
  | .error f =>
    if f.isAnswer then
      IO.print f.render
      return 0
    else
      IO.eprint f.render
      return 2
