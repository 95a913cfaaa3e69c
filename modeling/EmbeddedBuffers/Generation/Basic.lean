import EmbeddedBuffers.Files.Change
import EmbeddedBuffers.Generation.Fingerprint
import EmbeddedBuffers.Generation.Freshness
import EmbeddedBuffers.Pool
import EmbeddedBuffers.Production.Registry
import EmbeddedBuffers.Settings.Basic
import EmbeddedBuffers.Source.Scan

/-!
# Generation

What is done with source files: picking those with live declarations, listing the files
that the declarations of one read, and making its header. Before the first buffer is made
the header is replaced by one line that marks it as incomplete, and the finished header
replaces it at once; a run that stops in between leaves the mark behind.
-/

namespace EmbeddedBuffers

/-- What became of a buffer. -/
structure BufferSummary where
  name : String
  rawLength : Nat
  emittedLength : Nat
  /-- The scheme of an encoded buffer. -/
  scheme : Option Codec.Scheme
deriving DecidableEq, Repr, Inhabited

/-- What a run did. -/
inductive Outcome
  /-- The header was fresh. -/
  | upToDate
  /-- The header was made, for a reason unless that was demanded. -/
  | generated (reason : Option Staleness) (buffers : List BufferSummary)
deriving DecidableEq, Repr, Inhabited

/-- Files as they are during a run, and what it had to say. -/
structure RunState where
  session : Session
  notices : List Notice := []
deriving Repr

/-- A run that changes files. What is changed stays changed when it stops. -/
abbrev Run := ExceptT Stop (StateM RunState)

instance : MonadLift (Except Stop) Run where
  monadLift
    | .ok a => pure a
    | .error s => throw s

instance : MonadLift (Except Problem) Run where
  monadLift
    | .ok a => pure a
    | .error p => throw (.problem p)

namespace Run

/-- The files as they are now. -/
def tree : Run FileTree := return (← get).session.tree

/-- Leaves notices. -/
def tell (ns : List Notice) : Run Unit := modify fun s => { s with notices := s.notices ++ ns }

/-- Does something with files that may be refused. -/
def change (f : Session → Except Problem Unit × Session) : Run Unit := do
  let s ← get
  let (result, session) := f s.session
  set { s with session }
  (result : Except Problem Unit)

/-- Result and state at the end of a run, of which some writes may fail. -/
def outcome {α : Type} (x : Run α) (t : FileTree) (failing : List (Nat × WriteFault) := []) :
    Except Stop α × RunState :=
  x.run.run ⟨.start t failing, []⟩

end Run

/-- The text of a source file. -/
def FileTree.source (t : FileTree) (path : String) : Except Problem String :=
  (t.readText path).mapError fun f => .file path f.message

/-- The results of independent jobs in order. A crash of any job stops them all, and then
the first problem does. -/
def collectResults {α : Type} (results : List (Except Stop α)) : Except Stop (List α) :=
  let crash? : Except Stop α → Option Crash
    | .error (.crash c) => some c
    | _ => none
  match results.findSome? crash? with
  | some c => .error (.crash c)
  | none => results.mapM id

namespace Settings

/-- The settings' search directories and that of a source file. -/
def searchFor (s : Settings) (path : String) : PathSet := s.search.insert (Path.directory path)

/-- What the producers of a source file may look at. -/
def context (s : Settings) (t : FileTree) (path : String) : Context :=
  ⟨t, s.searchFor path, s.macros⟩

/-- The files with a live declaration, in the given order. -/
def filter (s : Settings) (t : FileTree) (files : List String) : Except Stop (List String) := do
  let live ← collectResults (Pool.map s.workers
    (fun path => do hasLiveDeclaration s.macros path (← t.source path)) files)
  return ((files.zip live).filter (·.2)).map (·.1)

/-- The live declarations of a source file and the files that they read. -/
def inspect [Decoders] (s : Settings) (t : FileTree) (input : String) :
    Except Stop (List Declaration × PathSet) := do
  let ds ← liveDeclarations s.macros input (← t.source input)
  let set ← Registry.builtin.dependencySet (s.context t input) ds
  return (ds, set)

/-- The files that the live declarations of a source file read. -/
def deps [Decoders] (s : Settings) (t : FileTree) (input : String) : Except Stop PathSet := do
  return (← s.inspect t input).2

/-- The fingerprint of a header. -/
def fingerprint (s : Settings) (ds : List Declaration) (set : PathSet) : Nat :=
  (Ingredients.of s.macros ds set.paths s.maxValues).fingerprint

/-- The bytes of a declaration, encoded as it asks for, and their length before. -/
def payload [Decoders] (ctx : Context) (threads : Nat) (d : Declaration) :
    Noted (Header.Payload × Nat) := do
  let produced ← Registry.builtin.materialize ctx d
  let request ← (d.request.mapError (Problem.located d.path d.line) : Except Problem _)
  let size := produced.bytes.length
  if request.isNone then return (.raw produced.bytes, size)
  else
    match Codec.encode d.qualifiedName produced.bytes d.element.width threads request with
    | .ok e => return (.encoded e, size)
    | .error f =>
      if let .defective defect := f then Noted.tell (.defect defect)
      throw f.stop

/-- The payloads of some declarations, made by the workers, with all that was to say. -/
def payloads [Decoders] (s : Settings) (ctx : Context) (ds : List Declaration) :
    Except Stop (List (Header.Payload × Nat)) × List Notice :=
  let threads := max 1 (s.workers / max 1 ds.length)
  let results := Pool.map s.workers (fun d => (payload ctx threads d).outcome) ds
  (collectResults (results.map (·.1)), results.flatMap (·.2))

/-- What became of a declaration. -/
def summary (d : Declaration) (p : Header.Payload × Nat) : BufferSummary :=
  ⟨d.qualifiedName, p.2, p.1.bytes.length, match p.1 with
    | .raw _ => none
    | .encoded e => some e.scheme⟩

/-- The name of a source as its header gives it. -/
def sourceName (input : String) : String := (Path.fileName? input).getD input

/-- The header of some declarations with their payloads. -/
def header (s : Settings) (input : String) (fingerprint : Nat) (ds : List Declaration)
    (ps : List (Header.Payload × Nat)) : Except Problem String :=
  Header.render s.maxValues (sourceName input) fingerprint
    ((ds.zip ps).map fun (d, p) => ⟨d, p.1⟩)

/-- Makes the header of a source file unless it is fresh; `tools` are the files of the
program itself. -/
def generate [Decoders] (s : Settings) (tools : List String) (input output : String)
    (force : Bool) : Run Outcome := do
  let tree ← Run.tree
  let (ds, set) ← (s.inspect tree input : Except Stop _)
  let fingerprint := s.fingerprint ds set
  let reason ← if force then pure none else
    some <$> (tree.freshness tools output input set.paths fingerprint : Except Problem _)
  if reason = some .fresh then return .upToDate
  Run.change fun session => session.replaceFile output (incompleteMark ++ "\n")
  let (ps, notices) := s.payloads (s.context (← Run.tree) input) ds
  Run.tell notices
  let ps ← (ps : Except Stop _)
  let text ← (s.header input fingerprint ds ps : Except Problem _)
  Run.change fun session => session.replaceFile output text
  return .generated reason (ds.zipWith summary ps)

end Settings

end EmbeddedBuffers
