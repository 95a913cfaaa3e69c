import EmbeddedBuffers.CommandLine.Execution

/-!
# Demands

What a command wants to know about the files before it can run. A demand is made on a tree
that may still be incomplete: with the manifest at hand the sources are known, and with the
sources at hand the data files. So a tree that has met a few demands in turn is as good as
the whole one.
-/

namespace EmbeddedBuffers.CommandLine

/-- What a command wants to know. -/
structure Demand where
  /-- Files with what they hold; those that do not exist are passed over. -/
  files : List String := []
  /-- Directories with the number of levels down to which their entries are listed. -/
  listings : List (String × Nat) := []
deriving Repr, Inhabited

namespace Demand

/-- Number of demands after which nothing new is asked for: manifest, sources, data. -/
def rounds : Nat := 3

/-- More levels than the longest path has parts. -/
def allLevels : Nat := 4096

def append (a b : Demand) : Demand := ⟨a.files ++ b.files, a.listings ++ b.listings⟩

instance : Append Demand := ⟨append⟩

end Demand

/-- The paths that the live declarations of a source may read: every text among their
arguments could name a data file. -/
def dataCandidates (s : Settings) (t : FileTree) (input : String) : List String :=
  let live : Except Stop (List Declaration) := do
    liveDeclarations s.macros input (← t.source input)
  match live with
  | .error _ => []
  | .ok ds =>
    let texts := (ds.flatMap (·.arguments)).filterMap Argument.text?
    texts.flatMap fun text =>
      match s.macros.substitute text with
      | .ok requested => (s.searchFor input).candidates requested
      | .error _ => []

/-- What a command wants to know when its settings are known. -/
def Command.demand (s : Settings) (t : FileTree) : Command → Demand
  | .filter paths _ =>
    let paths := if paths.isEmpty then ["."] else paths
    { files := t.sources s.manifest paths
      listings := paths.map fun path => (path, Demand.allLevels) }
  | .deps file _ _ => { files := file :: dataCandidates s t file }
  | .generate input output _ _ _ =>
    { files := input :: output :: dataCandidates s t input
      listings := [(Path.directory output, 1)] }
  | .decode _ _ | .completions _ => {}

/-- What a command wants to know whatever the settings are. -/
def Command.ownDemand : Command → Demand
  | .decode file output => { files := file :: output.toList }
  | _ => {}

/-- The options that the commands share which look at sources. -/
def Command.project? : Command → Option Project
  | .filter _ p | .deps _ _ p | .generate _ _ _ _ p => some p
  | .decode _ _ | .completions _ => none

/-- What a command wants to know. -/
def Invocation.demand (i : Invocation) (t : FileTree) : Demand :=
  match i.command.project? with
  | none => i.command.ownDemand
  | some p =>
    let manifest := i.config.getD (Path.join t.home.render Manifest.fileName)
    let known : Demand := { files := [manifest] }
    match p.settings t i.config none with
    | .ok s => known ++ i.command.demand s t
    | .error _ => known

end EmbeddedBuffers.CommandLine
