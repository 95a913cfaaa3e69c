import EmbeddedBuffers.Files.Search
import EmbeddedBuffers.Header.Basic
import EmbeddedBuffers.Settings.Manifest

/-!
# Settings

What holds for one run: the manifest together with what the caller asks for, which wins
over it.
-/

namespace EmbeddedBuffers

/-- What a caller asks for. -/
structure Overrides where
  /-- Flags that define and undefine macros, applied after the manifest. -/
  flags : List String := []
  /-- Search directories before those of the manifest. -/
  search : List String := []
  maxValues : Option Nat := none
  threads : Option Nat := none
deriving DecidableEq, Repr, Inhabited

/-- What holds for a run. -/
structure Settings where
  macros : Macros
  search : PathSet
  /-- Values on a line, at least one. -/
  maxValues : Nat
  /-- Workers, at least one, where their number is given. -/
  threads : Option Nat
  manifest : Manifest
deriving DecidableEq, Repr, Inhabited

namespace Settings

/-- Workers when their number is not given. -/
def defaultThreads : Nat := 4

/-- Number of workers. -/
def workers (s : Settings) : Nat := s.threads.getD defaultThreads

/-- Combines a manifest with what the caller asks for. -/
def resolve (m : Manifest) (o : Overrides) : Except Problem Settings := do
  let macros ← o.flags.foldlM Macros.applyFlag (← m.macros)
  let own ← o.search.mapM macros.substitute
  let dirs ← m.searchDirs macros
  return {
    macros
    search := PathSet.ofList (own ++ dirs)
    maxValues := max 1 ((o.maxValues.or m.maxValues).getD Header.defaultMaxValues)
    threads := (o.threads.or m.threads).map (max 1)
    manifest := m }

/-- The settings under the manifest at a path, or under that of the working directory where
it has one. -/
def load (t : FileTree) (config : Option String) (o : Overrides) : Except Problem Settings := do
  let manifest ← match config with
    | some path => Manifest.load t path
    | none => do
      let found ← Manifest.discover t t.home.render
      pure (found.getD {})
  resolve manifest o

end Settings

end EmbeddedBuffers
