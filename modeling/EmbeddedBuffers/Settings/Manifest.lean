import EmbeddedBuffers.Files.Tree
import EmbeddedBuffers.Macros
import EmbeddedBuffers.Yaml.Block

/-!
# Manifests

What a project fixes for all runs: search directories, definitions, the width of lines, the
number of workers, and which files of a directory are sources. A manifest is a YAML map
whose keys are all optional; unknown keys are passed over.
-/

namespace EmbeddedBuffers

/-- What a definition stands for in a manifest. -/
inductive ManifestValue
  | defined
  | text (value : String)
  /-- A list or a map. -/
  | compound
deriving DecidableEq, Repr, Inhabited

/-- A manifest. -/
structure Manifest where
  searchPaths : List String := []
  maxValues : Option Nat := none
  threads : Option Nat := none
  /-- In ascending order of the names, each once. -/
  defines : List (String × ManifestValue) := []
  excludes : List String := []
  extensions : List String := []
  /-- The directory that search directories are relative to. -/
  base : String := ""
deriving DecidableEq, Repr, Inhabited

namespace Manifest

/-- The file that is looked for in the working directory. -/
def fileName : String := "bufproc.yaml"

/-! ## Fields -/

/-- A text; a plain scalar counts as one whatever it stands for. -/
def text? : Yaml → Option String
  | .plain t | .quoted t => some t
  | _ => none

/-- A list of texts. Nothing at all is the empty list. -/
def texts? : Yaml → Option (List String)
  | .list items => items.mapM text?
  | .plain "" => some []
  | _ => none

/-- A count, or nothing. -/
def count? : Yaml → Option (Option Nat)
  | .plain t =>
    match Yaml.scalar t with
    | .null => some none
    | .integer (.ofNat n) => if n < 2 ^ 64 then some (some n) else none
    | _ => none
  | _ => none

/-- A number with a fraction or an exponent as a text. -/
def floatText (bits : Nat) : String :=
  match Decimal.double.decode bits with
  | .nan _ => ".nan"
  | .infinity negative => if negative then "-.inf" else ".inf"
  | .finite _ _ _ => Decimal.double.renderWith Decimal.Positional.manifest bits

/-- The value of a definition. Whole numbers have to fit 64 bits. -/
def value? : Yaml → Option ManifestValue
  | .quoted t => some (.text t)
  | .plain t =>
    match Yaml.scalar t with
    | .null => some .defined
    | .bool b => some (.text (if b then "1" else "0"))
    | .integer n => if -(2 ^ 63) ≤ n ∧ n < 2 ^ 64 then some (.text (toString n)) else none
    | .float bits => some (.text (floatText bits))
    | .text => some (.text t)
  | _ => some .compound

/-- Puts a definition at its place, over an earlier one of the same name. -/
def insertDefine (name : String) (v : ManifestValue) :
    List (String × ManifestValue) → List (String × ManifestValue)
  | [] => [(name, v)]
  | e :: rest =>
    if name < e.1 then (name, v) :: e :: rest
    else if name = e.1 then (name, v) :: rest
    else e :: insertDefine name v rest

/-- The definitions; of two with one name the later one counts. -/
def defines? : Yaml → Option (List (String × ManifestValue))
  | .plain "" => some []
  | .map entries =>
    entries.foldlM (fun ds e => (value? e.2).map fun v => insertDefine e.1 v ds) []
  | _ => none

/-- Takes one entry of the map into a manifest. -/
def addEntry (m : Manifest) (key : String) (v : Yaml) : Option Manifest :=
  match key with
  | "search_paths" => (texts? v).map fun searchPaths => { m with searchPaths }
  | "max_values" => (count? v).map fun maxValues => { m with maxValues }
  | "threads" => (count? v).map fun threads => { m with threads }
  | "defines" => (defines? v).map fun defines => { m with defines }
  | "excludes" => (texts? v).map fun excludes => { m with excludes }
  | "extensions" => (texts? v).map fun extensions => { m with extensions }
  | _ => some m

/-- The keys that mean something and may be given once. -/
def keys : List String :=
  ["search_paths", "max_values", "threads", "defines", "excludes", "extensions"]

/-- The manifest that a document describes. -/
def ofYaml? : Yaml → Option Manifest
  | .plain "" => some {}
  | .map entries =>
    let known := (entries.map (·.1)).filter keys.contains
    if known.Nodup then entries.foldlM (fun m e => addEntry m e.1 e.2) {} else none
  | _ => none

/-- Reads a manifest. -/
def parse (text : String) : Except Problem Manifest :=
  if Text.isAllBlank text.toList then .ok {}
  else
    match (Yaml.parse? text).bind ofYaml? with
    | none => .error (.configuration "Invalid manifest" (some s!"Check {fileName} syntax"))
    | some m =>
      if m.maxValues = some 0 then
        .error (.configuration "max_values must be at least 1" none)
      else .ok m

/-- Reads a manifest file. -/
def load (t : FileTree) (path : String) : Except Problem Manifest := do
  let text ← (t.readText path).mapError fun f =>
    .file path s!"Failed to read manifest: {f.message}"
  return { ← parse text with base := (Path.parent? path).getD "" }

/-- The manifest of a directory, if it has one. -/
def discover (t : FileTree) (directory : String) : Except Problem (Option Manifest) :=
  let path := Path.join directory fileName
  if t.isFile path then (load t path).map some else .ok none

/-! ## Use -/

/-- The definitions as macros. -/
def macros (m : Manifest) : Except Problem Macros :=
  m.defines.foldlM
    (fun ms (name, v) =>
      match v with
      | .defined => .ok (ms.insert name .defined)
      | .text t => .ok (ms.insert name (.value t))
      | .compound =>
        .error (.configuration
          s!"define '{name}' must be a string, number, boolean or null" none))
    .empty

/-- The search directories with their placeholders filled in. -/
def searchDirs (m : Manifest) (ms : Macros) : Except Problem (List String) :=
  m.searchPaths.mapM fun raw => do return Path.join m.base (← ms.substitute raw)

/-- Whether a text contains another one. -/
def contains (s part : List Char) : Bool := (Text.splitAtText part s).isSome

/-- Whether a directory of the given name lies on a path. -/
def passesThrough (path dir : List Char) : Bool :=
  (dir ++ ['/']).isPrefixOf path || contains path ('/' :: dir ++ ['/'])

/-- Whether a path matches a pattern: `**/dir/*` and `dir/*` for what lies in a directory,
`*end` for the end of the path, and anything else for a part of it. -/
def matchesPattern (path pattern : List Char) : Bool :=
  match pattern with
  | '*' :: '*' :: '/' :: rest =>
    match Text.stripEnd? ['/', '*'] rest with
    | some dir => passesThrough path dir
    | none => contains path rest
  | _ =>
    match pattern with
    | '*' :: rest => if pattern.contains '/' then inDirectory path pattern
      else rest.isSuffixOf path
    | _ => inDirectory path pattern
where
  inDirectory (path pattern : List Char) : Bool :=
    match Text.stripEnd? ['/', '*'] pattern with
    | some dir => passesThrough path dir
    | none => contains path pattern

/-- Whether a path is left out when directories are walked. -/
def isExcluded (m : Manifest) (path : String) : Bool :=
  let shown := path.toList.map fun c => if c = '\\' then '/' else c
  m.excludes.any fun pattern => matchesPattern shown pattern.toList

end Manifest

end EmbeddedBuffers
