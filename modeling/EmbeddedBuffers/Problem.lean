/-!
# Problems

What can go wrong, as values: `Problem` names the cause and the place, `Problem.message` and
`Problem.help?` hold the wording. A `Crash` is not a problem of the input but of the
program itself: an internal check that fails ends the whole run, and no caller turns it
into an answer of its own.
-/

namespace EmbeddedBuffers

/-- Where in the input a problem was found. -/
structure Origin where
  path : Option String := none
  line : Option Nat := none
deriving DecidableEq, Repr, Inhabited

namespace Origin

/-- A place nothing is known about yet. -/
def unknown : Origin := ⟨none, none⟩

/-- A line of a file. -/
def atLine (path : String) (line : Nat) : Origin := ⟨some path, some line⟩

def isUnknown (o : Origin) : Bool := o.path.isNone && o.line.isNone

/-- `path:line`, or as much of it as is known. -/
def render (o : Origin) : String :=
  match o.path, o.line with
  | some path, some line => s!"{path}:{line}"
  | some path, none => path
  | none, some line => s!"line {line}"
  | none, none => "<input>"

end Origin

/-- The causes a run can fail for. -/
inductive Problem
  /-- An input or output failure without a path. -/
  | inputOutput (message : String)
  /-- A file that cannot be read, written or inspected. -/
  | file (path message : String)
  /-- A condition outside the supported grammar, or one that cannot be evaluated. -/
  | condition (origin : Origin) (message : String) (help : Option String)
  /-- Conditional directives that do not pair up. -/
  | unpairedDirective (origin : Origin) (message : String)
  /-- A live buffer name that its namespace already holds. -/
  | duplicate (origin : Origin) (name : String) (firstLine : Nat)
  /-- A declaration whose arguments make no sense. -/
  | declaration (origin : Origin) (message : String) (help : Option String)
  /-- A data file that is nowhere on the search path. -/
  | missingData (origin : Origin) (path : String) (help : Option String)
  /-- A buffer whose bytes cannot be made. -/
  | production (origin : Origin) (name message : String)
  /-- A compressed buffer that does not read back. -/
  | verification (name message : String) (parameters : Option String)
  /-- Compressed data or compression parameters that are refused. -/
  | codec (message : String) (help : Option String)
  /-- A refused setting. -/
  | configuration (message : String) (help : Option String)
deriving DecidableEq, Repr, Inhabited

namespace Problem

/-- A declaration problem whose place is filled in later. -/
def badDeclaration (message : String) (help : Option String := none) : Problem :=
  .declaration .unknown message help

/-- A production problem whose place is filled in later. -/
def badProduction (name message : String) : Problem := .production .unknown name message

/-- The place of a problem, for those that have one. -/
def origin? : Problem → Option Origin
  | .condition o _ _ | .unpairedDirective o _ | .duplicate o _ _ | .declaration o _ _
  | .missingData o _ _ | .production o _ _ => some o
  | _ => none

/-- Replaces the place of a problem that has one. -/
def withOrigin (o : Origin) : Problem → Problem
  | .condition _ m h => .condition o m h
  | .unpairedDirective _ m => .unpairedDirective o m
  | .duplicate _ n l => .duplicate o n l
  | .declaration _ m h => .declaration o m h
  | .missingData _ p h => .missingData o p h
  | .production _ n m => .production o n m
  | p => p

/-- Fills in the place of a problem that does not know its own. -/
def located (path : String) (line : Nat) (p : Problem) : Problem :=
  match p.origin? with
  | some o => if o.isUnknown then p.withOrigin (.atLine path line) else p
  | none => p

/-- The text shown to the user. -/
def message : Problem → String
  | .inputOutput m => s!"IO error: {m}"
  | .file path m => s!"IO error with {path}: {m}"
  | .condition o m _ => s!"{o.render}: unsupported conditional expression: {m}"
  | .unpairedDirective o m => s!"{o.render}: {m}"
  | .duplicate o name first =>
    s!"{o.render}: buffer '{name}' is already declared at line {first}"
  | .declaration o m _ => s!"{o.render}: invalid buffer declaration: {m}"
  | .missingData o path _ => s!"{o.render}: data file '{path}' not found"
  | .production o name m => s!"{o.render}: failed to produce buffer '{name}': {m}"
  | .verification name m _ => s!"compressed buffer '{name}' does not decode to its source: {m}"
  | .codec m _ => s!"codec error: {m}"
  | .configuration m _ => s!"Configuration error: {m}"

/-- Advice that goes with the message. -/
def help? : Problem → Option String
  | .unpairedDirective _ _ => some "every #if/#ifdef/#ifndef needs a matching #endif"
  | .duplicate _ _ _ =>
    some "buffer names must be unique within a namespace for the active defines"
  | .condition _ _ h | .declaration _ _ h | .missingData _ _ h | .verification _ _ h
  | .codec _ h | .configuration _ h => h
  | .inputOutput _ | .file _ _ | .production _ _ _ => none

end Problem

/-- Internal checks that fail. -/
inductive Crash
  /-- A text is cut inside a character. -/
  | brokenCharacter
  /-- A computation leaves the range of its machine integer. -/
  | overflow
  /-- More memory is asked for than a machine can address. -/
  | capacity
deriving DecidableEq, Repr, Inhabited

/-- What ends a computation without a value. -/
inductive Stop
  | problem (p : Problem)
  | crash (c : Crash)
deriving DecidableEq, Repr, Inhabited

namespace Stop

/-- `Problem.located`, which leaves a crash alone. -/
def located (path : String) (line : Nat) : Stop → Stop
  | .problem p => .problem (p.located path line)
  | .crash c => .crash c

end Stop

/-- A computation that may meet a problem is one that may stop. -/
instance : MonadLift (Except Problem) (Except Stop) where
  monadLift x := x.mapError Stop.problem

/-- Keeps a problem as a value; only a crash still stops. -/
def attempt {α : Type} (x : Except Stop α) : Except Stop (Except Problem α) :=
  match x with
  | .ok a => .ok (.ok a)
  | .error (.problem p) => .ok (.error p)
  | .error (.crash c) => .error (.crash c)

end EmbeddedBuffers
