import EmbeddedBuffers.Declaration.Argument
import EmbeddedBuffers.Declaration.Kind
import EmbeddedBuffers.Source.Position
import EmbeddedBuffers.Text.Integer

/-!
# Declarations

A buffer declaration with its place in the source, the symbols it is emitted under, its
arguments as values, and its reading from the text between the parentheses.
-/

namespace EmbeddedBuffers

/-- A buffer declaration. -/
structure Declaration where
  kind : Kind
  element : ElementType
  /-- The element type as written. -/
  typeName : String
  name : String
  /-- The arguments after the element type and the name. -/
  arguments : List Argument
  /-- The enclosing namespaces, outermost first. -/
  scope : List String
  path : String
  span : Span
  /-- Whether the conditions around the declaration hold. -/
  live : Bool
deriving BEq, Repr, Inhabited

namespace Declaration

/-- The emitted array. -/
def symbol (d : Declaration) : String := s!"{d.name}_{d.kind.word}"

/-- The emitted element count. -/
def sizeSymbol (d : Declaration) : String := d.symbol ++ "Size"

/-- The name with its namespaces. -/
def qualifiedName (d : Declaration) : String := String.intercalate "::" (d.scope ++ [d.name])

/-- The line on which a declaration starts. -/
def line (d : Declaration) : Nat := d.span.start.line

/-- An argument as text; `what` names it in the problem. -/
def textArgument (d : Declaration) (index : Nat) (what : String) : Except Problem String :=
  match d.arguments[index]?.bind Argument.text? with
  | some t => .ok t
  | none =>
    let place := index + 3
    .error (.badDeclaration s!"{d.kind.render} '{d.name}' expects {what} as argument {place}")

/-- An argument as an unsigned number of 32 bits. -/
def numberArgument (d : Declaration) (index : Nat) (what : String) : Except Problem Nat := do
  let text ← d.textArgument index what
  match (Text.integer? text.toList).map Int64.toInt with
  | some (.ofNat n) => if n < 2 ^ 32 then return n else throw (refusal text)
  | _ => throw (refusal text)
where
  refusal (text : String) : Problem :=
    .badDeclaration
      s!"{d.kind.render} '{d.name}': {what} must be a non-negative integer, got '{text}'"

/-! ## Reading -/

/-- Why the text of a call is no declaration. -/
inductive Fault
  /-- A word that names no kind. -/
  | unknownKind (word : String)
  /-- Fewer than two arguments. -/
  | tooFew (kind : Kind)
  /-- A string or a list in the place of the element type. -/
  | notAType (kind : Kind) (found : String)
  /-- A second argument that is no name. -/
  | notAName (kind : Kind) (found : String)
  /-- Fewer arguments after the name than the kind needs. -/
  | missingArguments (kind : Kind) (name : String) (found : Nat)
deriving DecidableEq, Repr

namespace Fault

def message : Fault → String
  | .unknownKind word => s!"unknown buffer kind '{Kind.macroName word}'"
  | .tooFew kind => s!"{kind.render} needs at least an element type and a name"
  | .notAType kind found => s!"{kind.render}: expected an element type, found {found}"
  | .notAName kind found => s!"{kind.render}: '{found}' is not a valid buffer name"
  | .missingArguments kind name found =>
    s!"{kind.render} '{name}' expects {kind.required} arguments after the name, found {found}"

def help? : Fault → Option String
  | .unknownKind _ =>
    some ("Known kinds: " ++ String.intercalate ", " (Kind.all.map Kind.render))
  | .missingArguments kind _ _ => some kind.usage
  | _ => none

/-- The problem shown for a fault, its place still open. -/
def problem (f : Fault) : Problem := .badDeclaration f.message f.help?

end Fault

/-- Element type and its spelling, name, and the other arguments of a call. -/
def parts (kind : Kind) :
    List Argument → Except Problem (ElementType × String × String × List Argument)
  | type :: name :: rest => do
    let typeName ← match type with
      | .words t => pure t
      | other => throw (Fault.notAType kind other.render).problem
    let element ← ElementType.parse typeName
    let name ← match name with
      | .words t =>
        if Text.isName t.toList then pure t else throw (Fault.notAName kind t).problem
      | other => throw (Fault.notAName kind other.render).problem
    if rest.length < kind.required then
      throw (Fault.missingArguments kind name rest.length).problem
    return (element, typeName, name, rest)
  | _ => throw (Fault.tooFew kind).problem

/-- Reads a declaration from the word of its macro and the text between the parentheses. -/
def read (word : String) (inner : List Char) (scope : List String) (path : String)
    (span : Span) (live : Bool) : Except Stop Declaration :=
  match Kind.ofWord? word with
  | none => .error (.problem (Fault.unknownKind word).problem)
  | some kind => do
    let (element, typeName, name, rest) ← parts kind (← Argument.readAll inner)
    return ⟨kind, element, typeName, name, rest, scope, path, span, live⟩

end Declaration

end EmbeddedBuffers
