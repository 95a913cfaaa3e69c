import EmbeddedBuffers.Production.Data
import EmbeddedBuffers.Production.Font
import EmbeddedBuffers.Production.Image
import EmbeddedBuffers.Production.Jtag

/-!
# Producers by kind

The producer of each kind of declaration, and the two things done with a live declaration:
finding the files it reads, and making its bytes. Both say where a declaration stands when
they fail. A dead declaration reads nothing and is never made.
-/

namespace EmbeddedBuffers

/-- The producer of each kind, where there is one. -/
structure Registry where
  get? : Kind → Option Producer

namespace Registry

/-- No producers. -/
def empty : Registry := ⟨fun _ => none⟩

/-- Sets the producer of a kind. -/
def register (r : Registry) (kind : Kind) (p : Producer) : Registry :=
  ⟨fun k => if k = kind then some p else r.get? k⟩

/-- The built-in producers. -/
def builtin [Decoders] : Registry where
  get?
    | .data => some (Production.file 0)
    | .compressed => some Production.compressed
    | .image => some Production.image
    | .fixedFont => some Production.fixedFont
    | .variableFont => some Production.variableFont
    | .mpff => some Production.rasterFont
    | .jtag => some Production.jtag

/-- The producer for a declaration. -/
def require (r : Registry) (d : Declaration) : Except Problem Producer :=
  match r.get? d.kind with
  | some p => .ok p
  | none => .error (d.failure s!"no producer registered for {d.kind.render}")

/-- The files that a declaration reads. -/
def dependencies (r : Registry) (ctx : Context) (d : Declaration) :
    Except Problem (List String) :=
  if !d.live then .ok []
  else
    (do (← r.require d).dependencies d ctx : Except Problem _).mapError
      (Problem.located d.path d.line)

/-- The bytes of a declaration. -/
def materialize (r : Registry) (ctx : Context) (d : Declaration) : Noted Produced :=
  ExceptT.adapt (Stop.located d.path d.line) do
    if !d.live then
      throw (.problem (d.failure "declaration is not live under the active definitions"))
    (← r.require d).produce d ctx

/-- The files that the live ones of some declarations read, each once. -/
def dependencySet (r : Registry) (ctx : Context) (ds : List Declaration) :
    Except Problem PathSet :=
  (ds.filter (·.live)).foldlM (fun set d => do return set.extend (← r.dependencies ctx d))
    .empty

end Registry

/-- The compression that a declaration asks for. -/
def Declaration.request (d : Declaration) : Except Problem Codec.Request :=
  match d.kind with
  | .compressed => scheme 0
  | .jtag => scheme 1
  | _ => .ok .none
where
  scheme (index : Nat) : Except Problem Codec.Request := do
    Codec.Request.parse (← d.textArgument index "a compression scheme")

end EmbeddedBuffers
