import EmbeddedBuffers.Codec.Container

/-!
# Notices

What a run has to say besides its result. Notices are kept in the order in which they
arise, also when the run stops.
-/

namespace EmbeddedBuffers

/-- What is worth telling. -/
inductive Notice
  /-- A font picture that holds fewer glyphs than asked for. -/
  | fewGlyphs (name path : String) (found wanted : Nat)
  /-- An encoded buffer that does not read back. -/
  | defect (d : Codec.Defect)
deriving DecidableEq, Repr

namespace Notice

/-- Whether the program itself is at fault. -/
def isError : Notice → Bool
  | .fewGlyphs _ _ _ _ => false
  | .defect _ => true

def message : Notice → String
  | .fewGlyphs name path found wanted => s!"{name}: {path} holds {found} of {wanted} glyphs"
  | .defect d => d.render

/-- The line of the log. -/
def render (n : Notice) : String :=
  (if n.isError then "ERROR: " else "WARN: ") ++ n.message

end Notice

/-- A computation that may stop and that leaves notices. -/
abbrev Noted := ExceptT Stop (StateM (List Notice))

namespace Noted

/-- Leaves a notice. -/
def tell (n : Notice) : Noted Unit := modify (· ++ [n])

/-- Result and notices of a computation. -/
def outcome {α : Type} (x : Noted α) : Except Stop α × List Notice := x.run.run []

end Noted

/-- A computation without notices. -/
instance : MonadLift (Except Stop) Noted where
  monadLift
    | .ok a => pure a
    | .error s => throw s

instance : MonadLift (Except Problem) Noted where
  monadLift
    | .ok a => pure a
    | .error p => throw (.problem p)

end EmbeddedBuffers
