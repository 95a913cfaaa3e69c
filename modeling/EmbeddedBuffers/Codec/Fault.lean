import EmbeddedBuffers.Problem

/-!
# Faults of compressed data

Why a parameter is refused, a stream cannot be read, or a container is not accepted.
-/

namespace EmbeddedBuffers.Codec

/-- The causes a codec can fail for. -/
inductive Fault
  /-- Fewer bits left than a field needs. -/
  | missingBits (need position left : Nat)
  /-- Fewer bytes left than a block needs. -/
  | missingBytes (need : Nat)
  | windowBits (got : Nat)
  | lengthBits (got : Nat)
  | elementWidth (got : Nat)
  /-- A reference to before the start of the data. -/
  | tooFarBack (distance decoded : Nat)
  /-- A reference past the declared length. -/
  | referenceOverrun (declared : Nat)
  /-- A run past the declared length. -/
  | runOverrun (count declared : Nat)
  | emptyContainer
  | unknownVersion (version : Nat)
  | unknownScheme (id : Nat)
  /-- More bytes than the length field can count. -/
  | tooLong (size : Nat)
  /-- A buffer that asks for no compression. -/
  | notCompressed (name : String)
  /-- A container of other parameters than those recorded with it. -/
  | otherParameters (held recorded : String)
deriving DecidableEq, Repr

namespace Fault

def message : Fault → String
  | .missingBits need position left =>
    s!"stream ends early: need {need} bits at bit {position}, {left} left"
  | .missingBytes need => s!"stream ends early: need {need} bytes"
  | .windowBits got => s!"LZSS window bits must be 1..=24, got {got}"
  | .lengthBits got => s!"LZSS length bits must be 1..=16, got {got}"
  | .elementWidth got => s!"RLE element width must be 1, 2, 4 or 8 bytes, got {got}"
  | .tooFarBack distance decoded =>
    s!"LZSS reference reaches {distance} bytes back with only {decoded} decoded"
  | .referenceOverrun declared =>
    s!"LZSS reference overruns the declared length of {declared} bytes"
  | .runOverrun count declared =>
    s!"RLE run of {count} overruns the declared length of {declared} bytes"
  | .emptyContainer => "empty container"
  | .unknownVersion version => s!"unsupported container version {version}"
  | .unknownScheme id => s!"unknown scheme id {id}"
  | .tooLong size => s!"payload of {size} bytes exceeds the 32-bit length field"
  | .notCompressed name => s!"'{name}' is not compressed; emit its raw bytes instead"
  | .otherParameters held recorded =>
    s!"container holds {held} but the payload records {recorded}"

def help? : Fault → Option String
  | .unknownVersion _ => some "This build reads version 1"
  | _ => none

/-- The problem shown for a fault. -/
def problem (f : Fault) : Problem := .codec f.message f.help?

end Fault

/-- A codec fault is a problem of the input. -/
instance : MonadLift (Except Fault) (Except Problem) where
  monadLift x := x.mapError Fault.problem

end EmbeddedBuffers.Codec
