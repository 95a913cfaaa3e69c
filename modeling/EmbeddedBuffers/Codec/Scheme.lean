import EmbeddedBuffers.Codec.Lzss
import EmbeddedBuffers.Codec.Rle
import EmbeddedBuffers.Codec.Search
import EmbeddedBuffers.Text.Radix
import EmbeddedBuffers.Text.Split

/-!
# Schemes

A scheme is a way to encode a buffer with all its parameters. A request is what a
declaration asks for, which may leave the choice of the parameters open.
-/

namespace EmbeddedBuffers.Codec

/-- A way to encode a buffer. -/
inductive Scheme
  | stored
  | lzss (p : Lzss)
  | rle (p : Rle)
deriving DecidableEq, Repr, Inhabited

namespace Scheme

/-- The number of a scheme in a container. -/
def id : Scheme → Nat
  | .stored => 0
  | .lzss _ => 1
  | .rle _ => 2

/-- Among equally short containers the one that is decoded most cheaply comes first. -/
def rank : Scheme → Nat
  | .stored => 0
  | .rle _ => 1
  | .lzss _ => 2

def render : Scheme → String
  | .stored => "stored"
  | .lzss p => p.render
  | .rle p => p.render

/-- Whether machine words hold all that is computed from the parameters. -/
def fitsWord : Scheme → Bool
  | .stored => true
  | .lzss p => p.fitsWord
  | .rle p => p.fitsWord

end Scheme

/-- What a declaration asks for. -/
inductive Request
  /-- The bytes as they are. -/
  | none
  /-- LZSS with given field widths. -/
  | lzss (windowBits lengthBits : Nat)
  /-- The shortest of the best LZSS stream within limits, RLE, and stored bytes. -/
  | auto (limits : SearchLimits)
  /-- RLE with a given element width in bytes, or with that of the buffer. -/
  | rle (width : Option Nat)
deriving DecidableEq, Repr, Inhabited

namespace Request

def isNone : Request → Bool
  | .none => true
  | _ => false

/-- The problem with a text that is no request. -/
def unknown (text : List Char) : Problem :=
  let shown := String.ofList (Text.trim text)
  .badDeclaration s!"unknown compression scheme '{shown}'"
    (some ("Use none, lzss, lzss_auto, lzss_auto_<W>_<L>, lzss_<W>_<L>, rle or " ++
      "rle_<8|16|32|64>"))

/-- Reads a request such as `lzss_auto_12_8` or `rle_16`. -/
def read (text : List Char) : Except Problem Request :=
  let number (s : String) : Except Problem Nat :=
    match Text.unsigned? 10 (2 ^ 32) s.toList with
    | some n => .ok n
    | .none => .error (unknown text)
  match (Text.splitAt '_' (Text.lower (Text.bare text))).map String.ofList with
  | ["none"] => .ok .none
  | ["lzss"] | ["lzss", "auto"] => .ok (.auto {})
  | ["lzss", "auto", w, l] => do
    let w ← number w
    let l ← number l
    let _ ← Lzss.ofBits w l
    return .auto ⟨w, l⟩
  | ["lzss", w, l] => do
    let w ← number w
    let l ← number l
    let p ← Lzss.ofBits w l
    return .lzss p.windowBits p.lengthBits
  | ["rle"] => .ok (.rle .none)
  | ["rle", bits] => do
    let bits ← number bits
    if bits = 8 ∨ bits = 16 ∨ bits = 32 ∨ bits = 64 then return .rle (some (bits / 8))
    else throw (unknown text)
  | _ => .error (unknown text)

/-- `read` on a string. -/
def parse (text : String) : Except Problem Request := read text.toList

end Request

end EmbeddedBuffers.Codec
