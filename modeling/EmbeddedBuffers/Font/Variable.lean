import EmbeddedBuffers.Font.Coverage

/-!
# Variable fonts

A picture as bands of equal height. In a band every run of neighbouring columns that hold
a visible pixel is a glyph. The blank has no visible pixel, so it is put in at its place.
The data start with a table that tells for every glyph where it ends, in 16 bits, the high
byte first.
-/

namespace EmbeddedBuffers.Font

/-- The character that no picture shows. -/
def blankCode : Nat := 0x20

/-- Whether a column of a band holds a visible pixel. -/
def isInked (p : Picture) (c : Channel) (top height x : Nat) : Bool :=
  (List.range height).any fun y => 0 < c.coverage (p.get x (top + y))

/-- The maximal runs of inked columns, from left to right, with their ends excluded;
`start` is the start of the open run and `x` the place of the first column. -/
def runsFrom : (start : Option Nat) → (x : Nat) → (inked : List Bool) → List (Nat × Nat)
  | none, _, [] => []
  | some s, x, [] => [(s, x)]
  | none, x, inked :: rest => runsFrom (if inked then some x else none) (x + 1) rest
  | some s, x, inked :: rest =>
    if inked then runsFrom (some s) (x + 1) rest else (s, x) :: runsFrom none (x + 1) rest

/-- The glyphs of a band. -/
def bandCells (p : Picture) (c : Channel) (height band : Nat) : List Cell :=
  let top := band * height
  let inked := (List.range p.width).map (isInked p c top height)
  (runsFrom none 0 inked).map fun (left, right) => ⟨left, top, right - left, height⟩

/-- The glyphs of all bands. -/
def cells (p : Picture) (c : Channel) (height : Nat) : List Cell :=
  (List.range (p.height / height)).flatMap (bandCells p c height)

/-- A glyph: packed columns, or so many bytes that are all zero. -/
inductive Glyph
  | inked (bytes : List UInt8)
  | blank (size : Nat)
deriving DecidableEq, Repr

namespace Glyph

def size : Glyph → Nat
  | .inked bytes => bytes.length
  | .blank n => n

def bytes : Glyph → List UInt8
  | .inked bytes => bytes
  | .blank n => List.replicate n 0

end Glyph

/-- The index of the blank among `count` characters from `first` on. -/
def blankIndex? (first count : Nat) : Option Nat :=
  if first ≤ blankCode ∧ blankCode < min (first + count) (2 ^ 32 - 1) then
    some (blankCode - first)
  else none

/-- Number of bytes of the blank in a height. -/
def blankSize (height bits : Nat) : Nat := max 1 (height / 3) * columnBytes height bits

/-- Where each glyph ends, counted from `start`. -/
def ends (start : Nat) : List Glyph → List Nat
  | [] => []
  | g :: gs => (start + g.size) :: ends (start + g.size) gs

/-- A number in 16 bits. -/
def wordBytes (n : Nat) : List UInt8 := [UInt8.ofNat (n / 256), UInt8.ofNat n]

/-- The table and the data of some glyphs, or the first end that the table cannot hold. -/
def variableData (glyphs : List Glyph) : Except Nat (List UInt8) :=
  match (ends 0 glyphs).find? (2 ^ 16 ≤ ·) with
  | some tooFar => .error tooFar
  | none => .ok ((ends 0 glyphs).flatMap wordBytes ++ glyphs.flatMap Glyph.bytes)

end EmbeddedBuffers.Font
