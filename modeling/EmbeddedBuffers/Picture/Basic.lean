import EmbeddedBuffers.Arithmetic

/-!
# Pictures

A decoded picture: rows of pixels with eight bits each of red, green, blue and opacity.
-/

namespace EmbeddedBuffers

/-- A pixel. -/
structure Pixel where
  red : UInt8
  green : UInt8
  blue : UInt8
  alpha : UInt8
deriving DecidableEq, Repr, Inhabited

/-- A picture, its pixels row by row. -/
structure Picture where
  width : Nat
  height : Nat
  pixels : Array Pixel
  size_eq : pixels.size = width * height
deriving DecidableEq, Repr

namespace Picture

/-- The picture without pixels. -/
def empty : Picture := ⟨0, 0, #[], rfl⟩

instance : Inhabited Picture := ⟨empty⟩

/-- The pixel at a place. -/
def get? (p : Picture) (x y : Nat) : Option Pixel :=
  if x < p.width ∧ y < p.height then p.pixels[y * p.width + x]? else none

/-- The pixel at a place; a transparent black one outside the picture. -/
def get (p : Picture) (x y : Nat) : Pixel := (p.get? x y).getD ⟨0, 0, 0, 0⟩

/-- All pixels, row by row. -/
def toList (p : Picture) : List Pixel := p.pixels.toList

/-- A picture from its pixels, where their number is right. -/
def ofPixels? (width height : Nat) (pixels : Array Pixel) : Option Picture :=
  if h : pixels.size = width * height then some ⟨width, height, pixels, h⟩ else none

end Picture

end EmbeddedBuffers
