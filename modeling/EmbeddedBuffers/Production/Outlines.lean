import EmbeddedBuffers.Decimal.Binary
import EmbeddedBuffers.Production.Basic

/-!
# Decoders for pictures and outlines

Decoders that know the formats of no picture and no typeface, but take those that stand decoded
in a tree: a picture as it is, and a typeface by the rectangles that are its outlines.
-/

namespace EmbeddedBuffers

namespace Typeface

/-- A fraction in single precision, as a fraction again. -/
def inSingle (num den : Nat) : Nat × Nat :=
  match Decimal.single.decode (Decimal.single.nearest num den) with
  | .finite _ m q => Decimal.scaleTwo m 1 (-q)
  | _ => (0, 1)

/-- A quotient rounded to the nearest whole number, halves upwards. -/
def roundHalfUp (num den : Nat) : Nat := (2 * num + den) / (2 * den)

/-- An advance in whole pixels. The scale, and the product with it, are in single precision,
which shows only where an advance is too large for a container anyway. -/
def advancePixels (t : Typeface) (size : Nat) (n : Int) : Int :=
  let (num, den) := inSingle size t.unitsPerEm
  let (num, den) := inSingle (n.natAbs * num) den
  n.sign * roundHalfUp num den

/-- A length on the design grid in pixels. -/
def scale (t : Typeface) (size : Nat) (n : Int) : Int := n * size / t.unitsPerEm

/-- A glyph in a size in pixels; the rectangle is covered in full. -/
def rasterize (t : Typeface) (size : Nat) (g : TypefaceGlyph) : GlyphBitmap :=
  let px := t.scale size
  let advance := t.advancePixels size g.advance
  match g.outline with
  | none => ⟨g.codePoint, 0, 0, advance, 0, 0, []⟩
  | some o =>
    let width := (px (o.right - o.left)).toNat
    let height := (px (o.top - o.bottom)).toNat
    ⟨g.codePoint, px o.left, px o.bottom, advance, width, height,
      List.replicate (width * height) 255⟩

/-- All glyphs in a size. -/
def rasterizeAll (t : Typeface) (size : Nat) : List GlyphBitmap := t.glyphs.map (t.rasterize size)

end Typeface

/-- Decoders that take what stands decoded in a tree. -/
instance : Decoders where
  picture?
    | _, .picture p => some p
    | _, _ => none
  glyphs?
    | .typeface t, size => some (t.rasterizeAll size)
    | _, _ => none

end EmbeddedBuffers
