/-!
# Typefaces

A scalable font, reduced to what rasterising it at a whole number of pixels needs: the size
of its design grid and, for every character, the advance and the rectangle that is inked. A
rasterised glyph is what is left of it in a size in pixels.
-/

namespace EmbeddedBuffers

/-- A rectangle on the design grid, from the lower left corner to the upper right one. -/
structure Outline where
  left : Int
  bottom : Int
  right : Int
  top : Int
deriving DecidableEq, Repr, Inhabited

/-- A character of a typeface. -/
structure TypefaceGlyph where
  codePoint : Nat
  advance : Int
  outline : Option Outline
deriving DecidableEq, Repr, Inhabited

/-- A scalable font. -/
structure Typeface where
  unitsPerEm : Nat
  glyphs : List TypefaceGlyph
deriving DecidableEq, Repr, Inhabited

/-- A rasterised glyph: metrics in pixels, the advance rounded to whole ones, and the coverage
row by row. -/
structure GlyphBitmap where
  codePoint : Nat
  xmin : Int
  ymin : Int
  advance : Int
  width : Nat
  height : Nat
  coverage : List UInt8
deriving DecidableEq, Repr, Inhabited

end EmbeddedBuffers
