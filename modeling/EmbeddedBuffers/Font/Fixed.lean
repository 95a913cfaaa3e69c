import EmbeddedBuffers.Font.Coverage

/-!
# Fixed fonts

A picture as a grid of equal cells, read row by row. Every cell that lies in the picture as
a whole is a glyph, up to the number asked for.
-/

namespace EmbeddedBuffers.Font

/-- The cells of a grid, row by row, at most `count` of them. -/
def grid (p : Picture) (width height count : Nat) : List Cell :=
  let columns := p.width / width
  let rows := p.height / height
  (List.range (min count (columns * rows))).map fun k =>
    ⟨k % columns * width, k / columns * height, width, height⟩

/-- The glyphs of a fixed font. -/
def fixedGlyphs (p : Picture) (c : Channel) (bits width height count : Nat) :
    List (List UInt8) :=
  (grid p width height count).map (columns p c bits)

end EmbeddedBuffers.Font
