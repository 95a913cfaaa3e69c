import EmbeddedBuffers.Production.Outlines
import EmbeddedBuffers.Proofs.Font.Columns
import EmbeddedBuffers.Proofs.Production.FontRequests

/-!
# Produced fixed fonts

A fixed font is made from every picture, whether or not its size is a multiple of that of the cells,
and it shows as many cells as were asked for and as there are. Main statement: `fixedFont_pixels`.
-/

namespace EmbeddedBuffers.Production

variable {d : Declaration} {ctx : Context} {r : FontRequest} {width : Nat} {path : String}
  {p : Picture}

/-- With its arguments read and its picture decoded, a fixed font is made. -/
theorem fixedFont_eq_ok [Decoders] (hread : FontRequest.read d 3 4 5 = .ok r)
    (hwidth : d.numberArgument 2 "the glyph width" = .ok width) (hpos : 0 < width)
    (hpath : ctx.path d 6 = .ok path) (hpicture : ctx.picture d path = .ok p) :
    (fixedFont.produce d ctx).outcome.1 =
      .ok ⟨(Font.fixedGlyphs p r.channel r.bits width r.height r.count).flatten, [path]⟩ := by
  unfold fixedFont
  dsimp only
  rw [hread, lift_ok_bind, hwidth, lift_ok_bind, if_neg (Nat.ne_of_gt hpos), hpath, lift_ok_bind,
    hpicture, lift_ok_bind]
  obtain ⟨notices, heq⟩ := tellMissing_bind (d := d) path _ _ _
  rw [heq]
  rfl

/-- **A fixed font shows its cells pixel by pixel**, as many as are asked for and as the picture
has, each with all its pixels in place and nothing else. -/
theorem fixedFont_pixels [Decoders] (hread : FontRequest.read d 3 4 5 = .ok r)
    (hwidth : d.numberArgument 2 "the glyph width" = .ok width) (hpos : 0 < width)
    (hpath : ctx.path d 6 = .ok path) (hpicture : ctx.picture d path = .ok p) :
    ∃ bytes, (fixedFont.produce d ctx).outcome.1 = .ok ⟨bytes, [path]⟩ ∧
      Font.ShowsGrid bytes p r.channel r.bits width r.height
        (min r.count (p.width / width * (p.height / r.height))) :=
  ⟨_, fixedFont_eq_ok hread hwidth hpos hpath hpicture,
    Font.showsGrid_fixedGlyphs (FontRequest.bits_dvd hread)⟩

/-- Five pixels by three: room for two cells of two by three, and a column is left. -/
def twoCells : Picture where
  width := 5
  height := 3
  pixels := #[⟨0, 0, 0, 255⟩, ⟨0, 0, 0, 0⟩, ⟨0, 0, 0, 16⟩, ⟨0, 0, 0, 0⟩, ⟨0, 0, 0, 255⟩,
    ⟨0, 0, 0, 0⟩, ⟨0, 0, 0, 255⟩, ⟨0, 0, 0, 32⟩, ⟨0, 0, 0, 0⟩, ⟨0, 0, 0, 255⟩,
    ⟨0, 0, 0, 255⟩, ⟨0, 0, 0, 0⟩, ⟨0, 0, 0, 48⟩, ⟨0, 0, 0, 64⟩, ⟨0, 0, 0, 255⟩]
  size_eq := rfl

/-- A font of three glyphs in cells of two by three pixels, four bits deep. -/
def cellsFont : Declaration :=
  ⟨.fixedFont, .u8, "uint8_t", "CELLS",
    [.words "65", .words "3", .words "2", .words "3", .words "4", .words "a", .string "cells"],
    [], "in.h", default, true⟩

def besideCells : Context where
  tree := ⟨[], [(["cells"], .file (.picture twoCells) 1)], 1⟩
  search := ⟨["."]⟩
  macros := .empty

/-- Two of the three glyphs are there; the third row of each has a byte of its own. -/
theorem fixedFont_pixels_cells :
    (fixedFont.produce cellsFont besideCells).outcome.1 =
      .ok ⟨[0x0F, 0x0F, 0xF0, 0, 0x21, 3, 0, 4], ["/cells"]⟩ ∧
    Font.ShowsGrid [0x0F, 0x0F, 0xF0, 0, 0x21, 3, 0, 4] twoCells .alpha 4 2 3 2 := by
  have hread : FontRequest.read cellsFont 3 4 5 = .ok ⟨65, 3, 3, 4, .alpha⟩ := by decide +kernel
  have hwidth : cellsFont.numberArgument 2 "the glyph width" = .ok 2 := by decide +kernel
  have hpath : besideCells.path cellsFont 6 = .ok "/cells" := by decide +kernel
  have hpicture : besideCells.picture cellsFont "/cells" = .ok twoCells := by decide +kernel
  have hmade : (fixedFont.produce cellsFont besideCells).outcome.1 =
      .ok ⟨[0x0F, 0x0F, 0xF0, 0, 0x21, 3, 0, 4], ["/cells"]⟩ := by decide +kernel
  obtain ⟨bytes, hbytes, hshows⟩ :=
    fixedFont_pixels hread hwidth (by decide : 0 < 2) hpath hpicture
  rw [hmade] at hbytes
  cases hbytes
  exact ⟨hmade, hshows⟩

end EmbeddedBuffers.Production
