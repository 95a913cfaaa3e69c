import EmbeddedBuffers.Font.Typeface
import EmbeddedBuffers.Text.Radix

/-!
# MPFF containers

A rasterised font in one block: the mark `MPFF`, a version, the size in pixels, the number
of glyphs, and for each glyph its code point, its metrics and its coverage row by row.
Fields of more than one byte have their low byte first. What does not fit its field is
refused.
-/

namespace EmbeddedBuffers.Font.Container

/-- The first bytes of a container. -/
def mark : List UInt8 := [0x4D, 0x50, 0x46, 0x46]

def version : UInt8 := 1

/-- Size in pixels when none is asked for. -/
def defaultSize : Nat := 16

/-- A number in `count` bytes, negative ones in two's complement. -/
def lowFirst (count : Nat) (n : Int) : List UInt8 :=
  (List.range count).map fun i => UInt8.ofNat ((n / 256 ^ i) % 256).toNat

/-- Why a font does not fit the format. -/
inductive Fault
  | tooMany (count : Nat)
  | outOfRange (codePoint : Nat) (what : String) (value : Int)
deriving DecidableEq, Repr

/-- A code point as `U+0041`. -/
def codePointText (n : Nat) : String :=
  "U+" ++ String.ofList ((Text.hexFixed 4 n).toList.map Char.toUpper)

def Fault.message : Fault → String
  | .tooMany count => s!"{count} glyphs do not fit the 16-bit glyph count"
  | .outOfRange codePoint what value =>
    s!"glyph {codePointText codePoint}: {what} {value} is out of range"

/-- A signed metric in 16 bits. -/
def signedField (g : GlyphBitmap) (what : String) (n : Int) : Except Fault (List UInt8) :=
  if -(2 ^ 15) ≤ n ∧ n < 2 ^ 15 then .ok (lowFirst 2 n)
  else .error (.outOfRange g.codePoint what n)

/-- A metric in 16 bits that is not negative. -/
def unsignedField (g : GlyphBitmap) (what : String) (n : Int) : Except Fault (List UInt8) :=
  if 0 ≤ n ∧ n < 2 ^ 16 then .ok (lowFirst 2 n)
  else .error (.outOfRange g.codePoint what n)

/-- The record of a glyph. -/
def glyph (g : GlyphBitmap) : Except Fault (List UInt8) := do
  let xmin ← signedField g "xmin" g.xmin
  let ymin ← signedField g "ymin" g.ymin
  let advance ← unsignedField g "advance" g.advance
  let width ← unsignedField g "width" g.width
  let height ← unsignedField g "height" g.height
  return lowFirst 4 g.codePoint ++ xmin ++ ymin ++ advance ++ width ++ height ++ g.coverage

/-- The container of a font in a size. -/
def write (size : Nat) (glyphs : List GlyphBitmap) : Except Fault (List UInt8) := do
  if 2 ^ 16 ≤ glyphs.length then throw (.tooMany glyphs.length)
  let records ← glyphs.mapM glyph
  return mark ++ [version] ++ lowFirst 2 size ++ lowFirst 2 glyphs.length ++ records.flatten

end EmbeddedBuffers.Font.Container
