import EmbeddedBuffers.Codec.Bits
import EmbeddedBuffers.Picture.Basic

/-!
# Pixel formats

The nine ways to store a pixel in a bitmap, and the bitmap of a picture: the codes of its
pixels row by row, most significant bit first, with no gap between pixels or rows. Only
the last byte is filled up with zeros.
-/

namespace EmbeddedBuffers

/-- How a pixel is stored. -/
inductive PixelFormat
  | rgba8888
  | rgb888
  | rgb565
  | rgba4444
  /-- Five bits of each colour with one of opacity between green and blue. -/
  | rgab5515
  /-- Four bits of grey. -/
  | r4
  | a4
  | r1
  | a1
deriving DecidableEq, Repr, Inhabited

/-- The high five, six and five bits of red, green and blue as a number of 16 bits. -/
def rgb565 (red green blue : Nat) : Nat :=
  (red &&& 0xF8) <<< 8 ||| (green &&& 0xFC) <<< 3 ||| blue >>> 3

namespace PixelFormat

def all : List PixelFormat :=
  [.rgba8888, .rgb888, .rgb565, .rgba4444, .rgab5515, .r4, .a4, .r1, .a1]

def render : PixelFormat → String
  | .rgba8888 => "rgba8888"
  | .rgb888 => "rgb888"
  | .rgb565 => "rgb565"
  | .rgba4444 => "rgba4444"
  | .rgab5515 => "rgab5515"
  | .r4 => "r4"
  | .a4 => "a4"
  | .r1 => "r1"
  | .a1 => "a1"

/-- The format that a name names. -/
def ofName? (name : String) : Option PixelFormat := all.find? (·.render == name)

/-- Width of a code. -/
def bits : PixelFormat → Nat
  | .rgba8888 => 32
  | .rgb888 => 24
  | .rgb565 | .rgba4444 | .rgab5515 => 16
  | .r4 | .a4 => 4
  | .r1 | .a1 => 1

/-- The code of a pixel. Grey is the rounded average of the colours, and one bit of it
tells whether their sum is beyond half. -/
def code (f : PixelFormat) (p : Pixel) : Nat :=
  let red := p.red.toNat
  let green := p.green.toNat
  let blue := p.blue.toNat
  let alpha := p.alpha.toNat
  match f with
  | .rgba8888 => red <<< 24 ||| green <<< 16 ||| blue <<< 8 ||| alpha
  | .rgb888 => red <<< 16 ||| green <<< 8 ||| blue
  | .rgb565 => EmbeddedBuffers.rgb565 red green blue
  | .rgba4444 =>
    (red &&& 0xF0) <<< 8 ||| (green &&& 0xF0) <<< 4 ||| (blue &&& 0xF0) |||
      (alpha &&& 0xF0) >>> 4
  | .rgab5515 =>
    let opaqueBit := if 0 < alpha then 0x20 else 0
    (red &&& 0xF8) <<< 8 ||| (green &&& 0xF8) <<< 3 ||| opaqueBit ||| blue >>> 3
  | .r4 => ((red + green + blue + 2) / 3) >>> 4
  | .a4 => alpha >>> 4
  | .r1 => if 384 < red + green + blue then 1 else 0
  | .a1 => if 0 < alpha then 1 else 0

end PixelFormat

/-- The bitmap of a picture. -/
def Picture.bitmap (p : Picture) (f : PixelFormat) : List UInt8 :=
  (p.toList.foldl (fun (w : Codec.BitWriter) pixel => w.write (f.code pixel) f.bits)
    .empty).finish

end EmbeddedBuffers
