import EmbeddedBuffers.Picture.Basic

/-!
# Glyph coverage

How much of a pixel a glyph covers, read from a picture, and the packed columns of a
glyph. A glyph is stored column by column. Within a column the pixels share bytes, the
topmost in the lowest bits, and a column fills whole bytes.
-/

namespace EmbeddedBuffers.Font

/-- The channel of a picture that holds the coverage. -/
inductive Channel
  /-- The rounded average of red, green and blue. -/
  | rgb
  | alpha
deriving DecidableEq, Repr, Inhabited

namespace Channel

def render : Channel → String
  | .rgb => "rgb"
  | .alpha => "a"

/-- The channel that a name names. -/
def ofName? (name : String) : Option Channel := [rgb, alpha].find? (·.render == name)

/-- The coverage of a pixel. -/
def coverage (c : Channel) (p : Pixel) : Nat :=
  match c with
  | .rgb => (p.red.toNat + p.green.toNat + p.blue.toNat + 2) / 3
  | .alpha => p.alpha.toNat

end Channel

/-- A rectangle of a picture. -/
structure Cell where
  left : Nat
  top : Nat
  width : Nat
  height : Nat
deriving DecidableEq, Repr, Inhabited

/-- Number of bytes of a column of a given height. -/
def columnBytes (height bits : Nat) : Nat := (height + (8 / bits - 1)) / (8 / bits)

/-- A byte from the coverage of at most `8 / bits` pixels, the first in the lowest bits. -/
def packByte (bits : Nat) : List Nat → Nat
  | [] => 0
  | value :: values => value >>> (8 - bits) + 2 ^ bits * packByte bits values

/-- The packed columns of a rectangle of a picture. -/
def columns (p : Picture) (c : Channel) (bits : Nat) (cell : Cell) : List UInt8 :=
  let perByte := 8 / bits
  (List.range cell.width).flatMap fun x =>
    (List.range (columnBytes cell.height bits)).map fun k =>
      let rows := (List.range perByte).filter fun i => k * perByte + i < cell.height
      UInt8.ofNat (packByte bits (rows.map fun i =>
        c.coverage (p.get (cell.left + x) (cell.top + (k * perByte + i)))))

end EmbeddedBuffers.Font
