import EmbeddedBuffers.Picture.PixelFormat

/-!
# Block compression

BC1: eight bytes for every block of four by four pixels, block rows from the top. A block
holds two colours of 16 bits, low byte first, and for each pixel two bits that choose from
a palette made of the two. A block without transparent pixels has the greater colour
first and four colours in its palette; one with transparent pixels has the smaller colour
first, three colours, and the fourth choice for a transparent pixel. Places outside the
picture count as transparent.
-/

namespace EmbeddedBuffers.Block

/-- A colour whose parts have eight bits. -/
structure Color where
  red : Nat
  green : Nat
  blue : Nat
deriving DecidableEq, Repr, Inhabited

namespace Color

/-- Combines two colours part by part. -/
def zip (f : Nat → Nat → Nat) (a b : Color) : Color :=
  ⟨f a.red b.red, f a.green b.green, f a.blue b.blue⟩

/-- The colour as a number of 16 bits. -/
def pack (c : Color) : Nat := rgb565 c.red c.green c.blue

/-- The colour that a number of 16 bits stands for: the high bits of each part repeated
below it. -/
def unpack (n : Nat) : Color :=
  let red := n >>> 11 &&& 0x1F
  let green := n >>> 5 &&& 0x3F
  let blue := n &&& 0x1F
  ⟨red <<< 3 ||| red >>> 2, green <<< 2 ||| green >>> 4, blue <<< 3 ||| blue >>> 2⟩

/-- The mean of two colours with weights, rounded down. -/
def mix (a b : Color) (i j : Nat) : Color := zip (fun x y => (x * i + y * j) / (i + j)) a b

/-- The square of the distance of two numbers. -/
def square (a b : Nat) : Nat := (a - b + (b - a)) ^ 2

/-- The square of the distance of two colours. -/
def distance (a b : Color) : Nat :=
  square a.red b.red + square a.green b.green + square a.blue b.blue

end Color

/-- Opacity from which a pixel is not transparent. -/
def alphaThreshold : Nat := 128

/-- The colour of a pixel that is not transparent. -/
def visible? (p : Option Pixel) : Option Color :=
  match p with
  | some p =>
    if alphaThreshold ≤ p.alpha.toNat then some ⟨p.red.toNat, p.green.toNat, p.blue.toNat⟩
    else none
  | none => none

/-- The smallest and the greatest parts of some colours; black where there are none. -/
def range : List Color → Color × Color
  | [] => (⟨0, 0, 0⟩, ⟨0, 0, 0⟩)
  | c :: cs => (cs.foldl (Color.zip min) c, cs.foldl (Color.zip max) c)

/-- The colours to choose from between two ends. -/
def palette (transparent : Bool) (first second : Color) : List Color :=
  if transparent then [first, second, first.mix second 1 1]
  else [first, second, first.mix second 2 1, first.mix second 1 2]

/-- The index of the first entry of a palette nearest to a colour, `best` being the
distance and the index of the nearest so far. -/
def nearestFrom (c : Color) : (best : Nat × Nat) → (index : Nat) → List Color → Nat
  | best, _, [] => best.2
  | best, index, p :: ps =>
    if p.distance c < best.1 then nearestFrom c (p.distance c, index) (index + 1) ps
    else nearestFrom c best (index + 1) ps

/-- The index of the first entry of a palette nearest to a colour. -/
def nearest (c : Color) : List Color → Nat
  | [] => 0
  | p :: ps => nearestFrom c (p.distance c, 0) 1 ps

/-- The choice of a transparent pixel. -/
def transparentChoice : Nat := 3

/-- The choices of a block as a number, the first pixel in the lowest bits. -/
def choices (colors : List Color) : List (Option Color) → Nat
  | [] => 0
  | c :: cs =>
    (match c with
      | some c => nearest c colors
      | none => transparentChoice) + 4 * choices colors cs

/-- The low `count` bytes of a number, the lowest first. -/
def lowFirst : (count : Nat) → Nat → List UInt8
  | 0, _ => []
  | count + 1, n => UInt8.ofNat n :: lowFirst count (n / 256)

/-- The eight bytes of a block of sixteen pixels, row by row. -/
def encode (pixels : List (Option Pixel)) : List UInt8 :=
  let colors := pixels.map visible?
  let transparent := colors.any Option.isNone
  let (low, high) := range (colors.filterMap id)
  let (first, second) :=
    if transparent then (low.pack, high.pack) else (high.pack, low.pack)
  let colorsToChoose := palette transparent (.unpack first) (.unpack second)
  lowFirst 2 first ++ lowFirst 2 second ++ lowFirst 4 (choices colorsToChoose colors)

/-- The pixels of the block in a column and a row of blocks. -/
def pixels (p : Picture) (column row : Nat) : List (Option Pixel) :=
  (List.range 16).map fun i => p.get? (4 * column + i % 4) (4 * row + i / 4)

end EmbeddedBuffers.Block

namespace EmbeddedBuffers

/-- The blocks of a picture. -/
def Picture.blocks (p : Picture) : List UInt8 :=
  (List.range ((p.height + 3) / 4)).flatMap fun row =>
    (List.range ((p.width + 3) / 4)).flatMap fun column =>
      Block.encode (Block.pixels p column row)

end EmbeddedBuffers
