import EmbeddedBuffers.Decimal.Binary

/-!
# Shortest decimals

The fewest decimal digits that read back as a given binary number, and of those with so
few digits the nearest to it. For one digit, two digits and so on, the two neighbours of
the number on the grid of that many digits are tested, in exact arithmetic. The first grid
with a hit wins. Of two equally near neighbours the greater one is taken.
-/

namespace EmbeddedBuffers.Decimal

/-- `num / den · 10 ^ (-k)` as a fraction. -/
def scaleTen (num den : Nat) (k : Int) : Nat × Nat :=
  if 0 ≤ k then (num, den * 10 ^ k.toNat) else (num * 10 ^ (-k).toNat, den)

/-- Raises an exponent of ten while the power stays within a fraction. -/
def raiseExponent (num den : Nat) : (steps : Nat) → Int → Int
  | 0, k => k
  | steps + 1, k =>
    let (n, d) := scaleTen num den (k + 1)
    if d ≤ n then raiseExponent num den steps (k + 1) else k

/-- The exponent of the greatest power of ten that is not above a positive fraction. The
first guess is too small by at most three. -/
def decimalExponent (num den : Nat) : Int :=
  raiseExponent num den 4
    (((Nat.log2 num : Int) - (Nat.log2 den : Int)) * 30103 / 100000 - 2)

/-- The numbers that round to one binary number, in a unit of which it is `value`. -/
structure Rounding where
  low : Nat
  value : Nat
  high : Nat
  /-- Whether the ends belong to it. -/
  closed : Bool
  /-- The unit as a fraction. -/
  unitNum : Nat
  unitDen : Nat

namespace Rounding

/-- The numbers that round to `m · 2 ^ q`. Below a power of two the next number is only
half as far away, except at the lowest exponent. -/
def of (f : BinaryFormat) (m : Nat) (q : Int) : Rounding :=
  let narrow := m = 2 ^ f.fractionBits ∧ f.minExponent < q
  let (n, d) := scaleTwo 1 1 (2 - q)
  ⟨if narrow then 4 * m - 1 else 4 * m - 2, 4 * m, 4 * m + 2, m % 2 == 0, n, d⟩

/-- Whether `c · 10 ^ k` rounds to the number, the unit being `num / den` in units of
`10 ^ k`. -/
def admits (r : Rounding) (num den c : Nat) : Bool :=
  let low := r.low * num
  let high := r.high * num
  let point := c * den
  if r.closed then low ≤ point && point ≤ high else low < point && point < high

/-- The neighbour of the number on the grid of the multiples of `10 ^ k` that reads back. -/
def onGrid? (r : Rounding) (k : Int) : Option Nat :=
  let (num, den) := scaleTen r.unitNum r.unitDen k
  let below := r.value * num / den
  let above := below + 1
  match r.admits num den below, r.admits num den above with
  | false, false => none
  | true, false => some below
  | false, true => some above
  | true, true => if 2 * (r.value * num) < (below + above) * den then some below else some above

/-- Tries grids of more and more digits, of which the first has the step `10 ^ k`. -/
def search (r : Rounding) : (grids : Nat) → Int → Nat × Int
  | 0, k => (r.value * (scaleTen r.unitNum r.unitDen k).1 / (scaleTen r.unitNum r.unitDen k).2, k)
  | grids + 1, k =>
    match r.onGrid? k with
    | some c => (c, k)
    | none => r.search grids (k - 1)

end Rounding

/-- Drops zeros at the end of the digits, at most `limit` of them. -/
def dropZeros : (limit : Nat) → Nat × Int → Nat × Int
  | 0, x => x
  | limit + 1, (c, k) => if c % 10 = 0 ∧ c ≠ 0 then dropZeros limit (c / 10, k + 1) else (c, k)

/-- The shortest digits of `m · 2 ^ q`, which is positive, and the exponent of the last of
them. -/
def shortest (f : BinaryFormat) (m : Nat) (q : Int) : Nat × Int :=
  let r := Rounding.of f m q
  let e := decimalExponent (r.value * r.unitNum) r.unitDen
  dropZeros 20 (r.search 17 e)

end EmbeddedBuffers.Decimal
