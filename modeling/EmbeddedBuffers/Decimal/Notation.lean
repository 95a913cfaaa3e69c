import EmbeddedBuffers.Decimal.Shortest
import EmbeddedBuffers.Text.Radix
import EmbeddedBuffers.Text.Split

/-!
# Written decimals

Floating-point numbers as text: the shortest digits, positional where the number is neither
small nor great and with an exponent elsewhere, and the reading of a written decimal,
rounded to the nearest number.
-/

namespace EmbeddedBuffers.Decimal

/-- Digits around a point; `point` is the number of digits before it. -/
def placePoint (digits : List Char) (point : Int) : List Char × List Char :=
  if point ≤ 0 then (['0'], List.replicate (-point).toNat '0' ++ digits)
  else
    let n := point.toNat
    if digits.length ≤ n then (digits ++ List.replicate (n - digits.length) '0', [])
    else (digits.take n, digits.drop n)

/-- The numbers written without an exponent: those whose first digit stands at a power of ten
from `10 ^ low` to below `10 ^ high`. -/
structure Positional where
  low : Int
  high : Int
deriving DecidableEq, Repr

/-- Literals of a header are positional from `1e-4` to below `1e16`. -/
def Positional.literal : Positional := ⟨-4, 16⟩

/-- Numbers of a manifest are positional from `1e-5` to below `1e16`. -/
def Positional.manifest : Positional := ⟨-5, 16⟩

/-- How a positive number is written: positional with at least one digit on either side of
the point, or with one digit before the point and an exponent. -/
def render (p : Positional) (digits : List Char) (last : Int) : List Char :=
  let exponent := last + digits.length - 1
  if p.low ≤ exponent ∧ exponent < p.high then
    let (whole, fraction) := placePoint digits (exponent + 1)
    whole ++ '.' :: (if fraction.isEmpty then ['0'] else fraction)
  else
    let fraction := digits.drop 1
    digits.take 1 ++ (if fraction.isEmpty then [] else '.' :: fraction) ++
      'e' :: (toString exponent).toList

/-- The text of a pattern in a format. -/
def BinaryFormat.renderWith (f : BinaryFormat) (p : Positional) (bits : Nat) : String :=
  let sign (negative : Bool) : String := if negative then "-" else ""
  match f.decode bits with
  | .nan _ => "NaN"
  | .infinity negative => sign negative ++ "inf"
  | .finite negative m q =>
    if m = 0 then sign negative ++ "0.0"
    else
      let (c, k) := shortest f m q
      sign negative ++ String.ofList (Decimal.render p (Nat.toDigits 10 c) k)

/-- The text of a pattern as a literal. -/
def BinaryFormat.render (f : BinaryFormat) (bits : Nat) : String :=
  f.renderWith Positional.literal bits

/-- How `m · 2 ^ q` is written without an exponent; a whole number has no point. -/
def plain (f : BinaryFormat) (m : Nat) (q : Int) : String :=
  if m = 0 then "0"
  else
    let (c, k) := shortest f m q
    let digits := Nat.toDigits 10 c
    let (whole, fraction) := placePoint digits (k + digits.length)
    String.ofList (whole ++ if fraction.isEmpty then [] else '.' :: fraction)

/-! ## Reading -/

/-- A number as written. -/
inductive Written
  /-- `digits · 10 ^ exponent` with a sign. -/
  | number (negative : Bool) (digits : Nat) (exponent : Int)
  | infinity (negative : Bool)
  | nan (negative : Bool)
deriving DecidableEq, Repr

/-- An exponent: digits after an optional sign. -/
def exponent? : List Char → Option Int
  | '-' :: s => (Text.digits? 10 s).map fun n => -(n : Int)
  | '+' :: s => (Text.digits? 10 s).map Int.ofNat
  | s => (Text.digits? 10 s).map Int.ofNat

/-- Digits with a point among or around them, and an exponent after them. -/
def unsignedNumber? (s : List Char) : Option (Nat × Int) :=
  let whole := s.takeWhile Char.isDigit
  let rest := s.dropWhile Char.isDigit
  let (fraction, rest) := match rest with
    | '.' :: rest => (rest.takeWhile Char.isDigit, rest.dropWhile Char.isDigit)
    | _ => ([], rest)
  match Text.digits? 10 (whole ++ fraction) with
  | none => none
  | some digits =>
    let shift : Int := -(fraction.length : Int)
    match rest with
    | [] => some (digits, shift)
    | 'e' :: rest | 'E' :: rest => (exponent? rest).map fun e => (digits, e + shift)
    | _ => none

/-- A number, an infinity or no number after its sign. -/
def unsigned? (negative : Bool) (s : List Char) : Option Written :=
  let word := String.ofList (Text.lower s)
  if word = "inf" ∨ word = "infinity" then some (.infinity negative)
  else if word = "nan" then some (.nan negative)
  else (unsignedNumber? s).map fun (digits, exponent) => .number negative digits exponent

/-- Reads a written decimal. -/
def read? : List Char → Option Written
  | '-' :: s => unsigned? true s
  | '+' :: s => unsigned? false s
  | s => unsigned? false s

/-- The pattern nearest to a written decimal. Where digits and exponent leave no doubt that
the number is too great or too small for 64 bits, no power is computed. -/
def Written.toBits (f : BinaryFormat) : Written → Nat
  | .nan negative => f.signBits negative + f.nanBits
  | .infinity negative => f.signBits negative + f.infinityBits
  | .number negative digits exponent =>
    let size : Int := (Nat.toDigits 10 digits).length + exponent
    f.signBits negative +
      (if digits = 0 ∨ size < -400 then 0
      else if 400 < size then f.infinityBits
      else
        let (num, den) := scaleTen digits 1 (-exponent)
        f.nearest num den)

end EmbeddedBuffers.Decimal
