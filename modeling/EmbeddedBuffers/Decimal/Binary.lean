import EmbeddedBuffers.Arithmetic

/-!
# Binary floating point

The numbers of the binary interchange formats as exact values, and the rounding of a
fraction to the nearest of them, ties to the one with an even significand. Bit patterns
are natural numbers, so nothing here depends on a machine.
-/

namespace EmbeddedBuffers.Decimal

/-- A binary interchange format: a sign, an exponent and a fraction. -/
structure BinaryFormat where
  fractionBits : Nat
  exponentBits : Nat
deriving DecidableEq, Repr

/-- 32 bits. -/
def single : BinaryFormat := ⟨23, 8⟩

/-- 64 bits. -/
def double : BinaryFormat := ⟨52, 11⟩

/-- What a bit pattern denotes: `m · 2 ^ q` with a sign, an infinity, or no number. -/
inductive BinaryValue
  | finite (negative : Bool) (m : Nat) (q : Int)
  | infinity (negative : Bool)
  | nan (negative : Bool)
deriving DecidableEq, Repr

namespace BinaryFormat

/-- The exponent that belongs to the last place of the smallest numbers. -/
def minExponent (f : BinaryFormat) : Int :=
  2 - (2 ^ (f.exponentBits - 1) : Nat) - f.fractionBits

/-- The pattern of the positive infinity. -/
def infinityBits (f : BinaryFormat) : Nat := (2 ^ f.exponentBits - 1) * 2 ^ f.fractionBits

/-- The pattern of the quiet value that is no number. -/
def nanBits (f : BinaryFormat) : Nat := f.infinityBits + 2 ^ (f.fractionBits - 1)

/-- The sign as a part of a pattern. -/
def signBits (f : BinaryFormat) (negative : Bool) : Nat :=
  if negative then 2 ^ (f.exponentBits + f.fractionBits) else 0

/-- What a pattern denotes. -/
def decode (f : BinaryFormat) (bits : Nat) : BinaryValue :=
  let fraction := bits % 2 ^ f.fractionBits
  let exponent := bits / 2 ^ f.fractionBits % 2 ^ f.exponentBits
  let negative := bits / 2 ^ (f.fractionBits + f.exponentBits) % 2 == 1
  if exponent = 2 ^ f.exponentBits - 1 then
    if fraction = 0 then .infinity negative else .nan negative
  else if exponent = 0 then .finite negative fraction f.minExponent
  else .finite negative (2 ^ f.fractionBits + fraction) (f.minExponent + (exponent - 1 : Nat))

end BinaryFormat

/-- `num / den · 2 ^ (-q)` as a fraction. -/
def scaleTwo (num den : Nat) (q : Int) : Nat × Nat :=
  if 0 ≤ q then (num, den * 2 ^ q.toNat) else (num * 2 ^ (-q).toNat, den)

/-- The quotient rounded to the nearest number, ties to the even one. -/
def roundEven (num den : Nat) : Nat :=
  let quotient := num / den
  let twice := 2 * (num % den)
  if den < twice ∨ (twice = den ∧ quotient % 2 = 1) then quotient + 1 else quotient

/-- The exponent of the greatest power of two that is not above a positive fraction. -/
def binaryExponent (num den : Nat) : Int :=
  let t : Int := (Nat.log2 num : Int) - (Nat.log2 den : Int)
  let (n, d) := scaleTwo num den t
  if d ≤ n then t else t - 1

/-- The pattern nearest to a fraction that is not negative. -/
def BinaryFormat.nearest (f : BinaryFormat) (num den : Nat) : Nat :=
  if num = 0 then 0
  else
    let q := max f.minExponent (binaryExponent num den - f.fractionBits)
    let (n, d) := scaleTwo num den q
    let m := roundEven n d
    let one := 2 ^ f.fractionBits
    let bits := if m < one then m else ((q - f.minExponent).toNat + 1) * one + (m - one)
    min bits f.infinityBits

/-- The pattern in one format nearest to what a pattern denotes in another. -/
def BinaryFormat.convert (source target : BinaryFormat) (bits : Nat) : Nat :=
  match source.decode bits with
  | .finite negative m q =>
    let (n, d) := scaleTwo m 1 (-q)
    target.signBits negative + target.nearest n d
  | .infinity negative => target.signBits negative + target.infinityBits
  | .nan negative => target.signBits negative + target.nanBits

/-- The pattern nearest to a whole number. -/
def BinaryFormat.ofInt (f : BinaryFormat) (n : Int) : Nat :=
  f.signBits (n < 0) + f.nearest n.natAbs 1

end EmbeddedBuffers.Decimal
