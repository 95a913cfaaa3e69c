import EmbeddedBuffers.Arithmetic

/-!
# Numerals

Reading and writing whole numbers in a radix up to 36. A reader takes digits alone,
`unsigned?` one plus sign before them and a bound above, `signed?` either sign. There is
no white space, no separator and no empty numeral.
-/

namespace EmbeddedBuffers.Text

/-- Value of a digit in a radix; letters stand for 10 and above in either case. -/
def digit? (radix : Nat) (c : Char) : Option Nat :=
  let value : Option Nat :=
    if c.isDigit then some (c.toNat - '0'.toNat)
    else if 'a' ≤ c ∧ c ≤ 'z' then some (c.toNat - 'a'.toNat + 10)
    else if 'A' ≤ c ∧ c ≤ 'Z' then some (c.toNat - 'A'.toNat + 10)
    else none
  value.filter (· < radix)

/-- Value of a run of digits whose value so far is `acc`. -/
def digitsFrom? (radix : Nat) : Nat → List Char → Option Nat
  | acc, [] => some acc
  | acc, c :: rest =>
    match digit? radix c with
    | some d => digitsFrom? radix (acc * radix + d) rest
    | none => none

/-- Value of a non-empty run of digits. -/
def digits? (radix : Nat) (s : List Char) : Option Nat :=
  if s.isEmpty then none else digitsFrom? radix 0 s

/-- Digits with at most one plus sign before them, for a number below `bound`. -/
def unsigned? (radix bound : Nat) (s : List Char) : Option Nat :=
  let body := match s with
    | '+' :: rest => rest
    | _ => s
  (digits? radix body).filter (· < bound)

/-- Digits with at most one sign before them, for a number of `bits` bits in two's
complement. -/
def signed? (radix bits : Nat) (s : List Char) : Option Int :=
  let limit : Int := 2 ^ (bits - 1)
  match s with
  | '-' :: rest => ((digits? radix rest).map fun n => -(n : Int)).filter (-limit ≤ ·)
  | '+' :: rest => ((digits? radix rest).map Int.ofNat).filter (· < limit)
  | _ => ((digits? radix s).map Int.ofNat).filter (· < limit)

/-- The digit of a value below 16, in lower case. -/
def hexDigit (n : Nat) : Char :=
  if n < 10 then Char.ofNat ('0'.toNat + n) else Char.ofNat ('a'.toNat + (n - 10))

/-- The last `width` hexadecimal digits of a number, most significant first. -/
def hexPadded : Nat → Nat → List Char
  | 0, _ => []
  | width + 1, n => hexPadded width (n / 16) ++ [hexDigit (n % 16)]

/-- A number in lower-case hexadecimal with at least `width` digits. -/
def hexFixed (width n : Nat) : String :=
  let digits := Nat.toDigits 16 n
  String.ofList (List.replicate (width - digits.length) '0' ++ digits)

end EmbeddedBuffers.Text
