import EmbeddedBuffers.Text.Blank
import EmbeddedBuffers.Text.Radix

/-!
# Integer literals

Whole numbers as C writes them: decimal, `0x` hexadecimal, `0b` binary, octal after a
leading zero, with a sign in front and `u` and `l` marks behind. The magnitude has to fit
64 bits and is then read as a signed word, so the upper half of the range comes out
negative.
-/

namespace EmbeddedBuffers.Text

/-- The marks that may follow the digits. -/
def isIntegerMark (c : Char) : Bool := c == 'u' || c == 'U' || c == 'l' || c == 'L'

/-- Radix and digits of an unsigned literal without its marks. A lone zero is decimal. -/
def literalRadix : List Char → Nat × List Char
  | '0' :: 'x' :: rest | '0' :: 'X' :: rest => (16, rest)
  | '0' :: 'b' :: rest | '0' :: 'B' :: rest => (2, rest)
  | '0' :: c :: rest => (8, c :: rest)
  | s => (10, s)

/-- Magnitude of an unsigned literal, marks allowed. -/
def magnitude? (s : List Char) : Option Nat :=
  let (radix, digits) := literalRadix (dropEndWhile isIntegerMark s)
  unsigned? radix (2 ^ 64) digits

/-- The signed 64-bit word that a literal denotes. -/
def integer? (s : List Char) : Option Int64 :=
  match trim s with
  | '-' :: rest => (magnitude? (trimStart rest)).map fun n => -(Int64.ofNat n)
  | '+' :: rest => (magnitude? rest).map Int64.ofNat
  | s => (magnitude? s).map Int64.ofNat

end EmbeddedBuffers.Text
