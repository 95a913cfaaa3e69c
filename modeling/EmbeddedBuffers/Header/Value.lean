import EmbeddedBuffers.Decimal.Notation
import EmbeddedBuffers.Declaration.Kind
import EmbeddedBuffers.Elements

/-!
# Array values

The bytes of a buffer as C++ literals of its element type. Signed types are read in two's
complement, and the least number, whose magnitude has no literal of the type, is written
as a difference. Infinities and values that are no numbers are named through
`std::numeric_limits`.
-/

namespace EmbeddedBuffers.Header

/-- An array value as written. -/
structure Value where
  text : String
  /-- Whether it names `std::numeric_limits`. -/
  needsLimits : Bool
deriving DecidableEq, Repr, Inhabited

/-- Upper-case hexadecimal with at least `width` digits. -/
def hexUpper (width n : Nat) : String :=
  String.ofList ((Text.hexFixed width n).toList.map Char.toUpper)

/-- A number of `width` bytes read in two's complement. -/
def signedValue (width n : Nat) : Int :=
  if n < 2 ^ (8 * width - 1) then n else (n : Int) - 2 ^ (8 * width)

/-- The literal of a signed number of `width` bytes. -/
def signedLiteral (width n : Nat) : String :=
  let value := signedValue width n
  let digits := 2 * width
  if value = -(2 ^ (8 * width - 1)) then
    s!"(-0x{hexUpper digits (value + 1).natAbs} - 1)"
  else if value < 0 then s!"-0x{hexUpper digits value.natAbs}"
  else s!"0x{hexUpper digits value.natAbs}"

/-- The literal of a bit pattern of a floating-point type. -/
def floatLiteral (format : Decimal.BinaryFormat) (typeName mark : String) (bits : Nat) :
    Value :=
  match format.decode bits with
  | .nan _ => ⟨s!"std::numeric_limits<{typeName}>::quiet_NaN()", true⟩
  | .infinity negative =>
    let sign := if negative then "-" else ""
    ⟨s!"{sign}std::numeric_limits<{typeName}>::infinity()", true⟩
  | .finite _ _ _ => ⟨format.render bits ++ mark, false⟩

/-- The literal of one element. -/
def Value.of (t : ElementType) (n : Nat) : Value :=
  match t with
  | .bool => ⟨if n = 0 then "false" else "true", false⟩
  | .char => ⟨s!"'\\x{hexUpper 2 n}'", false⟩
  | .float => floatLiteral Decimal.single "float" "f" n
  | .double => floatLiteral Decimal.double "double" "" n
  | .i8 | .i16 | .i32 | .i64 => ⟨signedLiteral t.width n, false⟩
  | .u8 | .u16 | .u32 | .u64 => ⟨s!"0x{hexUpper (2 * t.width) n}", false⟩

/-- The literals of some data, element by element. -/
def values (t : ElementType) (data : List UInt8) : List Value :=
  (Elements.ofBytes t.width data).map (Value.of t)

end EmbeddedBuffers.Header
