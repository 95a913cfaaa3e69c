/-!
# Elements

Data as numbers of a fixed width in bytes, the high byte first. Zeros fill up the last
number where the data end inside it.
-/

namespace EmbeddedBuffers.Elements

/-- The number that `width` bytes denote after the digits `high`; missing bytes are
zeros. -/
def valueFrom (high : Nat) : (width : Nat) → List UInt8 → Nat
  | 0, _ => high
  | width + 1, [] => valueFrom (high * 256) width []
  | width + 1, b :: rest => valueFrom (high * 256 + b.toNat) width rest

/-- Cuts data into numbers, those found already being in `out`. `value` is what is read of
the open one and `missing` the number of bytes it lacks. -/
def cut (width : Nat) : (value missing : Nat) → List UInt8 → Array Nat → Array Nat
  | value, missing, [], out =>
    if missing = width then out else out.push (valueFrom value missing [])
  | value, missing, b :: rest, out =>
    let value := value * 256 + b.toNat
    if missing ≤ 1 then cut width 0 width rest (out.push value)
    else cut width value (missing - 1) rest out

/-- The numbers that some data hold. -/
def ofBytes (width : Nat) (data : List UInt8) : List Nat := (cut width 0 width data #[]).toList

/-- The last `width` bytes of a number. -/
def toBytes : (width : Nat) → Nat → List UInt8
  | 0, _ => []
  | width + 1, value => UInt8.ofNat (value >>> (8 * width)) :: toBytes width value

end EmbeddedBuffers.Elements
