import EmbeddedBuffers.Decimal.Notation
import EmbeddedBuffers.Text.Blank

/-!
# YAML values

The values of a YAML document, and what a plain scalar stands for: nothing, a truth value, a
number or a text, after the core schema of YAML 1.2. A quoted scalar is always a text.
-/

namespace EmbeddedBuffers

/-- A value. Scalars keep their text. -/
inductive Yaml
  | plain (text : String)
  | quoted (text : String)
  | list (items : List Yaml)
  | map (entries : List (String × Yaml))
deriving Repr, Inhabited

namespace Yaml

/-- What a plain scalar stands for. -/
inductive Scalar
  | null
  | bool (b : Bool)
  | integer (n : Int)
  /-- A number with a fraction or an exponent, as a 64-bit pattern. -/
  | float (bits : Nat)
  | text
deriving DecidableEq, Repr

/-- Leading zeros before further digits make a number a text. -/
def hasLeadingZeros (s : List Char) : Bool :=
  match (match s with | '-' :: r | '+' :: r => r | _ => s) with
  | '0' :: c :: rest => (c :: rest).all Char.isDigit
  | _ => false

/-- A whole number without its sign: decimal, or `0x`, `0o` and `0b`. -/
def magnitude? : List Char → Option Nat
  | '0' :: 'x' :: rest => Text.digits? 16 rest
  | '0' :: 'o' :: rest => Text.digits? 8 rest
  | '0' :: 'b' :: rest => Text.digits? 2 rest
  | s => Text.digits? 10 s

/-- A whole number. -/
def integer? (s : List Char) : Option Int :=
  if hasLeadingZeros s then none
  else
    match s with
    | '-' :: rest => (magnitude? rest).map fun n => -(n : Int)
    | '+' :: rest => (magnitude? rest).map Int.ofNat
    | _ => (magnitude? s).map Int.ofNat

/-- A number with a fraction or an exponent. The words for what is not finite have a
point in front. -/
def float? (s : List Char) : Option Nat :=
  let bare := match s with | '+' :: r => r | _ => s
  let unsigned := String.ofList bare
  let word := String.ofList s
  let f := Decimal.double
  if hasLeadingZeros s then none
  else if unsigned = ".inf" ∨ unsigned = ".Inf" ∨ unsigned = ".INF" then some f.infinityBits
  else if word = "-.inf" ∨ word = "-.Inf" ∨ word = "-.INF" then
    some (f.signBits true + f.infinityBits)
  else if word = ".nan" ∨ word = ".NaN" ∨ word = ".NAN" then some f.nanBits
  else if s.head? = some '+' ∧ (bare.head? = some '+' ∨ bare.head? = some '-') then none
  else
    match (Decimal.read? bare).map (Decimal.Written.toBits f) with
    | some bits =>
      match f.decode bits with
      | .finite _ _ _ => some bits
      | _ => none
    | none => none

/-- What a plain scalar stands for. -/
def scalar (text : String) : Scalar :=
  let s := text.toList
  if text = "" ∨ text = "~" ∨ text = "null" ∨ text = "Null" ∨ text = "NULL" then .null
  else if text = "true" ∨ text = "True" ∨ text = "TRUE" then .bool true
  else if text = "false" ∨ text = "False" ∨ text = "FALSE" then .bool false
  else
    match integer? s with
    | some n => if -(2 ^ 127) ≤ n ∧ n < 2 ^ 128 then .integer n else asFloat s
    | none => asFloat s
where
  asFloat (s : List Char) : Scalar :=
    match float? s with
    | some bits => .float bits
    | none => .text

end Yaml

end EmbeddedBuffers
