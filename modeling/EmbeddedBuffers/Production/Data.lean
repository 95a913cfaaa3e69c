import EmbeddedBuffers.Decimal.Notation
import EmbeddedBuffers.Elements
import EmbeddedBuffers.Production.Basic

/-!
# Data buffers

Buffers that hold a file as it is, and buffers with values that stand in the declaration
itself. A value is written with its high byte first, in the width of the element type. It
may be signed or unsigned: everything from the least signed to the greatest unsigned number of
that width fits.
-/

namespace EmbeddedBuffers

mutual

/-- The parts of an argument that are no lists, in order. -/
def Argument.leaves : Argument → List Argument
  | .list items => Argument.leavesOf items
  | a => [a]

/-- The parts of some arguments that are no lists, in order. -/
def Argument.leavesOf : List Argument → List Argument
  | [] => []
  | a :: rest => a.leaves ++ Argument.leavesOf rest

end

namespace Production

/-! ## Inline values -/

/-- The number that the text behind a backslash stands for. -/
def escapeCode? : List Char → Option Int
  | ['n'] => some 10
  | ['t'] => some 9
  | ['r'] => some 13
  | ['0'] => some 0
  | ['\\'] => some 92
  | ['\''] => some 39
  | ['"'] => some 34
  | 'x' :: digits => Text.signed? 16 64 digits
  | _ => none

/-- The number of a character literal. -/
def characterCode? (text : List Char) : Option Int :=
  match (Text.strip? ['\''] text).bind (Text.stripEnd? ['\'']) with
  | some ('\\' :: escape) => escapeCode? escape
  | some [c] => if c.toNat < 128 then some c.toNat else none
  | _ => none

/-- The number of an integer literal, a character literal or a truth value. -/
def scalar? (text : List Char) : Option Int :=
  if text = "true".toList then some 1
  else if text = "false".toList then some 0
  else if text.head? = some '\'' then characterCode? text
  else (Text.integer? text).map Int64.toInt

/-- The 64-bit pattern of a written number, which may end with an `f`. -/
def floatBits? (text : List Char) : Option Nat :=
  match Text.integer? text with
  | some n => some (Decimal.double.ofInt n.toInt)
  | none =>
    (Decimal.read? (Text.dropEndWhile (fun c => c == 'f' || c == 'F') text)).map
      (Decimal.Written.toBits Decimal.double)

/-- Whether a number fits an element type. -/
def fits (t : ElementType) (n : Int) : Bool :=
  match t with
  | .bool => 0 ≤ n && n ≤ 1
  | t => -(2 ^ (8 * t.width - 1)) ≤ n && n ≤ 2 ^ (8 * t.width) - 1

/-- Why an inline value is refused. -/
inductive ValueFault
  /-- A string in the place of a number. -/
  | notWords (shown : String)
  | notNumber (text : String)
  | outOfRange (text typeName : String)
deriving DecidableEq, Repr

def ValueFault.message : ValueFault → String
  | .notWords shown => s!"inline value {shown} is not a number"
  | .notNumber text => s!"inline value '{text}' is not a number"
  | .outOfRange text typeName => s!"value {text} does not fit in {typeName}"

/-- The bytes of an inline value. -/
def valueBytes (t : ElementType) (typeName : String) : Argument →
    Except ValueFault (List UInt8)
  | .words words =>
    let text := Text.trim words.toList
    let shown := String.ofList text
    match t with
    | .float =>
      match floatBits? text with
      | some bits => .ok (Elements.toBytes 4 (Decimal.double.convert Decimal.single bits))
      | none => .error (.notNumber shown)
    | .double =>
      match floatBits? text with
      | some bits => .ok (Elements.toBytes 8 bits)
      | none => .error (.notNumber shown)
    | t =>
      match scalar? text with
      | none => .error (.notNumber shown)
      | some n =>
        if fits t n then .ok (Elements.toBytes t.width (n % 2 ^ 64).toNat)
        else .error (.outOfRange shown typeName)
  | a => .error (.notWords a.render)

/-! ## Sources -/

/-- Whether an argument reads as a path and not as a value. -/
def isPath : Argument → Bool
  | .string _ => true
  | .words words =>
    let text := Text.trim words.toList
    !text.isEmpty && (Text.integer? text).isNone && (Decimal.read? text).isNone &&
      text.head? != some '\'' && text != "true".toList && text != "false".toList
  | .list _ => false

/-- Where the data of a compressed buffer come from. -/
inductive Source
  | file
  | values (vs : List Argument)
deriving Repr

/-- Source of a compressed buffer: a single path or values after the scheme. -/
def source (d : Declaration) : Except Problem Source :=
  match d.arguments.drop 1 with
  | [] => .error (d.failure "expects a data file path or inline values after the scheme")
  | [single] => if isPath single then .ok .file else .ok (.values single.leaves)
  | values => .ok (.values (Argument.leavesOf values))

/-- A file as it is. -/
def file (index : Nat) : Producer where
  dependencies d ctx := do return [← ctx.path d index]
  produce d ctx := do
    let (path, bytes) ← (ctx.bytes d index : Except Problem _)
    return ⟨bytes, [path]⟩

/-- A file, or the values of the declaration. -/
def compressed : Producer where
  dependencies d ctx := do
    match ← source d with
    | .file => (file 1).dependencies d ctx
    | .values _ => return []
  produce d ctx := do
    match ← (source d : Except Problem _) with
    | .file => (file 1).produce d ctx
    | .values vs =>
      let bytes ← (vs.mapM fun v => (valueBytes d.element d.typeName v).mapError fun f =>
        d.failure f.message : Except Problem _)
      return ⟨bytes.flatten, []⟩

end Production

end EmbeddedBuffers
