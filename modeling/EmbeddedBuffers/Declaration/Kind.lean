import EmbeddedBuffers.Problem
import EmbeddedBuffers.Text.Split

/-!
# Kinds and element types

The seven kinds of buffers with the word that names each of them, and the twelve element
types that an emitted array can have.
-/

namespace EmbeddedBuffers

/-- What a declaration asks for. -/
inductive Kind
  | data | compressed | image | fixedFont | variableFont | mpff | jtag
deriving DecidableEq, Repr, Inhabited

namespace Kind

/-- All kinds, in the order in which messages list them. -/
def all : List Kind := [.data, .compressed, .image, .fixedFont, .variableFont, .mpff, .jtag]

/-- The word of a kind inside its macro, and the end of the emitted symbol. -/
def word : Kind → String
  | .data => "Data"
  | .compressed => "Compressed"
  | .image => "Image"
  | .fixedFont => "FixedFont"
  | .variableFont => "VariableFont"
  | .mpff => "Mpff"
  | .jtag => "Jtag"

/-- The kind that a word names. -/
def ofWord? (w : String) : Option Kind := all.find? (·.word == w)

/-- The macro around a word. -/
def macroName (w : String) : String := s!"BP{w}Buffer"

/-- The macro that declares a buffer of this kind. -/
def render (k : Kind) : String := macroName k.word

/-- Number of arguments that must follow the element type and the name. -/
def required : Kind → Nat
  | .data => 1
  | .compressed => 2
  | .image => 2
  | .fixedFont => 7
  | .variableFont => 6
  | .mpff => 1
  | .jtag => 3

/-- How a declaration of this kind is written. -/
def usage : Kind → String
  | .data => "BPDataBuffer(type, Name, \"path\")"
  | .compressed => "BPCompressedBuffer(type, Name, scheme, \"path\" | \x7bvalues...\x7d)"
  | .image => "BPImageBuffer(type, Name, format, \"path\")"
  | .fixedFont =>
    "BPFixedFontBuffer(type, Name, first, count, width, height, bits, rgb|a, \"path\")"
  | .variableFont =>
    "BPVariableFontBuffer(type, Name, first, count, height, bits, rgb|a, \"path\")"
  | .mpff => "BPMpffBuffer(type, Name, \"path\"[, pixel size])"
  | .jtag => "BPJtagBuffer(type, Name, svf, scheme, \"path\")"

end Kind

/-- Element type of an emitted array. -/
inductive ElementType
  | u8 | u16 | u32 | u64 | i8 | i16 | i32 | i64 | float | double | bool | char
deriving DecidableEq, Repr, Inhabited

namespace ElementType

/-- Bytes of one element. -/
def width : ElementType → Nat
  | .u8 | .i8 | .bool | .char => 1
  | .u16 | .i16 => 2
  | .u32 | .i32 | .float => 4
  | .u64 | .i64 | .double => 8

theorem width_pos (t : ElementType) : 0 < t.width := by cases t <;> decide

def isSigned : ElementType → Bool
  | .i8 | .i16 | .i32 | .i64 => true
  | _ => false

def isFloat : ElementType → Bool
  | .float | .double => true
  | _ => false

/-- The spellings of the element types, without the namespace `std`. -/
def spellings : List (String × ElementType) :=
  [("uint8_t", .u8), ("unsigned char", .u8), ("byte", .u8),
   ("uint16_t", .u16), ("unsigned short", .u16),
   ("uint32_t", .u32), ("unsigned int", .u32), ("unsigned", .u32),
   ("uint64_t", .u64), ("unsigned long long", .u64),
   ("int8_t", .i8), ("signed char", .i8),
   ("int16_t", .i16), ("short", .i16),
   ("int32_t", .i32), ("int", .i32),
   ("int64_t", .i64), ("long long", .i64),
   ("float", .float), ("double", .double), ("bool", .bool), ("char", .char)]

/-- The element type that a text names, its words any blanks apart. -/
def ofText? (s : List Char) : Option ElementType :=
  let bare := Text.squeeze s
  spellings.lookup
    (String.ofList ((Text.strip? ['s', 't', 'd', ':', ':'] bare).getD bare))

/-- `ofText?` with the problem for a text that names none. -/
def parse (text : String) : Except Problem ElementType :=
  match ofText? text.toList with
  | some t => .ok t
  | none =>
    let shown := Text.trimmed text
    .error (.badDeclaration s!"unsupported element type '{shown}'"
      (some ("Use a fixed-width integer type (uint8_t ... int64_t), float, double, " ++
        "bool or char")))

end ElementType

end EmbeddedBuffers
