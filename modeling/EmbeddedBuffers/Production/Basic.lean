import EmbeddedBuffers.Declaration.Basic
import EmbeddedBuffers.Files.Search
import EmbeddedBuffers.Macros
import EmbeddedBuffers.Notice

/-!
# Production

A producer makes the bytes of a declaration. It has two sides: the files it reads, which
are found without opening them, and the bytes with the same files. Both see the
declaration and a `Context`, and nothing else. Pictures and typefaces come in formats that
others decode; what they do is a parameter, `Decoders`.
-/

namespace EmbeddedBuffers

/-- What a producer may look at besides the declaration. -/
structure Context where
  tree : FileTree
  search : PathSet
  macros : Macros
deriving Repr, Inhabited

/-- What others make of a file: the picture in it, which the name of the file may help to
recognise, and the glyphs of the typeface in it, rasterised in a size in pixels and in no
particular order. -/
class Decoders where
  picture? (path : String) (content : Content) : Option Picture
  glyphs? (content : Content) (size : Nat) : Option (List GlyphBitmap)

/-- The bytes of a buffer and the files they were read from. -/
structure Produced where
  bytes : List UInt8
  dependencies : List String
deriving DecidableEq, Repr, Inhabited

/-- Both sides of a producer. -/
structure Producer where
  dependencies : Declaration → Context → Except Problem (List String)
  produce : Declaration → Context → Noted Produced

namespace Declaration

/-- A problem with making the bytes of a declaration. -/
def failure (d : Declaration) (message : String) : Problem :=
  .badProduction d.qualifiedName message

/-- An argument that names an option: without quotes, in lower case. -/
def optionArgument (d : Declaration) (index : Nat) (what : String) : Except Problem String := do
  let text ← d.textArgument index what
  return String.ofList (Text.lower (Text.bare text.toList))

end Declaration

namespace Context

/-- The file that an argument names, its placeholders filled in. -/
def path (ctx : Context) (d : Declaration) (index : Nat) : Except Problem String := do
  let text ← d.textArgument index "a data file path"
  let requested ← ctx.macros.substitute text
  ctx.search.resolve ctx.tree requested

/-- A file that was found, as a problem tells about it. -/
def opened {α : Type} (path : String) (x : Except FileFault α) : Except Problem α :=
  x.mapError fun f => .file path f.message

/-- The file that an argument names and its bytes. -/
def bytes (ctx : Context) (d : Declaration) (index : Nat) :
    Except Problem (String × List UInt8) := do
  let path ← ctx.path d index
  return (path, ← opened path (ctx.tree.readBytes path))

/-- The picture in a file that was found. -/
def picture [Decoders] (ctx : Context) (d : Declaration) (path : String) :
    Except Problem Picture := do
  match Decoders.picture? path (← opened path (ctx.tree.read path)) with
  | some p => return p
  | none => throw (d.failure s!"cannot decode image {path}")

/-- The glyphs of the typeface in a file that was found. -/
def glyphs [Decoders] (ctx : Context) (d : Declaration) (path : String) (size : Nat) :
    Except Problem (List GlyphBitmap) := do
  match Decoders.glyphs? (← opened path (ctx.tree.read path)) size with
  | some gs => return gs
  | none => throw (d.failure s!"cannot parse font {path}")

end Context

end EmbeddedBuffers
