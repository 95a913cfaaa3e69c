import EmbeddedBuffers.Picture.Block
import EmbeddedBuffers.Production.Basic

/-!
# Image buffers

Pictures as bitmaps in a pixel format, or block-compressed.
-/

namespace EmbeddedBuffers.Production

/-- How a picture is stored. -/
inductive ImageFormat
  | bitmap (f : PixelFormat)
  | blocks
deriving DecidableEq, Repr

/-- Reads an image format: `bitmap`, `bitmap_` with a pixel format, or `bc1`. -/
def ImageFormat.read (text : String) : Except String ImageFormat :=
  match Text.splitOnce '_' text.toList with
  | none =>
    if text = "bitmap" then .ok (.bitmap .rgb565)
    else if text = "bc1" then .ok .blocks
    else .error s!"unknown image format '{text}'"
  | some (first, rest) =>
    let name := String.ofList rest
    if first = "bitmap".toList then
      match PixelFormat.ofName? name with
      | some f => .ok (.bitmap f)
      | none => .error s!"unknown pixel format '{name}'"
    else .error s!"unknown image format '{text}'"

/-- The bytes of a picture. -/
def ImageFormat.encode (f : ImageFormat) (p : Picture) : List UInt8 :=
  match f with
  | .bitmap f => p.bitmap f
  | .blocks => p.blocks

/-- A picture in the format that the first argument names. -/
def image [Decoders] : Producer where
  dependencies d ctx := do return [← ctx.path d 1]
  produce d ctx := do
    let format ← d.optionArgument 0 "an image format"
    let format ← ((ImageFormat.read format).mapError d.failure : Except Problem _)
    let path ← ctx.path d 1
    let picture ← ctx.picture d path
    return ⟨format.encode picture, [path]⟩

end EmbeddedBuffers.Production
