import EmbeddedBuffers.Font.Container
import EmbeddedBuffers.Font.Fixed
import EmbeddedBuffers.Font.Variable
import EmbeddedBuffers.Production.Basic

/-!
# Font buffers

Fonts cut from pictures, in cells of one width or of their own, and typefaces rasterised
into a container.
-/

namespace EmbeddedBuffers.Production

/-- What both kinds of cut fonts ask for. -/
structure FontRequest where
  first : Nat
  count : Nat
  height : Nat
  bits : Nat
  channel : Font.Channel
deriving DecidableEq, Repr

/-- Reads what both kinds of cut fonts ask for, the height, the depth and the colour mode
standing at the given arguments. -/
def FontRequest.read (d : Declaration) (height bits color : Nat) :
    Except Problem FontRequest := do
  let first ← d.numberArgument 0 "the first character code"
  let count ← d.numberArgument 1 "the glyph count"
  let height ← d.numberArgument height "the glyph height"
  let bits ← d.numberArgument bits "the bits per pixel"
  if bits ∉ [1, 2, 4, 8] then
    throw (d.failure s!"bits per pixel must be 1, 2, 4 or 8, got {bits}")
  if height = 0 then throw (d.failure "glyph height must be at least 1")
  let color ← d.optionArgument color "a colour mode"
  match Font.Channel.ofName? color with
  | some channel => return ⟨first, count, height, bits, channel⟩
  | none => throw (d.failure s!"unknown colour mode '{color}', expected rgb or a")

/-- Tells about glyphs that a picture lacks. -/
def tellMissing (d : Declaration) (path : String) (found wanted : Nat) : Noted Unit :=
  if found < wanted then Noted.tell (.fewGlyphs d.qualifiedName path found wanted) else pure ()

/-- A font in cells of one width. -/
def fixedFont [Decoders] : Producer where
  dependencies d ctx := do return [← ctx.path d 6]
  produce d ctx := do
    let r ← FontRequest.read d 3 4 5
    let width ← d.numberArgument 2 "the glyph width"
    if width = 0 then throw (.problem (d.failure "glyph width must be at least 1"))
    let path ← ctx.path d 6
    let picture ← ctx.picture d path
    let glyphs := Font.fixedGlyphs picture r.channel r.bits width r.height r.count
    tellMissing d path glyphs.length r.count
    return ⟨glyphs.flatten, [path]⟩

/-- The glyphs of a variable font as they are cut, and with the blank at its place. -/
def variableGlyphs (r : FontRequest) (p : Picture) : List Font.Glyph × List Font.Glyph :=
  let wanted := r.count - (if (Font.blankIndex? r.first r.count).isSome then 1 else 0)
  let cut := ((Font.cells p r.channel r.height).take wanted).map fun cell =>
    Font.Glyph.inked (Font.columns p r.channel r.bits cell)
  match Font.blankIndex? r.first r.count with
  | none => (cut, cut)
  | some i => (cut, cut.insertIdx (min i cut.length) (.blank (Font.blankSize r.height r.bits)))

/-- A font in cells of their own width. -/
def variableFont [Decoders] : Producer where
  dependencies d ctx := do return [← ctx.path d 5]
  produce d ctx := do
    let r ← FontRequest.read d 2 3 4
    let path ← ctx.path d 5
    let picture ← ctx.picture d path
    let (cut, glyphs) := variableGlyphs r picture
    let blank := Font.blankIndex? r.first r.count
    tellMissing d path cut.length (r.count - (if blank.isSome then 1 else 0))
    if blank.isSome ∧ 2 ^ 32 ≤ Font.blankSize r.height r.bits then throw (.crash .overflow)
    match Font.variableData glyphs with
    | .ok data => return ⟨data, [path]⟩
    | .error tooFar =>
      throw (.problem (d.failure
        s!"glyph data reaches {tooFar} bytes, beyond the 16-bit offset table"))

/-- Glyphs in the order of a container. -/
def byCodePoint (gs : List GlyphBitmap) : List GlyphBitmap :=
  gs.mergeSort fun a b => a.codePoint ≤ b.codePoint

/-- A typeface rasterised in the size that the second argument names. -/
def rasterFont [Decoders] : Producer where
  dependencies d ctx := do return [← ctx.path d 0]
  produce d ctx := do
    let size ←
      if 1 < d.arguments.length then d.numberArgument 1 "the pixel size"
      else pure Font.Container.defaultSize
    if size = 0 ∨ 2 ^ 16 ≤ size then
      throw (.problem (d.failure s!"pixel size {size} is out of range"))
    let path ← ctx.path d 0
    let glyphs ← ctx.glyphs d path size
    match Font.Container.write size (byCodePoint glyphs) with
    | .ok data => return ⟨data, [path]⟩
    | .error f => throw (.problem (d.failure f.message))

end EmbeddedBuffers.Production
