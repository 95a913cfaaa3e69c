import EmbeddedBuffers.Production.Basic
import EmbeddedBuffers.Svf.Command
import EmbeddedBuffers.Text.Utf8

/-!
# JTAG buffers

SVF files as command streams.
-/

namespace EmbeddedBuffers.Production

/-- The command stream of an SVF file, which the first argument has to announce. -/
def jtag : Producer where
  dependencies d ctx := do return [← ctx.path d 2]
  produce d ctx := do
    let stream ← d.optionArgument 0 "a stream type"
    if stream ≠ "svf" then
      throw (.problem (d.failure s!"unsupported JTAG stream type '{stream}', expected svf"))
    let (path, bytes) ← (ctx.bytes d 2 : Except Problem _)
    match Svf.convert (Text.decodeLossy bytes) with
    | .ok data => return ⟨data, [path]⟩
    | .error (line, message) => throw (.problem (d.failure s!"{path}:{line}: {message}"))

end EmbeddedBuffers.Production
