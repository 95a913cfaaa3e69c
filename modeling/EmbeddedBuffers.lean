import EmbeddedBuffers.Main
import EmbeddedBuffers.Proofs.Codec.BitStream
import EmbeddedBuffers.Proofs.Codec.LzssRoundTrip
import EmbeddedBuffers.Proofs.Codec.ElementBytes
import EmbeddedBuffers.Proofs.Codec.RleTokens
import EmbeddedBuffers.Proofs.Codec.RleStream
import EmbeddedBuffers.Proofs.Codec.RleLostSentinel
import EmbeddedBuffers.Proofs.Codec.RleRoundTrip
import EmbeddedBuffers.Proofs.Codec.Threads
import EmbeddedBuffers.Proofs.Codec.Automatic
import EmbeddedBuffers.Proofs.Codec.LocalOptimum
import EmbeddedBuffers.Proofs.Codec.Appended
import EmbeddedBuffers.Proofs.Codec.StoredBytes
import EmbeddedBuffers.Proofs.Codec.Accepted
import EmbeddedBuffers.Proofs.Codec.Guarded
import EmbeddedBuffers.Proofs.Codec.Untrusted
import EmbeddedBuffers.Proofs.Codec.SelfDelimiting
import EmbeddedBuffers.Proofs.Files.Following
import EmbeddedBuffers.Proofs.Files.Agreement
import EmbeddedBuffers.Proofs.Files.Replacement
import EmbeddedBuffers.Proofs.Files.Interruption
import EmbeddedBuffers.Proofs.Header.Recorded
import EmbeddedBuffers.Proofs.Header.Body
import EmbeddedBuffers.Proofs.Production.Reading
import EmbeddedBuffers.Proofs.Production.Dependencies
import EmbeddedBuffers.Proofs.Generation.Payloads
import EmbeddedBuffers.Proofs.Generation.Runs
import EmbeddedBuffers.Proofs.Generation.Writing
import EmbeddedBuffers.Proofs.Generation.UpToDate
import EmbeddedBuffers.Proofs.Generation.Interrupted
import EmbeddedBuffers.Proofs.Header.Complete
import EmbeddedBuffers.Proofs.Header.ReadingBack
import EmbeddedBuffers.Proofs.Header.Layout
import EmbeddedBuffers.Proofs.Header.Legible
import EmbeddedBuffers.Proofs.Source.StringLiterals
import EmbeddedBuffers.Proofs.Source.Words
import EmbeddedBuffers.Proofs.Source.Operands
import EmbeddedBuffers.Proofs.Source.ShownArguments
import EmbeddedBuffers.Proofs.Source.DirectiveLines
import EmbeddedBuffers.Proofs.Source.Trees
import EmbeddedBuffers.Proofs.Source.Headers
import EmbeddedBuffers.Proofs.Source.Lines
import EmbeddedBuffers.Proofs.Source.Conditional
import EmbeddedBuffers.Proofs.Source.Steps
import EmbeddedBuffers.Proofs.Source.Spellings
import EmbeddedBuffers.Proofs.Source.Events
import EmbeddedBuffers.Proofs.Source.Nesting
import EmbeddedBuffers.Proofs.Source.StrayCharacters
import EmbeddedBuffers.Proofs.Source.Crashes
import EmbeddedBuffers.Proofs.Source.DeadDeclarations
import EmbeddedBuffers.Proofs.Source.ByteNames
import EmbeddedBuffers.Proofs.Source.WrittenHeaders
import EmbeddedBuffers.Proofs.Source.Namespaces
import EmbeddedBuffers.Proofs.Generation.Repeated
import EmbeddedBuffers.Proofs.Generation.Threads
import EmbeddedBuffers.Proofs.Source.Repetitions
import EmbeddedBuffers.Proofs.Header.Identifiers
import EmbeddedBuffers.Proofs.Svf.Streams
import EmbeddedBuffers.Proofs.Codec.Estimates
import EmbeddedBuffers.Proofs.Codec.BreakEven
import EmbeddedBuffers.Proofs.Text.Numerals
import EmbeddedBuffers.Proofs.Text.Integers
import EmbeddedBuffers.Proofs.Condition.Grammar
import EmbeddedBuffers.Proofs.Text.Names
import EmbeddedBuffers.Proofs.Condition.Tokens
import EmbeddedBuffers.Proofs.Condition.Parsing
import EmbeddedBuffers.Proofs.Condition.Acceptance
import EmbeddedBuffers.Proofs.Condition.Meaning
import EmbeddedBuffers.Proofs.Condition.Printing
import EmbeddedBuffers.Proofs.Codec.Demands
import EmbeddedBuffers.Proofs.Codec.ByteStreams
import EmbeddedBuffers.Proofs.Codec.Items
import EmbeddedBuffers.Proofs.Header.Denotations
import EmbeddedBuffers.Proofs.Source.Parts
import EmbeddedBuffers.Proofs.Production.Scalars
import EmbeddedBuffers.Proofs.Production.InlineValues
import EmbeddedBuffers.Proofs.Picture.BlockDecoding
import EmbeddedBuffers.Proofs.Production.VariableFont
import EmbeddedBuffers.Proofs.Picture.Bitmaps
import EmbeddedBuffers.Proofs.Font.Containers
import EmbeddedBuffers.Proofs.Production.FixedFont
import EmbeddedBuffers.Proofs.Production.GuardedFonts
import EmbeddedBuffers.Proofs.Generation.Filtering
import EmbeddedBuffers.Proofs.Condition.Names
import EmbeddedBuffers.Proofs.Source.MacroNames
import EmbeddedBuffers.Proofs.Svf.ScanData
import EmbeddedBuffers.Proofs.Svf.Layout
import EmbeddedBuffers.Proofs.Svf.LayoutIndependence
import EmbeddedBuffers.Proofs.Source.Spans
import EmbeddedBuffers.Proofs.Placeholders
import EmbeddedBuffers.Proofs.Interleavings
import EmbeddedBuffers.Proofs.Codec.ParseRuns
