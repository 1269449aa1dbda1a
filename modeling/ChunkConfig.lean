import ChunkConfig.Files
import ChunkConfig.Proofs.Building.Alike
import ChunkConfig.Proofs.Building.Built
import ChunkConfig.Proofs.Building.Coercion
import ChunkConfig.Proofs.Building.Content
import ChunkConfig.Proofs.Building.Embedded
import ChunkConfig.Proofs.Building.Folded
import ChunkConfig.Proofs.Building.Given
import ChunkConfig.Proofs.Building.Graded
import ChunkConfig.Proofs.Building.Invariant
import ChunkConfig.Proofs.Building.Known
import ChunkConfig.Proofs.Building.Plain
import ChunkConfig.Proofs.Building.Populated
import ChunkConfig.Proofs.Building.Pruned
import ChunkConfig.Proofs.Building.Rearranged
import ChunkConfig.Proofs.Building.Rejected
import ChunkConfig.Proofs.Building.Reread
import ChunkConfig.Proofs.Building.Restored
import ChunkConfig.Proofs.Building.Sifted
import ChunkConfig.Proofs.Building.Spelled
import ChunkConfig.Proofs.Building.Taken
import ChunkConfig.Proofs.Building.Tidied
import ChunkConfig.Proofs.Building.TypeNames
import ChunkConfig.Proofs.Chunk.Convert
import ChunkConfig.Proofs.Chunk.Covers
import ChunkConfig.Proofs.Chunk.Emptied
import ChunkConfig.Proofs.Chunk.Formed
import ChunkConfig.Proofs.Chunk.Hold
import ChunkConfig.Proofs.Chunk.Lasting
import ChunkConfig.Proofs.Chunk.Legible
import ChunkConfig.Proofs.Chunk.Nested
import ChunkConfig.Proofs.Chunk.Node
import ChunkConfig.Proofs.Chunk.Quotable
import ChunkConfig.Proofs.Chunk.Slots
import ChunkConfig.Proofs.Chunk.Written
import ChunkConfig.Proofs.Command
import ChunkConfig.Proofs.Database.Disclosed
import ChunkConfig.Proofs.Database.Legible
import ChunkConfig.Proofs.Database.Reread
import ChunkConfig.Proofs.Database.Respaced
import ChunkConfig.Proofs.Database.RoundTrip
import ChunkConfig.Proofs.Database.Text
import ChunkConfig.Proofs.Database.Writable
import ChunkConfig.Proofs.Decimal.Integer
import ChunkConfig.Proofs.Decimal.Plain
import ChunkConfig.Proofs.Outcome
import ChunkConfig.Proofs.Parted
import ChunkConfig.Proofs.Property.Cut
import ChunkConfig.Proofs.Property.Effect
import ChunkConfig.Proofs.Property.Evolves
import ChunkConfig.Proofs.Property.History
import ChunkConfig.Proofs.Property.Kept
import ChunkConfig.Proofs.Property.Slots
import ChunkConfig.Proofs.Property.Store
import ChunkConfig.Proofs.Registry.Batch
import ChunkConfig.Proofs.Registry.Complete
import ChunkConfig.Proofs.Registry.Documented
import ChunkConfig.Proofs.Registry.Extension
import ChunkConfig.Proofs.Registry.Fresh
import ChunkConfig.Proofs.Registry.Made
import ChunkConfig.Proofs.Registry.Obtained
import ChunkConfig.Proofs.Registry.Provenance
import ChunkConfig.Proofs.Registry.Reached
import ChunkConfig.Proofs.Registry.Register
import ChunkConfig.Proofs.Registry.Registered
import ChunkConfig.Proofs.Registry.Run
import ChunkConfig.Proofs.Registry.Sound
import ChunkConfig.Proofs.Registry.Split
import ChunkConfig.Proofs.Registry.Whole
import ChunkConfig.Proofs.Schema.Abandoned
import ChunkConfig.Proofs.Schema.Declared
import ChunkConfig.Proofs.Schema.Described
import ChunkConfig.Proofs.Schema.Laid
import ChunkConfig.Proofs.Schema.Plain
import ChunkConfig.Proofs.Schema.Repeated
import ChunkConfig.Proofs.Schema.Restored
import ChunkConfig.Proofs.Schema.RoundTrip
import ChunkConfig.Proofs.Schema.Templates
import ChunkConfig.Proofs.Schema.Text
import ChunkConfig.Proofs.Schema.Told
import ChunkConfig.Proofs.Span
import ChunkConfig.Proofs.Text.Closed
import ChunkConfig.Proofs.Text.Decode
import ChunkConfig.Proofs.Text.Escape
import ChunkConfig.Proofs.Text.Quoted
import ChunkConfig.Proofs.Text.Tokens
import ChunkConfig.Proofs.Text.Trim
import ChunkConfig.Proofs.Text.Utf8
import ChunkConfig.Proofs.TokenMap
import ChunkConfig.Proofs.Value
import ChunkConfig.Proofs.Xml.Assembly
import ChunkConfig.Proofs.Xml.Broken
import ChunkConfig.Proofs.Xml.Bytes
import ChunkConfig.Proofs.Xml.Cut
import ChunkConfig.Proofs.Xml.Escaped
import ChunkConfig.Proofs.Xml.Layout
import ChunkConfig.Proofs.Xml.Legible
import ChunkConfig.Proofs.Xml.Listed
import ChunkConfig.Proofs.Xml.Name
import ChunkConfig.Proofs.Xml.Parsed
import ChunkConfig.Proofs.Xml.Placed
import ChunkConfig.Proofs.Xml.Reading
import ChunkConfig.Proofs.Xml.RoundTrip
import ChunkConfig.Proofs.Xml.Scan
import ChunkConfig.Proofs.Xml.Stable
import ChunkConfig.Proofs.Xml.Tag
import ChunkConfig.Proofs.Xml.Tidied
import ChunkConfig.Proofs.Xml.Wrapped
