import EditScript.Arithmetic
import EditScript.Compile
import EditScript.Dict
import EditScript.Document.Basic
import EditScript.Document.Block
import EditScript.Document.Reader
import EditScript.Document.Writer
import EditScript.File
import EditScript.Journal
import EditScript.Json.Double
import EditScript.Json.Printer
import EditScript.Json.Reader
import EditScript.Json.Record
import EditScript.Json.Scan
import EditScript.Json.Symbol
import EditScript.Json.Tree
import EditScript.Json.Value
import EditScript.Options
import EditScript.Position
import EditScript.Proofs.Addressing
import EditScript.Proofs.Built
import EditScript.Proofs.CellEdits
import EditScript.Proofs.Changes
import EditScript.Proofs.Contiguity
import EditScript.Proofs.Counts
import EditScript.Proofs.Declared
import EditScript.Proofs.Delivery
import EditScript.Proofs.Document.Accepted
import EditScript.Proofs.Document.Reads
import EditScript.Proofs.Document.Recursion
import EditScript.Proofs.Document.RoundTrip
import EditScript.Proofs.ElementKinds
import EditScript.Proofs.Emission
import EditScript.Proofs.FieldMasks
import EditScript.Proofs.FirstDefect
import EditScript.Proofs.Footprint
import EditScript.Proofs.Json.Depth
import EditScript.Proofs.Json.Derivation
import EditScript.Proofs.Json.Feed
import EditScript.Proofs.Json.Grammar
import EditScript.Proofs.Json.Interrupted
import EditScript.Proofs.Json.Lexical
import EditScript.Proofs.Json.Nearest
import EditScript.Proofs.Json.Numbers
import EditScript.Proofs.Json.Numerals
import EditScript.Proofs.Json.Printed
import EditScript.Proofs.Json.Reads
import EditScript.Proofs.Json.Records
import EditScript.Proofs.Json.Reordering
import EditScript.Proofs.Json.Resumption
import EditScript.Proofs.Json.Strings
import EditScript.Proofs.Json.Tokens
import EditScript.Proofs.Json.Utf8
import EditScript.Proofs.Kept
import EditScript.Proofs.LengthUnits
import EditScript.Proofs.MemberOrder
import EditScript.Proofs.Moves
import EditScript.Proofs.Nesting
import EditScript.Proofs.OpenRecords
import EditScript.Proofs.Outcome
import EditScript.Proofs.Overflow
import EditScript.Proofs.ParagraphStyles
import EditScript.Proofs.PhysicalGrid
import EditScript.Proofs.Positions
import EditScript.Proofs.ReadValues
import EditScript.Proofs.Rendering
import EditScript.Proofs.Reproduction
import EditScript.Proofs.Request.Accepted
import EditScript.Proofs.Request.Places
import EditScript.Proofs.Request.Reads
import EditScript.Proofs.Request.RoundTrip
import EditScript.Proofs.Slices
import EditScript.Proofs.Spaces
import EditScript.Proofs.Stream
import EditScript.Proofs.StyleSpans
import EditScript.Proofs.StyledUnits
import EditScript.Proofs.Styles
import EditScript.Proofs.Success
import EditScript.Proofs.Target
import EditScript.Proofs.Texts
import EditScript.Proofs.Units
import EditScript.Proofs.UnknownMembers
import EditScript.Proofs.Unsupported
import EditScript.Proofs.Walk
import EditScript.Proofs.Widening
import EditScript.Request.Basic
import EditScript.Request.Reader
import EditScript.Request.Writer
import EditScript.Style
import EditScript.Style.Reader
import EditScript.Sync
