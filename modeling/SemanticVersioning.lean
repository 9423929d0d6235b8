import SemanticVersioning.Interchange
import SemanticVersioning.Proofs.Cache.Balance
import SemanticVersioning.Proofs.Cache.Fifo
import SemanticVersioning.Proofs.Engine.Counts
import SemanticVersioning.Proofs.Engine.Failure
import SemanticVersioning.Proofs.Engine.Lookups
import SemanticVersioning.Proofs.Engine.Operands
import SemanticVersioning.Proofs.Engine.Session
import SemanticVersioning.Proofs.Error.FirstOverflow
import SemanticVersioning.Proofs.Error.Placement
import SemanticVersioning.Proofs.Range.Attachments
import SemanticVersioning.Proofs.Range.Caret
import SemanticVersioning.Proofs.Range.Composition
import SemanticVersioning.Proofs.Range.Demands
import SemanticVersioning.Proofs.Range.Embedding
import SemanticVersioning.Proofs.Range.Exclusion
import SemanticVersioning.Proofs.Range.Faults
import SemanticVersioning.Proofs.Range.Inclusion
import SemanticVersioning.Proofs.Range.Interval
import SemanticVersioning.Proofs.Range.Lowest
import SemanticVersioning.Proofs.Range.Meeting
import SemanticVersioning.Proofs.Range.Minimum
import SemanticVersioning.Proofs.Range.Overflow
import SemanticVersioning.Proofs.Range.Partition
import SemanticVersioning.Proofs.Range.Pieces
import SemanticVersioning.Proofs.Range.RoundTrip
import SemanticVersioning.Proofs.Range.Selection
import SemanticVersioning.Proofs.Range.Shorthand
import SemanticVersioning.Proofs.Reader.Pieces
import SemanticVersioning.Proofs.Reader.Position
import SemanticVersioning.Proofs.Reader.Refusal
import SemanticVersioning.Proofs.Text.Decimal
import SemanticVersioning.Proofs.Version.Exactness
import SemanticVersioning.Proofs.Version.Faults
import SemanticVersioning.Proofs.Version.Loose
import SemanticVersioning.Proofs.Version.Pieces
import SemanticVersioning.Proofs.Version.Precedence
import SemanticVersioning.Proofs.Version.RoundTrip
import SemanticVersioning.Proofs.Version.Storage
import SemanticVersioning.Proofs.Version.Successor
import SemanticVersioning.Range.Interval
import SemanticVersioning.Range.Minimum
import SemanticVersioning.Range.Printer
import SemanticVersioning.Range.Selection
import SemanticVersioning.Proofs.Range.RawText
import SemanticVersioning.Proofs.Range.Words
