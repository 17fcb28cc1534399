import LiteralHoist.Main
import LiteralHoist.Source.Build
import LiteralHoist.Proofs.Consolidate.Substitution
import LiteralHoist.Proofs.Consolidate.Idempotence
import LiteralHoist.Proofs.Consolidate.Survival
import LiteralHoist.Proofs.Consolidate.Capture
import LiteralHoist.Proofs.Consolidate.Committed
import LiteralHoist.Proofs.Consolidate.Enclosing
import LiteralHoist.Proofs.Consolidate.Safety
import LiteralHoist.Proofs.Document.RoundTrip
import LiteralHoist.Proofs.MessagePack.Octets
import LiteralHoist.Proofs.Document.Lengths
import LiteralHoist.Proofs.Document.Grammar
import LiteralHoist.Proofs.Document.Reread
import LiteralHoist.Proofs.Consolidate.Rereading
import LiteralHoist.Proofs.Consolidate.FirstFree
import LiteralHoist.Proofs.Consolidate.NameGrammar
import LiteralHoist.Proofs.Consolidate.ClassIdempotence
import LiteralHoist.Proofs.Consolidate.Footprint
import LiteralHoist.Proofs.Command.Ending
import LiteralHoist.Proofs.Command.Process
import LiteralHoist.Proofs.Command.Batch
import LiteralHoist.Proofs.Consolidate.Qualifying
import LiteralHoist.Proofs.Consolidate.Body
import LiteralHoist.Proofs.Consolidate.Isolation
import LiteralHoist.Proofs.Consolidate.Tally
import LiteralHoist.Proofs.Consolidate.Gate
import LiteralHoist.Proofs.Document.Numbering
import LiteralHoist.Proofs.Document.NormalForm
import LiteralHoist.Proofs.Document.Slots
import LiteralHoist.Proofs.Report.Reading
import LiteralHoist.Proofs.Consolidate.Spelling
import LiteralHoist.Proofs.Consolidate.NamePattern
import LiteralHoist.Proofs.Consolidate.Search
import LiteralHoist.Proofs.Source.Preorder
import LiteralHoist.Proofs.Source.Quoting
import LiteralHoist.Proofs.Patch.Faithful
import LiteralHoist.Proofs.Patch.Coloured
