import Protean.Main
import Protean.Session
import Protean.Snapshot
import Protean.Proofs.Heap.Walk
import Protean.Proofs.Heap.WellFormed
import Protean.Proofs.Code.Closed
import Protean.Proofs.Machine.Safety
import Protean.Proofs.Builtin.Safety
import Protean.Proofs.Machine.Soundness
import Protean.Proofs.Machine.Agreement
import Protean.Proofs.Machine.Termination
import Protean.Proofs.Code.Forget
import Protean.Proofs.Heap.Forget
import Protean.Proofs.Machine.Forget
import Protean.Proofs.Expr.Shape
import Protean.Proofs.Parser.Grammatical
import Protean.Proofs.Token.Reading
import Protean.Proofs.Expr.Printed
import Protean.Proofs.Parser.Reading
import Protean.Proofs.Parser.Reprint
import Protean.Proofs.Machine.Limits
import Protean.Proofs.Machine.Accounting
import Protean.Proofs.Parser.Phrase
import Protean.Proofs.Parser.Progress
import Protean.Proofs.Parser.Front
import Protean.Proofs.Parser.Lockstep
import Protean.Proofs.Token.Numeral
import Protean.Proofs.Parser.Acceptance
import Protean.Proofs.Module.Order
import Protean.Proofs.Module.Circle
import Protean.Proofs.Heap.Recode
import Protean.Proofs.Source.Places
import Protean.Proofs.Expr.Places
import Protean.Proofs.Parser.Parallel
import Protean.Proofs.Parser.Places
import Protean.Proofs.Token.Scan
import Protean.Proofs.Token.Joined
import Protean.Proofs.Parser.Balance
import Protean.Proofs.Parser.Joined
import Protean.Proofs.Code.Probe
import Protean.Proofs.Machine.Probe
import Protean.Proofs.Completion.Probe
import Protean.Proofs.Heap.Region
import Protean.Proofs.Machine.Confined
import Protean.Proofs.Machine.Frame
import Protean.Proofs.Machine.Blame
import Protean.Proofs.Token.Layout
import Protean.Proofs.Parser.Cursor
import Protean.Proofs.Heap.Lookup
import Protean.Proofs.Heap.Link
import Protean.Proofs.Machine.Entry
import Protean.Proofs.Heap.Visible
import Protean.Proofs.Completion.Offered
import Protean.Proofs.Descriptor.Elements
import Protean.Proofs.Descriptor.Verdict
import Protean.Proofs.Library.Routines
import Protean.Proofs.Library.Helpers
import Protean.Proofs.Parser.Nested
import Protean.Proofs.Builtin.Lazy
import Protean.Proofs.Library.Ledger
import Protean.Proofs.Token.Newlines
import Protean.Proofs.Parser.Quoted
import Protean.Proofs.Machine.Word
