import LoxMachine.Main
import LoxMachine.Session
import LoxMachine.Proofs.Machine.Trace
import LoxMachine.Proofs.Machine.Tracing
import LoxMachine.Proofs.Assembly.Meaning
import LoxMachine.Proofs.Assembly.WellFormed
import LoxMachine.Proofs.Assembly.Rendering
import LoxMachine.Proofs.Session.Lifecycle
import LoxMachine.Proofs.Document
import LoxMachine.Proofs.CommandLine.Outcomes
import LoxMachine.Proofs.CommandLine.Words
import LoxMachine.Proofs.Machine.Safety
import LoxMachine.Proofs.Machine.ClosedForm
import LoxMachine.Proofs.CommandLine.Trace
import LoxMachine.Proofs.Session.Clients
import LoxMachine.Proofs.Assembly.Quotation
import LoxMachine.Proofs.Machine.Failure
import LoxMachine.Proofs.Assembly.Composition
import LoxMachine.Proofs.Json.Scalar
import LoxMachine.Proofs.Json.Stable
import LoxMachine.Proofs.Number.Integer
import LoxMachine.Proofs.Assembly.Acceptance
import LoxMachine.Proofs.Document.Acceptance
import LoxMachine.Proofs.Listing.Partition
import LoxMachine.Proofs.Listing.Text
import LoxMachine.Proofs.Listing.Legible
import LoxMachine.Proofs.Machine.Traceback
import LoxMachine.Proofs.Literal.Display
import LoxMachine.Proofs.Chunk.Walk
import LoxMachine.Proofs.Assembly.Cut
