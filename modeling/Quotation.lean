import Quotation.Arena.Build
import Quotation.Pass.Rules
import Quotation.Capture.Quote
import Quotation.Eval.Interpreter
import Quotation.Proofs.Growth
import Quotation.Proofs.Tree
import Quotation.Proofs.Represents
import Quotation.Proofs.Capture.Advance
import Quotation.Proofs.Capture.References
import Quotation.Proofs.Capture.Visit
import Quotation.Proofs.Capture.Walk
import Quotation.Proofs.Capture.OpenScopes
import Quotation.Proofs.Capture.Quote
import Quotation.Proofs.Capture.Materialize
import Quotation.Proofs.Capture.Sharing
import Quotation.Proofs.Capture.Settled
import Quotation.Proofs.Depth
import Quotation.Proofs.Order
import Quotation.Proofs.Eval.Restore
import Quotation.Proofs.Eval.Safety
import Quotation.Proofs.Eval.Watch
import Quotation.Proofs.Eval.Simulation
import Quotation.Proofs.Capture.Standalone
import Quotation.Proofs.Capture.Meaning
import Quotation.Proofs.Pass
import Quotation.Proofs.Capture.Keeps
import Quotation.Proofs.Operations
import Quotation.Proofs.Reached
import Quotation.Proofs.Eval.Nesting
import Quotation.Proofs.Route
import Quotation.Proofs.MergedList
import Quotation.Proofs.Eval.Lockstep
import Quotation.Proofs.Eval.Reach
import Quotation.Proofs.Eval.Limit
import Quotation.Proofs.Capture.Mentions
import Quotation.Proofs.Intact
import Quotation.Proofs.Exposes
import Quotation.Proofs.Capture.Exposes
import Quotation.Proofs.Complete
import Quotation.Proofs.Worklist
import Quotation.Proofs.Capture.Flatten
import Quotation.Proofs.TreeMap
import Quotation.Proofs.Capture.Gains
import Quotation.Proofs.Eval.Environment
import Quotation.Proofs.Picture
import Quotation.Proofs.Eval.Uncaught
import Quotation.Proofs.Eval.Made
