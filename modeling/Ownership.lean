import Ownership.Main
import Ownership.Scenario
import Ownership.Proofs.Effect.Collected
import Ownership.Proofs.Move.Gone
import Ownership.Proofs.Move.Soundness
import Ownership.Proofs.Source.Reading
import Ownership.Proofs.Loan.Scope
import Ownership.Proofs.Loan.Exclusivity
import Ownership.Proofs.Region.Extents
import Ownership.Proofs.Region.Generation
import Ownership.Proofs.Region.Liveness
import Ownership.Proofs.TypeTable.Carrying
import Ownership.Proofs.Region.Frame
import Ownership.Proofs.Region.Inference
import Ownership.Proofs.Loan.Carried
import Ownership.Proofs.Memory.Execution
import Ownership.Proofs.Memory.Typing
import Ownership.Proofs.Effect.Operands
import Ownership.Proofs.Memory.Provenance
import Ownership.Proofs.Memory.Safety
import Ownership.Proofs.Graph.Layout
import Ownership.Proofs.Graph.Traces
import Ownership.Proofs.Graph.Scopes
import Ownership.Proofs.Region.Outlives
import Ownership.Proofs.Region.Escape
import Ownership.Proofs.Effect.Occurrences
import Ownership.Proofs.Place.Exact
import Ownership.Proofs.Move.Precision
import Ownership.Proofs.Source.Scoping
import Ownership.Proofs.Graph.Visibility
import Ownership.Proofs.Source.Language
import Ownership.Proofs.Faults
import Ownership.Proofs.Graph.Order
import Ownership.Proofs.Loan.Termination
import Ownership.Proofs.Move.Profile
import Ownership.Proofs.Move.Termination
import Ownership.Proofs.Region.Termination
import Ownership.Proofs.Loan.Exact
import Ownership.Proofs.Effect.Evaluation
import Ownership.Proofs.Region.Faults
import Ownership.Proofs.Verdict.Survival
import Ownership.Proofs.Verdict.Threshold
import Ownership.Proofs.Region.Separation
import Ownership.Proofs.Move.Joins
import Ownership.Proofs.Place.Blurred
import Ownership.Proofs.Move.Runs
import Ownership.Proofs.Move.Blame
import Ownership.Proofs.Place.Overlap
import Ownership.Proofs.Move.Usable
import Ownership.Proofs.Place.Payload
import Ownership.Proofs.Region.Undeclared
import Ownership.Proofs.Graph.Postorder
import Ownership.Proofs.Graph.WellFormed
import Ownership.Proofs.Effect.Sources
import Ownership.Proofs.Region.Determined
import Ownership.Proofs.Source.FirstError
import Ownership.Proofs.TypeTable.Requests
import Ownership.Proofs.TypeTable.Reaching
import Ownership.Proofs.Place.Agreement
import Ownership.Proofs.Effect.Borrows
import Ownership.Proofs.Source.Names
import Ownership.Proofs.Region.Variables
import Ownership.Proofs.Region.Report
