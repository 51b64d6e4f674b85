import ConstraintSpace.KeyedArray
import ConstraintSpace.Main
import ConstraintSpace.Proofs.Queens.Program
import ConstraintSpace.Proofs.Space.Recomputation
import ConstraintSpace.Proofs.Space.Termination
import ConstraintSpace.Proofs.Space.WakeUps
import ConstraintSpace.Query
import ConstraintSpace.Proofs.Space.Shrinking
import ConstraintSpace.Proofs.Space.Refusal
import ConstraintSpace.Proofs.Space.Confluence
import ConstraintSpace.Proofs.Store.Events
import ConstraintSpace.Proofs.View.Reporting
import ConstraintSpace.Proofs.Space.Raising
import ConstraintSpace.Proofs.Space.Copies
import ConstraintSpace.Proofs.Space.Enrolment
import ConstraintSpace.Proofs.Space.Chronicle
import ConstraintSpace.Proofs.Space.Sharing
import ConstraintSpace.Proofs.Branching.Extremes
import ConstraintSpace.Proofs.Space.Cursors
import ConstraintSpace.Proofs.Space.Registry
import ConstraintSpace.Proofs.Space.Splitting
import ConstraintSpace.Proofs.Search.Branches
import ConstraintSpace.Proofs.Search.Verdicts
import ConstraintSpace.Proofs.Domain.IntegerRuns
import ConstraintSpace.Proofs.Domain.SetRuns
import ConstraintSpace.Proofs.Space.Consistency
import ConstraintSpace.Proofs.Bands
import ConstraintSpace.Proofs.Space.Containment
import ConstraintSpace.Proofs.Space.Hearing
import ConstraintSpace.Proofs.Space.Legitimacy
import ConstraintSpace.Proofs.Branching.FloatParts
import ConstraintSpace.Proofs.Branching.Median
import ConstraintSpace.Proofs.Space.Overflow
import ConstraintSpace.Proofs.Search.Stack
