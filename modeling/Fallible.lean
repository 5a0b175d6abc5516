import Fallible.Table
import Fallible.StableSort
import Fallible.SortKey
import Fallible.Text.Glyph
import Fallible.Text.Quoted
import Fallible.Text.Identifier
import Fallible.Classifier
import Fallible.Registry
import Fallible.Host.Class
import Fallible.Host.Value
import Fallible.Host.Typing
import Fallible.Host.Expression.Token
import Fallible.Host.Expression.Grammar
import Fallible.Host.Expression
import Fallible.Host.Hint.Basic
import Fallible.Host.Hint.Equality
import Fallible.Host.Hint.Build
import Fallible.Host.Hint.Written
import Fallible.Ty.Basic
import Fallible.Ty.Equality
import Fallible.Ty.Canonical
import Fallible.Ty.Parts
import Fallible.Ty.Subst
import Fallible.Ty.Text
import Fallible.ErrorSet
import Fallible.Solution
import Fallible.Location
import Fallible.Constraint
import Fallible.Diagnostic
import Fallible.Grammar
import Fallible.Narrowing
import Fallible.Fault
import Fallible.Options
import Fallible.Payload
import Fallible.Bindings
import Fallible.Subtyping.View
import Fallible.Obligation
import Fallible.Subtyping.Engine
import Fallible.Fixpoint.Holding
import Fallible.Fixpoint.Worklist
import Fallible.Fixpoint.Validation
import Fallible.Fixpoint.Solve
import Fallible.Session.Basic
import Fallible.Session.Call
import Fallible.Session.Conclusion
import Fallible.Subtyping.Depth
import Fallible.Subtyping.Answer
import Fallible.Proofs.Assignment
import Fallible.Proofs.Step
import Fallible.Proofs.LeastFixpoint
import Fallible.Proofs.Offers
import Fallible.Proofs.Recurrence
import Fallible.Proofs.Settling
import Fallible.Proofs.Termination
import Fallible.Proofs.Fixing
import Fallible.Proofs.Closing
import Fallible.Proofs.Restart
import Fallible.Proofs.Checks
import Fallible.Proofs.Reaching
import Fallible.Proofs.Errors
import Fallible.Proofs.Covering
import Fallible.Proofs.Arguments
import Fallible.Proofs.Spelling
import Fallible.Proofs.Obligations
import Fallible.Proofs.Canonical
import Fallible.Proofs.Preorder
import Fallible.Proofs.Naming
import Fallible.Proofs.Reordering
import Fallible.Proofs.Grafting
import Fallible.Proofs.Binding
import Fallible.Proofs.Outcome
import Fallible.Proofs.Resolution
import Fallible.Proofs.SessionRun
import Fallible.Proofs.SessionSoundness
import Fallible.Proofs.NormalForm
import Fallible.Proofs.Normalising
import Fallible.Proofs.Applying
import Fallible.Proofs.Finality
import Fallible.Proofs.Reopening
import Fallible.Proofs.WellFormed
import Fallible.Proofs.Reassembly
import Fallible.Proofs.Receiving
import Fallible.Proofs.IdentityCall
import Fallible.Proofs.Adequacy
import Fallible.Proofs.Interchange
import Fallible.Proofs.LaterBindings
import Fallible.Proofs.Queries
import Fallible.Proofs.Stability
import Fallible.Proofs.DirectBindings
import Fallible.Proofs.EndingComparisons
import Fallible.Proofs.SolvedSession
import Fallible.Proofs.ClosedResolution
import Fallible.Proofs.GraftedForms
import Fallible.Proofs.ResolvedBindings
import Fallible.Proofs.FailedSolving
import Fallible.Proofs.Faults
import Fallible.Proofs.Formation
import Fallible.Proofs.InternalFaults
import Fallible.Proofs.Fitting
import Fallible.Proofs.Misfits
import Fallible.Proofs.SessionTypes
import Fallible.Proofs.Issuing
import Fallible.Proofs.Traces
import Fallible.Proofs.Valuations
import Fallible.Proofs.FirstViolation
import Fallible.Proofs.Joins
import Fallible.Proofs.Placement
import Fallible.Proofs.Growth
import Fallible.Proofs.NormalTypes
import Fallible.Proofs.Violations
import Fallible.Proofs.Extensionality
import Fallible.Proofs.Exclusion
import Fallible.Proofs.Restriction
import Fallible.Proofs.NarrowedErrors
import Fallible.Proofs.NarrowedBranches
import Fallible.Proofs.Merging
import Fallible.Proofs.FreshNames
import Fallible.Proofs.Instantiation
import Fallible.Proofs.MergeOrder
import Fallible.Proofs.Containment
import Fallible.Proofs.FreshRuns
import Fallible.Proofs.Queueing
import Fallible.Proofs.SpelledErrors
import Fallible.Proofs.WrittenTypes
