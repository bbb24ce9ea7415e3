import ShapeAnalysis.Config.Basic
import ShapeAnalysis.Config.Document
import ShapeAnalysis.Vocabulary
import ShapeAnalysis.Vocabulary.Builder
import ShapeAnalysis.Formula.Assignment
import ShapeAnalysis.Formula.Bindings
import ShapeAnalysis.Formula.Constraint
import ShapeAnalysis.Structure.Focus
import ShapeAnalysis.Structure.Coerce
import ShapeAnalysis.Structure.Merge
import ShapeAnalysis.Structure.Combine
import ShapeAnalysis.Action.Library
import ShapeAnalysis.Pipeline.Messages
import ShapeAnalysis.Pipeline.Statistics
import ShapeAnalysis.Pipeline.Interpreter
import ShapeAnalysis.Store.StateStore
import ShapeAnalysis.Flow.InPlace
import ShapeAnalysis.Proofs.Order
import ShapeAnalysis.Proofs.Assignment
import ShapeAnalysis.Proofs.Bindings
import ShapeAnalysis.Proofs.Declarations
import ShapeAnalysis.Proofs.Kleene
import ShapeAnalysis.Proofs.Semantics
import ShapeAnalysis.Proofs.FreeVars
import ShapeAnalysis.Proofs.Solutions
import ShapeAnalysis.Proofs.Meaning
import ShapeAnalysis.Proofs.Closure
import ShapeAnalysis.Proofs.Duplicate
import ShapeAnalysis.Proofs.Embedding
import ShapeAnalysis.Proofs.Focus
import ShapeAnalysis.Proofs.Blur
import ShapeAnalysis.Proofs.Abstraction
import ShapeAnalysis.Proofs.Coerce
import ShapeAnalysis.Proofs.Diagnostics
import ShapeAnalysis.Proofs.Fixpoint
import ShapeAnalysis.Proofs.Branches
import ShapeAnalysis.Proofs.Pipeline
import ShapeAnalysis.Proofs.Acceptance
import ShapeAnalysis.Proofs.Isomorphism
import ShapeAnalysis.Proofs.Invariance
import ShapeAnalysis.Proofs.Pairing
import ShapeAnalysis.Proofs.SplitOrder
import ShapeAnalysis.Proofs.Messages
import ShapeAnalysis.Proofs.PipelineInvariance
import ShapeAnalysis.Proofs.Merge
import ShapeAnalysis.Proofs.Facts
import ShapeAnalysis.Proofs.ArrivalOrder
import ShapeAnalysis.Proofs.Changes
import ShapeAnalysis.Proofs.Summary
import ShapeAnalysis.Proofs.Refresh
import ShapeAnalysis.Proofs.CallResolution
import ShapeAnalysis.Proofs.Shape
import ShapeAnalysis.Proofs.Agreement
import ShapeAnalysis.Proofs.Atomicity
import ShapeAnalysis.Proofs.News
import ShapeAnalysis.Proofs.Bookkeeping
import ShapeAnalysis.Proofs.Contexts
import ShapeAnalysis.Proofs.CallSites
import ShapeAnalysis.Proofs.VisitOrder
import ShapeAnalysis.Proofs.Combine
import ShapeAnalysis.Proofs.Instances
import ShapeAnalysis.Proofs.Lookups
import ShapeAnalysis.Proofs.Returns
import ShapeAnalysis.Proofs.Accounting
import ShapeAnalysis.Proofs.Representation
import ShapeAnalysis.Proofs.ConfigDocument
import ShapeAnalysis.Proofs.NameJoin
import ShapeAnalysis.Proofs.Simultaneous
import ShapeAnalysis.Proofs.Union
