import FlowTyping.Catalog.Basic
import FlowTyping.Catalog.Declare
import FlowTyping.Catalog.Equality
import FlowTyping.Catalog.Hierarchy
import FlowTyping.Catalog.Naming
import FlowTyping.Catalog.Overload
import FlowTyping.Catalog.Seed
import FlowTyping.Catalog.Specialization
import FlowTyping.Catalog.Storage
import FlowTyping.Catalog.Union
import FlowTyping.Flow.Graph
import FlowTyping.Flow.Provisional
import FlowTyping.Flow.Store
import FlowTyping.Handle
import FlowTyping.Inference.Call
import FlowTyping.Inference.Check
import FlowTyping.Inference.Declare
import FlowTyping.Inference.Dispatch
import FlowTyping.Inference.Expression
import FlowTyping.Inference.State
import FlowTyping.Preorder
import FlowTyping.Problem
import FlowTyping.Program
import FlowTyping.Scope
import FlowTyping.Source.Place
import FlowTyping.Source.Report
import FlowTyping.Table
import FlowTyping.Proofs.Arenas
import FlowTyping.Proofs.Catalog.Appending
import FlowTyping.Proofs.Catalog.Bindings
import FlowTyping.Proofs.Catalog.Callable
import FlowTyping.Proofs.Catalog.Canonical
import FlowTyping.Proofs.Catalog.Climbing
import FlowTyping.Proofs.Catalog.Contained
import FlowTyping.Proofs.Catalog.Declarations
import FlowTyping.Proofs.Catalog.Delegation
import FlowTyping.Proofs.Catalog.Growth
import FlowTyping.Proofs.Catalog.Indexing
import FlowTyping.Proofs.Catalog.Interchange
import FlowTyping.Proofs.Catalog.Lookup
import FlowTyping.Proofs.Catalog.Merging
import FlowTyping.Proofs.Catalog.Orderly
import FlowTyping.Proofs.Catalog.Outline
import FlowTyping.Proofs.Catalog.Permuted
import FlowTyping.Proofs.Catalog.Rendering
import FlowTyping.Proofs.Catalog.Renumbering
import FlowTyping.Proofs.Catalog.Selection
import FlowTyping.Proofs.Catalog.Soundness
import FlowTyping.Proofs.Catalog.Specificity
import FlowTyping.Proofs.Catalog.Supplied
import FlowTyping.Proofs.Catalog.Within
import FlowTyping.Proofs.Descent
import FlowTyping.Proofs.Flow.Advance
import FlowTyping.Proofs.Flow.Ancestry
import FlowTyping.Proofs.Flow.Assembly
import FlowTyping.Proofs.Flow.Chain
import FlowTyping.Proofs.Flow.Combine
import FlowTyping.Proofs.Flow.Composition
import FlowTyping.Proofs.Flow.Contained
import FlowTyping.Proofs.Flow.Dropping
import FlowTyping.Proofs.Flow.Edits
import FlowTyping.Proofs.Flow.Enrolling
import FlowTyping.Proofs.Flow.Equality
import FlowTyping.Proofs.Flow.Equation
import FlowTyping.Proofs.Flow.Fixpoint
import FlowTyping.Proofs.Flow.Graph
import FlowTyping.Proofs.Flow.Handover
import FlowTyping.Proofs.Flow.Holding
import FlowTyping.Proofs.Flow.Housing
import FlowTyping.Proofs.Flow.Identity
import FlowTyping.Proofs.Flow.Inclusion
import FlowTyping.Proofs.Flow.Invariance
import FlowTyping.Proofs.Flow.Kinship
import FlowTyping.Proofs.Flow.Layout
import FlowTyping.Proofs.Flow.Limits
import FlowTyping.Proofs.Flow.Marking
import FlowTyping.Proofs.Flow.Naming
import FlowTyping.Proofs.Flow.Notifying
import FlowTyping.Proofs.Flow.Offsets
import FlowTyping.Proofs.Flow.Operations
import FlowTyping.Proofs.Flow.Origin
import FlowTyping.Proofs.Flow.Pairing
import FlowTyping.Proofs.Flow.Preserving
import FlowTyping.Proofs.Flow.Propagation
import FlowTyping.Proofs.Flow.Provisional
import FlowTyping.Proofs.Flow.Queueing
import FlowTyping.Proofs.Flow.Relaxing
import FlowTyping.Proofs.Flow.Requests
import FlowTyping.Proofs.Flow.Restriction
import FlowTyping.Proofs.Flow.Room
import FlowTyping.Proofs.Flow.Scoping
import FlowTyping.Proofs.Flow.Session
import FlowTyping.Proofs.Flow.Sizing
import FlowTyping.Proofs.Flow.Succession
import FlowTyping.Proofs.Flow.Tally
import FlowTyping.Proofs.Flow.Unbinding
import FlowTyping.Proofs.Flow.Watching
import FlowTyping.Proofs.Flow.Work
import FlowTyping.Proofs.Forest
import FlowTyping.Proofs.Inference.Advance
import FlowTyping.Proofs.Inference.Agreement
import FlowTyping.Proofs.Inference.Alike
import FlowTyping.Proofs.Inference.Binding
import FlowTyping.Proofs.Inference.Blame
import FlowTyping.Proofs.Inference.Blocks
import FlowTyping.Proofs.Inference.Bounds
import FlowTyping.Proofs.Inference.Calls
import FlowTyping.Proofs.Inference.Casting
import FlowTyping.Proofs.Inference.Choices
import FlowTyping.Proofs.Inference.Combinations
import FlowTyping.Proofs.Inference.Construction
import FlowTyping.Proofs.Inference.Containing
import FlowTyping.Proofs.Inference.Declare
import FlowTyping.Proofs.Inference.Defaults
import FlowTyping.Proofs.Inference.Defining
import FlowTyping.Proofs.Inference.Dispatching
import FlowTyping.Proofs.Inference.Editing
import FlowTyping.Proofs.Inference.Enclosing
import FlowTyping.Proofs.Inference.Entries
import FlowTyping.Proofs.Inference.Failing
import FlowTyping.Proofs.Inference.Finding
import FlowTyping.Proofs.Inference.Framing
import FlowTyping.Proofs.Inference.Furnishing
import FlowTyping.Proofs.Inference.Generic
import FlowTyping.Proofs.Inference.Handles
import FlowTyping.Proofs.Inference.Heeding
import FlowTyping.Proofs.Inference.Interchange
import FlowTyping.Proofs.Inference.Invariant
import FlowTyping.Proofs.Inference.Keeping
import FlowTyping.Proofs.Inference.Metaclasses
import FlowTyping.Proofs.Inference.Mirroring
import FlowTyping.Proofs.Inference.Nesting
import FlowTyping.Proofs.Inference.Order
import FlowTyping.Proofs.Inference.Outcome
import FlowTyping.Proofs.Inference.Pairing
import FlowTyping.Proofs.Inference.Parallel
import FlowTyping.Proofs.Inference.Passes
import FlowTyping.Proofs.Inference.Provenance
import FlowTyping.Proofs.Inference.Reopening
import FlowTyping.Proofs.Inference.Reordering
import FlowTyping.Proofs.Inference.Reports
import FlowTyping.Proofs.Inference.Requesting
import FlowTyping.Proofs.Inference.Resolving
import FlowTyping.Proofs.Inference.Retarget
import FlowTyping.Proofs.Inference.Rounds
import FlowTyping.Proofs.Inference.Searching
import FlowTyping.Proofs.Inference.Settling
import FlowTyping.Proofs.Inference.Slots
import FlowTyping.Proofs.Inference.Step
import FlowTyping.Proofs.Inference.Tracing
import FlowTyping.Proofs.Inference.Typing
import FlowTyping.Proofs.Inference.Variables
import FlowTyping.Proofs.Inference.Yielding
import FlowTyping.Proofs.Parallel
import FlowTyping.Proofs.Preorder
import FlowTyping.Proofs.Saturation
import FlowTyping.Proofs.Source.Lines
import FlowTyping.Proofs.Steps
import FlowTyping.Proofs.Table
import FlowTyping.Proofs.Visit
import FlowTyping.Proofs.Yields
