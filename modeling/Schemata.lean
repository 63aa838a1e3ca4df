import Schemata.Algebra.KeyOf
import Schemata.Algebra.Lookup
import Schemata.Error.Message
import Schemata.Log
import Schemata.Memo.Computation
import Schemata.Result
import Schemata.Scope
import Schemata.Proofs.Constraint.Cut
import Schemata.Proofs.Constraint.Bounds
import Schemata.Proofs.Constraint.Implication
import Schemata.Proofs.Schema.Parts
import Schemata.Proofs.Value.Scalar
import Schemata.Proofs.Value.Fields
import Schemata.Proofs.Schema.Member
import Schemata.Proofs.Value.Rebuilding
import Schemata.Proofs.Validation.Combinators
import Schemata.Proofs.Validation.Containers
import Schemata.Proofs.Schema.Domains
import Schemata.Proofs.Schema.Places
import Schemata.Proofs.Schema.Transfer
import Schemata.Proofs.Validation.Agreement
import Schemata.Proofs.Validation.Membership
import Schemata.Proofs.Schema.Sameness
import Schemata.Proofs.Algebra.Containment
import Schemata.Proofs.Algebra.Order
import Schemata.Proofs.Algebra.Transitivity
import Schemata.Proofs.Algebra.Decision
import Schemata.Proofs.Algebra.Pruning
import Schemata.Proofs.Algebra.Union
import Schemata.Proofs.Algebra.Shallow
import Schemata.Proofs.Algebra.Subset
import Schemata.Proofs.Constraint.Gathering
import Schemata.Proofs.Algebra.Compose
import Schemata.Proofs.Algebra.Meets
import Schemata.Proofs.Algebra.ObjectMeets
import Schemata.Proofs.Algebra.TupleMeets
import Schemata.Proofs.Algebra.PlainMeets
import Schemata.Proofs.Algebra.Intersection
import Schemata.Proofs.Algebra.Exactness
import Schemata.Proofs.Quiet
import Schemata.Proofs.History
import Schemata.Proofs.Schema.Likeness
import Schemata.Proofs.Validation.Acceptance
import Schemata.Proofs.Validation.Likeness
import Schemata.Proofs.Validation.Keys
import Schemata.Proofs.Validation.Outputs
import Schemata.Proofs.Constraint.Passing
import Schemata.Proofs.Validation.Faults
import Schemata.Proofs.Algebra.Signatures
import Schemata.Proofs.Algebra.SignatureMeets
import Schemata.Proofs.Algebra.SignatureSubset
import Schemata.Proofs.Value.Spelling
import Schemata.Proofs.Constraint.Spelling
import Schemata.Proofs.Schema.Spelling
import Schemata.Proofs.Validation.Spelling
import Schemata.Proofs.Algebra.Overlooked
import Schemata.Proofs.Algebra.Emptiness
import Schemata.Proofs.Algebra.SpelledSubset
import Schemata.Proofs.Algebra.SpelledMeets
import Schemata.Proofs.Schema.Limits
import Schemata.Proofs.Schema.Consulting
import Schemata.Proofs.Transparency
import Schemata.Proofs.Validation.Normalization
import Schemata.Proofs.Validation.Idempotence
import Schemata.Proofs.Validation.Recapture
import Schemata.Proofs.Algebra.Keyless
import Schemata.Proofs.Algebra.KeyOf
import Schemata.Proofs.Algebra.KeyLookup
import Schemata.Proofs.Algebra.UnionOutputs
import Schemata.Proofs.Algebra.Offers
import Schemata.Proofs.Algebra.Paths
import Schemata.Proofs.Algebra.LazyMeets
import Schemata.Proofs.Validation.Keeping
import Schemata.Proofs.Validation.Depth
import Schemata.Proofs.Value.Labels
import Schemata.Proofs.Validation.Resemblance
import Schemata.Proofs.Schema.Expansion
import Schemata.Proofs.Validation.Expansion
import Schemata.Proofs.Scope.Calls
import Schemata.Proofs.Schema.Moving
import Schemata.Proofs.Validation.Moving
import Schemata.Proofs.Algebra.Moving
import Schemata.Proofs.Scope.Orderly
import Schemata.Proofs.Scope.Mirror
import Schemata.Proofs.Scope.MirroredReading
import Schemata.Proofs.Scope.Reserving
import Schemata.Proofs.Scope.Filling
import Schemata.Proofs.Scope.Order
import Schemata.Proofs.Scope.KeyDomains
import Schemata.Proofs.Scope.Keys
import Schemata.Proofs.Scope.Acyclic
import Schemata.Proofs.Constraint.Clashes
import Schemata.Proofs.Algebra.Overlap
import Schemata.Proofs.Algebra.Common
import Schemata.Proofs.Algebra.CommonObjects
import Schemata.Proofs.Algebra.CommonTuples
import Schemata.Proofs.Algebra.Commutativity
import Schemata.Proofs.Validation.Domains
import Schemata.Proofs.Constraint.Soundness
import Schemata.Proofs.Validation.Totality
import Schemata.Proofs.Unrolling
import Schemata.Proofs.Schema.Hashing
import Schemata.Proofs.Schema.Subterms
import Schemata.Proofs.Algebra.Calls
import Schemata.Proofs.Algebra.Inheritance
import Schemata.Proofs.Algebra.Growth
import Schemata.Proofs.Algebra.Termination
import Schemata.Proofs.Algebra.Stops
import Schemata.Proofs.Schema.Usable
import Schemata.Proofs.Algebra.Faults
import Schemata.Proofs.Scope.Usable
import Schemata.Proofs.Scope.Definitions
import Schemata.Proofs.Scope.Trees
import Schemata.Proofs.Scope.Lookup
import Schemata.Proofs.Scope.Errors
import Schemata.Proofs.Validation.Reports
import Schemata.Proofs.Validation.ObjectReports
import Schemata.Proofs.Validation.TupleReports
import Schemata.Proofs.Scope.Spreading
import Schemata.Proofs.Algebra.Sparse
import Schemata.Proofs.Algebra.CommonKeys
import Schemata.Proofs.Value.Hashable
import Schemata.Proofs.Schema.Hashable
import Schemata.Proofs.Algebra.Overrides
import Schemata.Proofs.Merging
import Schemata.Proofs.Memo.Nesting
import Schemata.Proofs.Memo.Recency
import Schemata.Proofs.Value.Reordering
import Schemata.Proofs.Validation.Entries
import Schemata.Proofs.Validation.Reordering
import Schemata.Proofs.Algebra.NormalForm
import Schemata.Proofs.Validation.Locations
import Schemata.Proofs.Validation.Defaults
import Schemata.Proofs.Schema.TupleOrder
import Schemata.Proofs.Value.Literals
import Schemata.Proofs.Value.Decimal
import Schemata.Proofs.Regex.Words
import Schemata.Proofs.Scope.NumericKeys
