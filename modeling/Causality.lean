import Causality.Affine
import Causality.Block.Basic
import Causality.Block.Decomposition
import Causality.Decimal.Binary
import Causality.Decimal.Layout
import Causality.Decimal.Reader
import Causality.Decimal.Shortest
import Causality.Dependency
import Causality.Digraph.Components
import Causality.Digraph.Exploration
import Causality.Digraph.Order
import Causality.Element
import Causality.Equation.Basic
import Causality.Equation.Build
import Causality.Equation.Expansion
import Causality.Equation.Format
import Causality.Equation.Residual
import Causality.Expr.Basic
import Causality.Expr.Build
import Causality.Expr.Equality
import Causality.Expr.Folding
import Causality.Expr.Format
import Causality.Expr.Subscript
import Causality.Expr.Substitution
import Causality.Expr.Traversal
import Causality.Fault
import Causality.Incidence
import Causality.Issue
import Causality.Matching.Assignment
import Causality.Matching.Basic
import Causality.Matching.Pairing
import Causality.Matching.Search
import Causality.Matching.Slots
import Causality.Model.Basic
import Causality.Model.Declarations
import Causality.Model.Draft
import Causality.Model.Format
import Causality.Model.Splitting
import Causality.Number
import Causality.Occurrence
import Causality.Plan.Basic
import Causality.Plan.Format
import Causality.Plan.Journal
import Causality.Progression
import Causality.Proofs.Affine.Forms
import Causality.Proofs.Affine.Freedom
import Causality.Proofs.Affine.Overflow
import Causality.Proofs.Block.Decomposition
import Causality.Proofs.Block.Dependencies
import Causality.Proofs.Block.Irreducible
import Causality.Proofs.Block.Renaming
import Causality.Proofs.Block.Uniqueness
import Causality.Proofs.Digraph.Components
import Causality.Proofs.Digraph.Degrees
import Causality.Proofs.Digraph.Depth
import Causality.Proofs.Digraph.Dispatch
import Causality.Proofs.Digraph.Exploration
import Causality.Proofs.Digraph.Least
import Causality.Proofs.Digraph.Order
import Causality.Proofs.Digraph.Traversal
import Causality.Proofs.Equation.Balance
import Causality.Proofs.Equation.Bundles
import Causality.Proofs.Equation.Faults
import Causality.Proofs.Equation.Labels
import Causality.Proofs.Equation.Nodes
import Causality.Proofs.Equation.NormalForm
import Causality.Proofs.Equation.Pairing
import Causality.Proofs.Equation.Places
import Causality.Proofs.Equation.Residuals
import Causality.Proofs.Equation.Shares
import Causality.Proofs.Equation.Turned
import Causality.Proofs.Equation.Unrolling
import Causality.Proofs.Evaluation.Doubles
import Causality.Proofs.Evaluation.Environments
import Causality.Proofs.Evaluation.Folds
import Causality.Proofs.Evaluation.Forms
import Causality.Proofs.Evaluation.Sequence
import Causality.Proofs.Evaluation.Solutions
import Causality.Proofs.Evaluation.Values
import Causality.Proofs.Expr.Faults
import Causality.Proofs.Expr.Plain
import Causality.Proofs.Expr.Readings
import Causality.Proofs.Expr.Sites
import Causality.Proofs.Failure
import Causality.Proofs.Fallible
import Causality.Proofs.Incidence.Entries
import Causality.Proofs.Incidence.Ids
import Causality.Proofs.Incidence.Keys
import Causality.Proofs.Incidence.Rearranged
import Causality.Proofs.Incidence.References
import Causality.Proofs.Incidence.Relabelled
import Causality.Proofs.Incidence.Reordered
import Causality.Proofs.Incidence.Slots
import Causality.Proofs.Incidence.Turned
import Causality.Proofs.Incidence.Unknowns
import Causality.Proofs.Label
import Causality.Proofs.Matching.Assignment
import Causality.Proofs.Matching.Budget
import Causality.Proofs.Matching.Maximum
import Causality.Proofs.Matching.Models
import Causality.Proofs.Matching.Pairing
import Causality.Proofs.Matching.Perfect
import Causality.Proofs.Matching.Relabelled
import Causality.Proofs.Matching.Search
import Causality.Proofs.Matching.Stages
import Causality.Proofs.Model.Accepted
import Causality.Proofs.Model.Elementwise
import Causality.Proofs.Model.Lookup
import Causality.Proofs.Model.Names
import Causality.Proofs.Model.Outcome
import Causality.Proofs.Model.Redeclared
import Causality.Proofs.Model.Turned
import Causality.Proofs.Negation
import Causality.Proofs.Plan.Causal
import Causality.Proofs.Plan.Execution
import Causality.Proofs.Plan.Flaws
import Causality.Proofs.Plan.NormalForm
import Causality.Proofs.Plan.Outcome
import Causality.Proofs.Plan.Rearranged
import Causality.Proofs.Plan.RoundTrip
import Causality.Proofs.Plan.Scalar
import Causality.Proofs.Plan.Stages
import Causality.Proofs.Plan.Triangular
import Causality.Proofs.Plan.Turned
import Causality.Proofs.Plan.Verdict
import Causality.Role
import Causality.Session
import Causality.Text.Printable
import Causality.Text.Quoted
import Causality.Variable
import Causality.Verdict
import Causality.Proofs.Expr.Contexts
import Causality.Proofs.Matching.Augmenting
import Causality.Proofs.Incidence.Counts
import Causality.Proofs.Expr.Elements
import Causality.Proofs.Equation.Unrolled
import Causality.Proofs.Model.Subscripts
import Causality.Proofs.Expr.Places
import Causality.Proofs.Rounding
import Causality.Proofs.Expr.Arithmetic
