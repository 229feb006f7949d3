import GradualScript.Position.LineTable
import GradualScript.Proofs.Grammar.Leftmost
import GradualScript.Proofs.Grammar.ParsedExpression
import GradualScript.Proofs.Grammar.Steps
import GradualScript.Session
import GradualScript.Tree.Dump
import GradualScript.Tree.Shape
import GradualScript.Tree.SourceText
import GradualScript.Proofs.Grammar.ParsedProgram
import GradualScript.Proofs.Grammar.DerivedExpression
import GradualScript.Proofs.Grammar.DerivedProgram
import GradualScript.Proofs.Grammar.Exact
import GradualScript.Proofs.Evaluation.Discipline
import GradualScript.Proofs.Number.Literal
import GradualScript.Proofs.Scanning.Lexemes
import GradualScript.Proofs.Scanning.Pieces
import GradualScript.Proofs.RoundTrip.Expression
import GradualScript.Proofs.RoundTrip.Program
import GradualScript.Proofs.RoundTrip.Exact
import GradualScript.Proofs.Evaluation.Failures
import GradualScript.Proofs.Scopes.Map
import GradualScript.Proofs.Typing.Moved
import GradualScript.Proofs.Evaluation.Moved
import GradualScript.Proofs.Typing.Recorded
import GradualScript.Proofs.Typing.Described
import GradualScript.Proofs.Typing.Soundness
import GradualScript.Proofs.Scopes.Chains
import GradualScript.Proofs.Scopes.Lifetimes
import GradualScript.Proofs.Grammar.Placement
import GradualScript.Proofs.Evaluation.Returns
import GradualScript.Proofs.Session.Commits
import GradualScript.Proofs.Typing.Frames
import GradualScript.Proofs.Typing.Closed
import GradualScript.Proofs.Evaluation.Resolved
import GradualScript.Proofs.Session.Names
import GradualScript.Proofs.Scopes.Matching
import GradualScript.Proofs.Evaluation.Tracked
import GradualScript.Proofs.Session.Types
import GradualScript.Proofs.Scanning.Munch
import GradualScript.Proofs.Scanning.Tiling
import GradualScript.Proofs.Scopes.Surroundings
import GradualScript.Proofs.Typing.Kept
import GradualScript.Proofs.Evaluation.Kept
import GradualScript.Proofs.Evaluation.Budgets
import GradualScript.Proofs.Tree.Moved
import GradualScript.Proofs.Scanning.Joining
import GradualScript.Proofs.Grammar.Moved
import GradualScript.Proofs.Session.Batch
import GradualScript.Proofs.Scopes.Renaming
import GradualScript.Proofs.Evaluation.Renaming
import GradualScript.Proofs.Evaluation.Simulation
import GradualScript.Proofs.Evaluation.Lowering
import GradualScript.Proofs.Tree.Nodes
import GradualScript.Proofs.Typing.Gradual
import GradualScript.Proofs.Session.Shapes
import GradualScript.Proofs.Session.Reached
import GradualScript.Proofs.Scopes.Alignment
import GradualScript.Proofs.Evaluation.Insulation
import GradualScript.Proofs.Session.Calls
import GradualScript.Proofs.Session.Globals
import GradualScript.Proofs.Grammar.Sealed
import GradualScript.Proofs.Evaluation.CallLimits
import GradualScript.Proofs.Number.Floats
import GradualScript.Proofs.Session.Arithmetic
import GradualScript.Proofs.Grammar.Mirrored
import GradualScript.Proofs.Grammar.Views
import GradualScript.Proofs.Scanning.Layout
import GradualScript.Proofs.Tree.Parts
import GradualScript.Proofs.Typing.Order
import GradualScript.Proofs.Grammar.Stretches
import GradualScript.Proofs.Evaluation.Places
import GradualScript.Proofs.Session.Places
import GradualScript.Proofs.Grammar.Lookahead
import GradualScript.Proofs.Grammar.Unspent
import GradualScript.Proofs.Grammar.Targets
import GradualScript.Proofs.Grammar.CompletedExpression
import GradualScript.Proofs.Grammar.CompletedProgram
import GradualScript.Proofs.Grammar.FirstError
import GradualScript.Proofs.Position.Cursor
import GradualScript.Proofs.Scopes.Lexical
import GradualScript.Proofs.Position.Offsets
import GradualScript.Proofs.Position.Order
import GradualScript.Proofs.Typing.Retyped
import GradualScript.Proofs.Tree.Shape
import GradualScript.Proofs.Grammar.Contents
import GradualScript.Proofs.Number.Nearest
import GradualScript.Proofs.Number.Shortest
import GradualScript.Proofs.Number.Printed
import GradualScript.Proofs.Evaluation.Traces
import GradualScript.Proofs.Evaluation.Identity
import GradualScript.Proofs.Evaluation.Origins
import GradualScript.Proofs.Session.Identity
