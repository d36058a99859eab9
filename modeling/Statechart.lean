import Statechart.Answer
import Statechart.Breakpoint
import Statechart.Decimal.Shortest
import Statechart.Decimal.Text
import Statechart.Element
import Statechart.Execution
import Statechart.Expr
import Statechart.Expr.OfTree
import Statechart.Fault
import Statechart.Grammar
import Statechart.Id
import Statechart.Machine
import Statechart.Machine.Element
import Statechart.Machine.OfTree
import Statechart.Request
import Statechart.Sample
import Statechart.Session
import Statechart.Step
import Statechart.Text.Hidden
import Statechart.Text.Pattern
import Statechart.Text.Quoted
import Statechart.Token
import Statechart.Token.Lexer
import Statechart.Tree
import Statechart.Tree.Defect
import Statechart.Tree.Parser
import Statechart.Value
import Statechart.Proofs.BigStep
import Statechart.Proofs.Derivation
import Statechart.Proofs.Moves
import Statechart.Proofs.Nesting
import Statechart.Proofs.Offer
import Statechart.Proofs.Stage
import Statechart.Proofs.Phase
import Statechart.Proofs.Announcement
import Statechart.Proofs.Failure
import Statechart.Proofs.Refinement
import Statechart.Proofs.History
import Statechart.Proofs.Once
import Statechart.Proofs.Registration
import Statechart.Proofs.Untouched
import Statechart.Proofs.Completion
import Statechart.Proofs.Trigger
import Statechart.Proofs.Snapshot
import Statechart.Proofs.Renumbering.Machine
import Statechart.Proofs.Renumbering.Execution
import Statechart.Proofs.Apart
import Statechart.Proofs.Halting
import Statechart.Proofs.LongestMatch
import Statechart.Proofs.Language
import Statechart.Proofs.Lossless
import Statechart.Proofs.Acceptance
import Statechart.Proofs.Spelling
import Statechart.Proofs.Beginning
import Statechart.Proofs.Sites
import Statechart.Proofs.Parentage
import Statechart.Proofs.Headers
import Statechart.Proofs.Shown
import Statechart.Proofs.Recall
import Statechart.Proofs.Anatomy
import Statechart.Proofs.Buildable
import Statechart.Proofs.Circles
import Statechart.Proofs.Arrivals
import Statechart.Proofs.Edges
import Statechart.Proofs.Elements
import Statechart.Proofs.Ranges
import Statechart.Proofs.Evaluation
import Statechart.Proofs.Recovery
import Statechart.Proofs.Notices
import Statechart.Proofs.Rounding
import Statechart.Proofs.Shortest
import Statechart.Proofs.Numerals
import Statechart.Proofs.Binding
import Statechart.Proofs.Words
import Statechart.Proofs.Display
import Statechart.Proofs.Reordering.Tree
import Statechart.Proofs.Reordering.Machine
import Statechart.Proofs.Reordering.Execution
import Statechart.Proofs.Letters
import Statechart.Proofs.Charts
import Statechart.Proofs.Depiction
import Statechart.Proofs.Construction
import Statechart.Proofs.Samples
import Statechart.Proofs.Unfailing
import Statechart.Proofs.Ring
import Statechart.Proofs.Growth
import Statechart.Proofs.Assignments
