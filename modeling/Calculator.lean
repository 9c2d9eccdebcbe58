import Calculator.Unicode.Separation
import Calculator.Binary64.Scientific
import Calculator.Arena.Lemmas
import Calculator.Expression
import Calculator.Proofs.Spine.Basic
import Calculator.Proofs.Arena.Numbered
import Calculator.Proofs.Arena.Rooted
import Calculator.Proofs.Spine.Layout
import Calculator.Proofs.Spine.Reading
import Calculator.Proofs.Links
import Calculator.Proofs.Neighbours
import Calculator.Proofs.Spine.Proper
import Calculator.Proofs.Grammar
import Calculator.Proofs.Descent
import Calculator.Proofs.Spine.Lockstep
import Calculator.Proofs.Text.Linear
import Calculator.Proofs.Text.Brackets
import Calculator.Proofs.Text.Runs
import Calculator.Proofs.Text.Depth
import Calculator.Proofs.Cursor
import Calculator.Proofs.Draft.Steps
import Calculator.Proofs.Text.Kept
import Calculator.Proofs.Value.Calls
import Calculator.Proofs.Value.Agreement
import Calculator.Proofs.Value.Parentheses
import Calculator.Proofs.Function.Slice
import Calculator.Proofs.Value.Substitution
import Calculator.Proofs.Value.Scan
import Calculator.Proofs.Value.Groups
import Calculator.Proofs.Value.Settled
import Calculator.Proofs.Value.Steady
import Calculator.Proofs.Value.Order
import Calculator.Proofs.Value.Verdict
import Calculator.Proofs.Text.Blocks
import Calculator.Proofs.Text.Places
import Calculator.Proofs.Text.Spacing
import Calculator.Proofs.Chain.Grouping
import Calculator.Proofs.Text.Case
import Calculator.Proofs.Value.Case
import Calculator.Proofs.Chain.Calls
import Calculator.Proofs.Draft.Products
import Calculator.Proofs.Arity.Reading
import Calculator.Proofs.Value.Dangling
import Calculator.Proofs.Draft.Open
import Calculator.Proofs.Arity.Nodes
import Calculator.Proofs.Draft.Growth
import Calculator.Proofs.Draft.Faithful
import Calculator.Proofs.Drawing.Lines
import Calculator.Proofs.Text.Literals
import Calculator.Proofs.Drawing.Nodes
import Calculator.Proofs.Value.Numbers
import Calculator.Proofs.Arena.Forest
import Calculator.Proofs.Traversal
import Calculator.Proofs.Arena.Reparenting
