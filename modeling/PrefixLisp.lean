import PrefixLisp.Token.Stepping
import PrefixLisp.Main
import PrefixLisp.Proofs.Token.Shape
import PrefixLisp.Proofs.Token.Boundary
import PrefixLisp.Proofs.Token.Extent
import PrefixLisp.Proofs.Token.Stream
import PrefixLisp.Proofs.Token.Blanked
import PrefixLisp.Proofs.Token.Pieces
import PrefixLisp.Proofs.Token.Cursor
import PrefixLisp.Proofs.Token.Longest
import PrefixLisp.Proofs.Expr.Occurrence
import PrefixLisp.Proofs.Expr.Grammar
import PrefixLisp.Proofs.Expr.Stepping
import PrefixLisp.Proofs.Expr.Reading
import PrefixLisp.Proofs.Expr.Writing
import PrefixLisp.Proofs.Expr.Tokens
import PrefixLisp.Proofs.Expr.Viable
import PrefixLisp.Proofs.Expr.Nesting
import PrefixLisp.Proofs.Expr.Expectation
import PrefixLisp.Proofs.Value.Occurrence
import PrefixLisp.Proofs.Value.Defensive
import PrefixLisp.Proofs.Value.Alike
import PrefixLisp.Proofs.Value.Combination
import PrefixLisp.Proofs.Value.Equality
import PrefixLisp.Proofs.Value.Sequence
import PrefixLisp.Proofs.Builtin
import PrefixLisp.Proofs.Scope
import PrefixLisp.Proofs.Scope.History
import PrefixLisp.Proofs.Text.ByteOrder
import PrefixLisp.Proofs.Eval.Congruence
import PrefixLisp.Proofs.Eval.Simulation
import PrefixLisp.Proofs.Eval.Flat
import PrefixLisp.Proofs.Eval.Printing
import PrefixLisp.Proofs.Eval.Effect
import PrefixLisp.Proofs.Eval.Depth
import PrefixLisp.Proofs.Eval.Truncated
import PrefixLisp.Proofs.Eval.Coupling
import PrefixLisp.Proofs.Eval.Muted
import PrefixLisp.Proofs.Eval.Unrelated
import PrefixLisp.Proofs.Eval.Operands
import PrefixLisp.Proofs.Eval.Call
import PrefixLisp.Proofs.Eval.Constant
import PrefixLisp.Proofs.Session.Parsing
import PrefixLisp.Proofs.Session.Lenient
import PrefixLisp.Proofs.Session.Lines
import PrefixLisp.Proofs.Session.EndOfText
import PrefixLisp.Proofs.Session.Invariant
import PrefixLisp.Proofs.Session.Inspection
import PrefixLisp.Proofs.Eval.FunctionFree
import PrefixLisp.Proofs.Token.Layout
