import Offside.Expr.Basic
import Offside.Expr.Description
import Offside.Expr.Equality
import Offside.Fault
import Offside.Grammar.Expr
import Offside.Grammar.Progress
import Offside.Grammar.Rule
import Offside.Grammar.Stmt
import Offside.Journal
import Offside.Program
import Offside.Proofs.Accepted
import Offside.Proofs.Assignments
import Offside.Proofs.Attained
import Offside.Proofs.Determined.Expr
import Offside.Proofs.Determined.Parts
import Offside.Proofs.Determined.Stmt
import Offside.Proofs.Face
import Offside.Proofs.Faults.Due
import Offside.Proofs.Faults.Truthful
import Offside.Proofs.Final
import Offside.Proofs.Formed
import Offside.Proofs.Grammatical
import Offside.Proofs.Halting
import Offside.Proofs.Height
import Offside.Proofs.Juxtaposed
import Offside.Proofs.Kept
import Offside.Proofs.Layout.Fragments
import Offside.Proofs.Layout.Lines
import Offside.Proofs.Layout.Remarks
import Offside.Proofs.Leading
import Offside.Proofs.Lexical
import Offside.Proofs.Limit
import Offside.Proofs.LineBreak
import Offside.Proofs.Lossless
import Offside.Proofs.Operators.Reading
import Offside.Proofs.Operators.Safe
import Offside.Proofs.Phrase
import Offside.Proofs.Pieces
import Offside.Proofs.Placed
import Offside.Proofs.Readable.Expr
import Offside.Proofs.Readable.Stmt
import Offside.Proofs.Reader.Basic
import Offside.Proofs.Reader.Calls
import Offside.Proofs.Reader.Refines
import Offside.Proofs.RoundTrip
import Offside.Proofs.Spacing
import Offside.Proofs.Spelled
import Offside.Proofs.Strays
import Offside.Proofs.Traversal
import Offside.Proofs.Unplaced
import Offside.Proofs.Written.Expr
import Offside.Proofs.Written.Stmt
import Offside.Rendering.Block
import Offside.Rendering.Expr
import Offside.Stmt.Basic
import Offside.Stmt.Equality
import Offside.Text.Blank
import Offside.Text.Lines
import Offside.Text.Quoted
import Offside.Token.Basic
import Offside.Token.Kind
import Offside.Token.Lexeme
import Offside.Token.Scan
