import Lox.Syntax.Traversal
import Lox.Scenario.File
import Lox.Chunk.Check
import Lox.Main
import Lox.Proofs.Heap
import Lox.Proofs.Machine.Order
import Lox.Proofs.Parser.Makes
import Lox.Proofs.Scope.Fit
import Lox.Proofs.Machine.Sound
import Lox.Proofs.Session
import Lox.Proofs.Machine.Similar
import Lox.Proofs.Parser.Tracks
import Lox.Proofs.Parser.Sequence
import Lox.Proofs.Token.Extent
import Lox.Proofs.Token.Lines
import Lox.Proofs.Scope.Sequence
import Lox.Proofs.Repl
import Lox.Proofs.Scope.Fresh
import Lox.Proofs.Grammar.Yield
import Lox.Proofs.Parser.ReadsStmt
import Lox.Proofs.Machine.Control
import Lox.Proofs.Machine.Rest
import Lox.Proofs.Token.Respell
import Lox.Proofs.Grammar.Respell
import Lox.Proofs.Renaming
import Lox.Proofs.Number.Range
import Lox.Proofs.Text.Utf8
import Lox.Proofs.Token.Lexeme
import Lox.Proofs.Token.Stretch
import Lox.Proofs.Machine.Fuel
import Lox.Proofs.Machine.ForLoop
import Lox.Proofs.Machine.Calls
import Lox.Proofs.Syntax.Nodes
import Lox.Proofs.Machine.Table
import Lox.Proofs.Bindings
import Lox.Proofs.Machine.Output
import Lox.Proofs.Rejection
import Lox.Proofs.Syntax.Address
import Lox.Proofs.Scope.Situation
import Lox.Proofs.Scope.Lexical
import Lox.Proofs.Parser.Places
import Lox.Proofs.Scope.Rules
import Lox.Proofs.Scope.Violations
import Lox.Proofs.Parser.Indexed
import Lox.Proofs.Parser.Follows
import Lox.Proofs.Parser.Survives
import Lox.Proofs.Parser.Append
import Lox.Proofs.Token.Spacing
import Lox.Proofs.Number.Decimal
import Lox.Proofs.Number.Text
import Lox.Proofs.Number.ReadBack
import Lox.Proofs.Syntax.Prefixed
import Lox.Proofs.Forest
import Lox.Proofs.Chunk.Matching
import Lox.Proofs.Token.Demand
import Lox.Proofs.Places
import Lox.Proofs.Chunk.Lines
import Lox.Proofs.Number.Comparison
import Lox.Proofs.Rooted
import Lox.Proofs.Machine.Chronicle
import Lox.Proofs.Machine.Moments
import Lox.Proofs.Environments
import Lox.Proofs.Equality
import Lox.Proofs.Syntax.Walk
import Lox.Proofs.Scope.Uses
