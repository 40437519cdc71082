import Lox.Parser.Stmt
import Lox.Token.Scan

/-!
# From sources to syntax trees

Programs and expressions are parsed from tokens or from a source. Errors do not prevent a result:
the statements that could be parsed are given beside the errors, and an expression is missing only
if the parser gave up in it.
-/

namespace Lox

/-- What was parsed, and the errors found on the way. -/
structure Parsed (α : Type) where
  tree : α
  errors : List StaticError

/-- A bound on the steps that parsing these tokens can take. -/
def Parser.bound (tokens : List Token) : Nat := tokens.length + 1

/-- The program that tokens form, without the statements in which the parser gave up. -/
def parseTokens (tokens : List Token) : Parsed (Program Unit) :=
  let r := Parser.run (Parser.program (Parser.bound tokens)) tokens
  ⟨r.value.getD [], r.errors⟩

/-- The expression that tokens form. -/
def parseExprTokens (tokens : List Token) : Parsed (Option (Expr Unit)) :=
  let r := Parser.run (Parser.wholeExpression (Parser.bound tokens)) tokens
  ⟨r.value, r.errors⟩

/-- The program of a source; errors in its tokens are listed before those in their order. -/
def parseProgram (src : Bytes) : Parsed (Program Unit) :=
  let scanned := scan src
  let parsed := parseTokens scanned.tokens
  ⟨parsed.tree, scanned.errors ++ parsed.errors⟩

/-- The expression of a source; errors in its tokens are listed before those in their order. -/
def parseExpr (src : Bytes) : Parsed (Option (Expr Unit)) :=
  let scanned := scan src
  let parsed := parseExprTokens scanned.tokens
  ⟨parsed.tree, scanned.errors ++ parsed.errors⟩

end Lox
