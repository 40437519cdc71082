import Lox.Syntax.Basic

/-!
# The parenthesized form of expressions

Every operation is written with its operator in front, all in parentheses: `(+ 1.0 (* 2.0 3.0))`.
-/

namespace Lox

/-- The text of a literal in an expression. -/
def Literal.written : Literal → Bytes
  | .nil => Bytes.ofString "nil"
  | .bool b => boolText b
  | .number x => x.literalText
  | .text s => s

/-- A name and operands in parentheses, with blanks between them. -/
def parenthesized (name : Bytes) (operands : List Bytes) : Bytes :=
  [Bytes.ascii '('] ++ Bytes.join [Bytes.ascii ' '] (name :: operands) ++ [Bytes.ascii ')']

namespace Expr

mutual

/-- The parenthesized form of an expression. -/
def prefixed {β : Type} : Expr β → Bytes
  | .literal _ v => v.written
  | .grouping _ x => parenthesized (Bytes.ofString "group") [x.prefixed]
  | .unary op x => parenthesized op.lexeme [x.prefixed]
  | .binary x op y => parenthesized op.lexeme [x.prefixed, y.prefixed]
  | .logical x op y => parenthesized op.lexeme [x.prefixed, y.prefixed]
  | .variable name _ => name.lexeme
  | .assign name _ x => parenthesized (Bytes.ofString "=") [name.lexeme, x.prefixed]
  | .call c _ args => parenthesized (Bytes.ofString "call") (c.prefixed :: prefixedList args)

/-- The parenthesized forms of several expressions. -/
def prefixedList {β : Type} : List (Expr β) → List Bytes
  | [] => []
  | x :: xs => x.prefixed :: prefixedList xs

end

end Expr
end Lox
