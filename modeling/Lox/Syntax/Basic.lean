import Lox.Token.Basic

/-!
# Syntax trees

Expressions and statements, with the tokens that later stages need for their lines and names. The
trees are indexed by what is known of each use of a variable: nothing after parsing (`Unit`), and
after the resolution of names how far out its declaration is.

A `for` loop has no form of its own; it is read as the blocks and the `while` loop that it stands
for.
-/

namespace Lox

/-- An expression, with a `β` for each use of a variable. -/
inductive Expr (β : Type) where
  | literal (token : Token) (value : Literal)
  | grouping (paren : Token) (inner : Expr β)
  | unary (op : Token) (operand : Expr β)
  | binary (left : Expr β) (op : Token) (right : Expr β)
  /-- An `and` or `or`, whose right operand may be skipped. -/
  | logical (left : Expr β) (op : Token) (right : Expr β)
  | variable (name : Token) (use : β)
  | assign (name : Token) (use : β) (value : Expr β)
  /-- A call, with its closing parenthesis. -/
  | call (callee : Expr β) (paren : Token) (args : List (Expr β))

/-- A statement, with a `β` for each use of a variable. -/
inductive Stmt (β : Type) where
  | expr (e : Expr β)
  | print (keyword : Token) (e : Expr β)
  | var (name : Token) (init : Option (Expr β))
  | block (brace : Token) (body : List (Stmt β))
  | ifElse (keyword : Token) (test : Expr β) (yes : Stmt β) (no : Option (Stmt β))
  | while (keyword : Token) (test : Expr β) (body : Stmt β)
  | function (name : Token) (params : List Token) (body : List (Stmt β))
  | return (keyword : Token) (result : Option (Expr β))
  /-- A `break` or `continue`. -/
  | branch (keyword : Token)

/-- A program, statement after statement. -/
abbrev Program (β : Type) := List (Stmt β)

namespace Expr

/-- The line on which an expression starts. -/
def line {β : Type} : Expr β → Int
  | .literal t _ => t.line
  | .grouping t _ => t.line
  | .unary t _ => t.line
  | .binary l _ _ => l.line
  | .logical l _ _ => l.line
  | .variable t _ => t.line
  | .assign t _ _ => t.line
  | .call c _ _ => c.line

end Expr

namespace Stmt

/-- The line of a statement: that of its keyword, its name, or its expression. -/
def line {β : Type} : Stmt β → Int
  | .expr e => e.line
  | .print t _ => t.line
  | .var t _ => t.line
  | .block t _ => t.line
  | .ifElse t _ _ _ => t.line
  | .while t _ _ => t.line
  | .function t _ _ => t.line
  | .return t _ => t.line
  | .branch t => t.line

end Stmt

mutual

/-- The same expression with each use of a variable changed by `f`. -/
def Expr.mapUses {β γ : Type} (f : β → γ) : Expr β → Expr γ
  | .literal t v => .literal t v
  | .grouping t x => .grouping t (x.mapUses f)
  | .unary t x => .unary t (x.mapUses f)
  | .binary x t y => .binary (x.mapUses f) t (y.mapUses f)
  | .logical x t y => .logical (x.mapUses f) t (y.mapUses f)
  | .variable t u => .variable t (f u)
  | .assign t u x => .assign t (f u) (x.mapUses f)
  | .call c t args => .call (c.mapUses f) t (Expr.mapUsesList f args)

/-- The same expressions with each use of a variable changed by `f`. -/
def Expr.mapUsesList {β γ : Type} (f : β → γ) : List (Expr β) → List (Expr γ)
  | [] => []
  | x :: xs => x.mapUses f :: Expr.mapUsesList f xs

end

mutual

/-- The same statement with each use of a variable changed by `f`. -/
def Stmt.mapUses {β γ : Type} (f : β → γ) : Stmt β → Stmt γ
  | .expr e => .expr (e.mapUses f)
  | .print t e => .print t (e.mapUses f)
  | .var t none => .var t none
  | .var t (some e) => .var t (some (e.mapUses f))
  | .block t body => .block t (Stmt.mapUsesList f body)
  | .ifElse t c yes none => .ifElse t (c.mapUses f) (yes.mapUses f) none
  | .ifElse t c yes (some no) => .ifElse t (c.mapUses f) (yes.mapUses f) (some (no.mapUses f))
  | .while t c body => .while t (c.mapUses f) (body.mapUses f)
  | .function t ps body => .function t ps (Stmt.mapUsesList f body)
  | .return t none => .return t none
  | .return t (some e) => .return t (some (e.mapUses f))
  | .branch t => .branch t

/-- The same statements with each use of a variable changed by `f`. -/
def Stmt.mapUsesList {β γ : Type} (f : β → γ) : List (Stmt β) → List (Stmt γ)
  | [] => []
  | s :: ss => s.mapUses f :: Stmt.mapUsesList f ss

end

end Lox
