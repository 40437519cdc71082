import Lox.Parser.Basic
import Lox.Syntax.Basic

/-!
# Parsing expressions

The grammar, from the loosest to the tightest form:

    assignment  = IDENTIFIER "=" assignment | or
    or          = and ( "or" and )*
    and         = equality ( "and" equality )*
    equality    = comparison ( ( "!=" | "==" ) comparison )*
    comparison  = term ( ( ">" | ">=" | "<" | "<=" ) term )*
    term        = factor ( ( "-" | "+" ) factor )*
    factor      = unary ( ( "/" | "*" ) unary )*
    unary       = ( "!" | "-" ) unary | call
    call        = primary ( "(" arguments? ")" )*
    primary     = NUMBER | STRING | "true" | "false" | "nil" | IDENTIFIER | "(" assignment ")"

Each form is a parser built from the parser of the next tighter one; the forms that hold whole
expressions again take the parser for those. A number bounds the repetitions and the nesting: one
more than there are tokens is always enough, since each step reads a token.
-/

namespace Lox.Parser

/-- How many arguments a call, and how many parameters a function, may have. -/
def maxArguments : Nat := 255

/-- Continues a chain of operands of the same strength, `x` being what was read so far. -/
def chainFrom (operand : Parser (Expr Unit)) (ops : List Kind)
    (node : Expr Unit → Token → Expr Unit → Expr Unit) : Nat → Expr Unit → Parser (Expr Unit)
  | 0, _ => giveUp
  | n + 1, x => do
    match ← accept? ops with
    | none => succeed x
    | some op =>
      let y ← operand
      chainFrom operand ops node n (node x op y)

/-- Operands with operators of the same strength between them, grouped to the left. -/
def chain (operand : Parser (Expr Unit)) (ops : List Kind)
    (node : Expr Unit → Token → Expr Unit → Expr Unit) (n : Nat) : Parser (Expr Unit) := do
  let x ← operand
  chainFrom operand ops node n x

/-- A literal, a name or a parenthesized expression. -/
def primary (expr : Parser (Expr Unit)) : Parser (Expr Unit) := do
  match ← accept? [.false, .true, .nil, .number, .string, .identifier, .leftParen] with
  | none => fail .expectExpression
  | some t =>
    match t.kind with
    | .false => succeed (.literal t (.bool false))
    | .true => succeed (.literal t (.bool true))
    | .nil => succeed (.literal t .nil)
    | .identifier => succeed (.variable t ())
    | .leftParen =>
      let x ← expr
      let _ ← expect .rightParen .expectParenAfterExpression
      succeed (.grouping t x)
    | _ => succeed (.literal t t.literal)

/-- The arguments of a call, of which `count` were read before. -/
def arguments (expr : Parser (Expr Unit)) : Nat → Nat → Parser (List (Expr Unit))
  | 0, _ => giveUp
  | n + 1, count => do
    if maxArguments ≤ count then reportHere .tooManyArguments
    let x ← expr
    match ← accept? [.comma] with
    | none => succeed [x]
    | some _ =>
      let xs ← arguments expr n (count + 1)
      succeed (x :: xs)

/-- The rest of a call after its opening parenthesis. -/
def finishCall (expr : Parser (Expr Unit)) (n : Nat) (callee : Expr Unit) : Parser (Expr Unit) := do
  let args ← if ← next .rightParen then succeed [] else arguments expr n 0
  let paren ← expect .rightParen .expectParenAfterArguments
  succeed (.call callee paren args)

/-- Any number of calls of what was read so far. -/
def callsFrom (expr : Parser (Expr Unit)) : Nat → Expr Unit → Parser (Expr Unit)
  | 0, _ => giveUp
  | n + 1, x => do
    match ← accept? [.leftParen] with
    | none => succeed x
    | some _ =>
      let y ← finishCall expr (n + 1) x
      callsFrom expr n y

/-- A primary expression and any number of calls of it. -/
def call (expr : Parser (Expr Unit)) (n : Nat) : Parser (Expr Unit) := do
  let x ← primary expr
  callsFrom expr n x

/-- A call after any number of prefix operators. -/
def unary (expr : Parser (Expr Unit)) : Nat → Parser (Expr Unit)
  | 0 => giveUp
  | n + 1 => do
    match ← accept? [.bang, .minus] with
    | none => call expr (n + 1)
    | some op =>
      let x ← unary expr n
      succeed (.unary op x)

/-- Products and quotients. -/
def factor (expr : Parser (Expr Unit)) (n : Nat) : Parser (Expr Unit) :=
  chain (unary expr n) [.slash, .star] .binary n

/-- Sums and differences. -/
def term (expr : Parser (Expr Unit)) (n : Nat) : Parser (Expr Unit) :=
  chain (factor expr n) [.minus, .plus] .binary n

/-- Comparisons of order. -/
def comparison (expr : Parser (Expr Unit)) (n : Nat) : Parser (Expr Unit) :=
  chain (term expr n) [.greater, .greaterEqual, .less, .lessEqual] .binary n

/-- Comparisons for equality. -/
def equality (expr : Parser (Expr Unit)) (n : Nat) : Parser (Expr Unit) :=
  chain (comparison expr n) [.bangEqual, .equalEqual] .binary n

/-- Conjunctions. -/
def conjunction (expr : Parser (Expr Unit)) (n : Nat) : Parser (Expr Unit) :=
  chain (equality expr n) [.and] .logical n

/-- Disjunctions. -/
def disjunction (expr : Parser (Expr Unit)) (n : Nat) : Parser (Expr Unit) :=
  chain (conjunction expr n) [.or] .logical n

/-- Whole expressions. The target of an assignment is read as an expression first; if it is not a
name, that is an error, but no reason to give up. -/
def expression : Nat → Parser (Expr Unit)
  | 0 => giveUp
  | n + 1 => do
    let x ← disjunction (expression n) (n + 1)
    match ← accept? [.equal] with
    | none => succeed x
    | some equals =>
      let value ← expression n
      match x with
      | .variable name _ => succeed (.assign name () value)
      | _ =>
        report equals .invalidAssignmentTarget
        succeed x

/-- An expression that all tokens belong to. What remains is an error, but the expression before it
is given all the same. -/
def wholeExpression (n : Nat) : Parser (Expr Unit) := do
  let x ← expression n
  if ← atEnd then succeed x
  else
    reportHere .expectEndOfExpression
    succeed x

end Lox.Parser
