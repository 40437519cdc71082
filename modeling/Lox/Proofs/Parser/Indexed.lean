import Lox.Syntax.Parse

/-!
# The parser on positions

The same grammar, read by a parser that keeps a position in a list of tokens and looks tokens up by
their index. This can go wrong in ways that a parser on a list of remaining tokens excludes by its
type: an index may be before the first token or behind the last one, a token may be read that is
behind the end of the source, and a loop or a recursion may never end, as there are no bounds on
them. Each is a result of its own here, so that it can be said that none of them happens.

A declaration that is called leaves a record, which nothing reads.
-/

namespace Lox.Indexed

open Lox.Parser (maxArguments startsStatement)

/-- What was done by a call for a declaration. -/
structure Call where
  /-- The position at which it was called. -/
  start : Nat
  /-- The position that it left. -/
  stop : Nat
  /-- Whether there was no declaration that could be parsed. -/
  dropped : Bool
  /-- The errors found meanwhile. -/
  errors : List StaticError

/-- The state of the parser: its tokens, its position among them, and the errors found so far,
besides the record of its calls for declarations, the latest first. -/
structure Cursor where
  tokens : List Token
  current : Nat
  errors : List StaticError
  calls : List Call

/-- The record of a call that led from one state to another. -/
def Call.between (before after : Cursor) (dropped : Bool) : Call :=
  ⟨before.current, after.current, dropped, after.errors.drop before.errors.length⟩

/-- Why the parser stops without a value. -/
inductive Halt where
  /-- It gave up on a syntax error. -/
  | gaveUp
  /-- It looked for a token before the first one or behind the last one. -/
  | outOfRange
  /-- It looked at a token behind the end of the source. -/
  | behindEnd

/-- Steps of the parser. There is no result if they never end. -/
abbrev Steps := StateT Cursor Option

/-- A parser on positions. -/
abbrev Reader := ExceptT Halt Steps

/-! ## Tokens -/

/-- The token at an index. -/
def token (i : Nat) : Reader Token := do
  let c ← get
  match c.tokens[i]? with
  | none => throw .outOfRange
  | some t => if (c.tokens.take i).any (·.kind == .eof) then throw .behindEnd else pure t

/-- The token at the position. -/
def peek : Reader Token := do
  let c ← get
  token c.current

/-- The token in front of the position. -/
def previous : Reader Token := do
  let c ← get
  match c.current with
  | 0 => throw .outOfRange
  | i + 1 => token i

/-- Whether the end of the source is reached. -/
def atEnd : Reader Bool := do
  let t ← peek
  pure (t.kind == .eof)

/-- Whether the next token is of a kind, and not the end of the source. -/
def check (k : Kind) : Reader Bool := do
  if ← atEnd then pure false
  else
    let t ← peek
    pure (t.kind == k)

/-- Goes on by one token, unless the end of the source is reached. -/
def advance : Reader Token := do
  if ← atEnd then previous
  else
    modify fun c ↦ { c with current := c.current + 1 }
    previous

/-- Reads the next token if it is of one of the kinds. -/
def accept : List Kind → Reader Bool
  | [] => pure false
  | k :: ks => do
    if ← check k then
      let _ ← advance
      pure true
    else accept ks

/-- Records an error at a token. -/
def report (t : Token) (reason : StaticError.Reason) : Reader Unit :=
  modify fun c ↦ { c with errors := c.errors ++ [.ofToken t reason] }

/-- Records an error at the next token. -/
def reportHere (reason : StaticError.Reason) : Reader Unit := do
  let t ← peek
  report t reason

/-- Records an error at the next token and gives up. -/
def fail {α : Type} (reason : StaticError.Reason) : Reader α := do
  reportHere reason
  throw .gaveUp

/-- Reads the next token, which has to be of a kind. -/
def expect (k : Kind) (reason : StaticError.Reason) : Reader Token := do
  if ← check k then advance else fail reason

/-! ## Expressions -/

/-- How strongly the operators between two operands bind. -/
inductive Strength where
  | or | and | equality | comparison | term | factor

namespace Strength

/-- The operators of a strength. -/
def operators : Strength → List Kind
  | or => [.or]
  | and => [.and]
  | equality => [.bangEqual, .equalEqual]
  | comparison => [.greater, .greaterEqual, .less, .lessEqual]
  | term => [.minus, .plus]
  | factor => [.slash, .star]

/-- The expression that an operator makes of two operands. -/
def node : Strength → Expr Unit → Token → Expr Unit → Expr Unit
  | or => .logical
  | and => .logical
  | _ => .binary

end Strength

/-- What is read below statements by parsers that call each other or themselves, with what they have
to know of what was read before. -/
inductive Phrase where
  /-- What is dropped up to the probable start of the next statement. -/
  | dropped
  /-- An expression. -/
  | expression
  /-- Operands with operators of a strength between them. -/
  | operands (s : Strength)
  /-- More operands, `x` being what was read so far. -/
  | operandsFrom (s : Strength) (x : Expr Unit)
  /-- An operand of an operator of a strength. -/
  | operand (s : Strength)
  /-- A call after any number of prefix operators. -/
  | unary
  /-- A primary expression and any number of calls of it. -/
  | call
  /-- Any number of calls of what was read so far. -/
  | callsFrom (x : Expr Unit)
  /-- The rest of a call after its opening parenthesis. -/
  | finishCall (callee : Expr Unit)
  /-- The arguments of a call, of which `count` were read before. -/
  | arguments (count : Nat)
  /-- A literal, a name or a parenthesized expression. -/
  | primary
  /-- The parameters of a function, of which `count` were read before. -/
  | parameters (count : Nat)

namespace Phrase

/-- What is made of a phrase. -/
abbrev Tree : Phrase → Type
  | dropped => Unit
  | arguments _ => List (Expr Unit)
  | parameters _ => List Token
  | _ => Expr Unit

/-- Reads a phrase. Nothing bounds the recursion. -/
def read : (p : Phrase) → Reader p.Tree
  | dropped => do
    if ← atEnd then pure ()
    else
      let last ← previous
      if last.kind = .semicolon then pure ()
      else
        let t ← peek
        if startsStatement t.kind then pure ()
        else
          let _ ← advance
          dropped |>.read
  | expression => do
    let x ← operands .or |>.read
    if ← accept [.equal] then
      let equals ← previous
      let value ← expression |>.read
      match x with
      | .variable name _ => pure (.assign name () value)
      | _ =>
        report equals .invalidAssignmentTarget
        pure x
    else pure x
  | operands s => do
    let x ← operand s |>.read
    operandsFrom s x |>.read
  | operandsFrom s x => do
    if ← accept s.operators then
      let op ← previous
      let y ← operand s |>.read
      operandsFrom s (s.node x op y) |>.read
    else pure x
  | operand .or => operands .and |>.read
  | operand .and => operands .equality |>.read
  | operand .equality => operands .comparison |>.read
  | operand .comparison => operands .term |>.read
  | operand .term => operands .factor |>.read
  | operand .factor => unary |>.read
  | unary => do
    if ← accept [.bang, .minus] then
      let op ← previous
      let x ← unary |>.read
      pure (.unary op x)
    else call |>.read
  | call => do
    let x ← primary |>.read
    callsFrom x |>.read
  | callsFrom x => do
    if ← accept [.leftParen] then
      let y ← finishCall x |>.read
      callsFrom y |>.read
    else pure x
  | finishCall callee => do
    let args ← if ← check .rightParen then pure [] else arguments 0 |>.read
    let paren ← expect .rightParen .expectParenAfterArguments
    pure (.call callee paren args)
  | arguments count => do
    if maxArguments ≤ count then reportHere .tooManyArguments else pure ()
    let x ← expression |>.read
    if ← accept [.comma] then
      let xs ← arguments (count + 1) |>.read
      pure (x :: xs)
    else pure [x]
  | primary => do
    let t ← peek
    match t.kind with
    | .false =>
      let _ ← advance
      pure (.literal t (.bool false))
    | .true =>
      let _ ← advance
      pure (.literal t (.bool true))
    | .nil =>
      let _ ← advance
      pure (.literal t .nil)
    | .number | .string =>
      let _ ← advance
      pure (.literal t t.literal)
    | .identifier =>
      let _ ← advance
      pure (.variable t ())
    | .leftParen =>
      let _ ← advance
      let x ← expression |>.read
      let _ ← expect .rightParen .expectParenAfterExpression
      pure (.grouping t x)
    | _ => fail .expectExpression
  | parameters count => do
    if maxArguments ≤ count then reportHere .tooManyParameters else pure ()
    let p ← expect .identifier .expectParameterName
    if ← accept [.comma] then
      let ps ← parameters (count + 1) |>.read
      pure (p :: ps)
    else pure [p]
partial_fixpoint

end Phrase

/-- Goes on to the probable start of the next statement. -/
def skip : Reader Unit := Phrase.dropped.read

/-- Tokens are dropped up to the end of the source, a token after a semicolon, or one that starts a
statement. -/
theorem skip_eq : skip = (do
    if ← atEnd then pure ()
    else
      let last ← previous
      if last.kind = .semicolon then pure ()
      else
        let t ← peek
        if startsStatement t.kind then pure ()
        else
          let _ ← advance
          skip) := by
  conv => lhs; rw [skip, Phrase.read]
  rfl

/-- Drops a token, and then all up to the probable start of the next statement. -/
def synchronize : Reader Unit := do
  let _ ← advance
  skip

/-- An expression. -/
def expression : Reader (Expr Unit) := Phrase.expression.read

/-- An expression that all tokens belong to. -/
def wholeExpression : Reader (Expr Unit) := do
  let x ← expression
  if ← atEnd then pure x
  else
    reportHere .expectEndOfExpression
    pure x

/-! ## Statements -/

/-- The parameters of a function, of which `count` were read before. -/
def parameters (count : Nat) : Reader (List Token) := (Phrase.parameters count).read

/-- The rest of a variable declaration after its keyword. -/
def varDeclaration : Reader (Stmt Unit) := do
  let name ← expect .identifier .expectVariableName
  let init ← if ← accept [.equal] then some <$> expression else pure none
  let _ ← expect .semicolon .expectSemicolonAfterVariable
  pure (.var name init)

/-- An expression as a statement. -/
def expressionStatement : Reader (Stmt Unit) := do
  let e ← expression
  let _ ← expect .semicolon .expectSemicolonAfterExpression
  pure (.expr e)

/-- An expression, unless the next token is of the kind that may stand in its place. -/
def expressionUnless (k : Kind) : Reader (Option (Expr Unit)) := do
  if ← check k then pure none else some <$> expression

/-- The first clause of a `for` loop, with its semicolon. -/
def initializer : Reader (Option (Stmt Unit)) := do
  if ← accept [.semicolon] then pure none
  else if ← accept [.var] then some <$> varDeclaration
  else some <$> expressionStatement

/-- The rest of a `print` statement after its keyword. -/
def printStatement : Reader (Stmt Unit) := do
  let keyword ← previous
  let e ← expression
  let _ ← expect .semicolon .expectSemicolonAfterValue
  pure (.print keyword e)

/-- The rest of a `return` statement after its keyword. -/
def returnStatement : Reader (Stmt Unit) := do
  let keyword ← previous
  let result ← expressionUnless .semicolon
  let _ ← expect .semicolon .expectSemicolonAfterReturn
  pure (.return keyword result)

/-- The rest of a `break` or `continue` statement after its keyword. -/
def branchStatement : Reader (Stmt Unit) := do
  let keyword ← previous
  let _ ← expect .semicolon (.expectSemicolonAfterBranch keyword.lexeme)
  pure (.branch keyword)

/-- What is read of declarations and statements by parsers that call each other or themselves. -/
inductive Sentence where
  /-- A declaration, or nothing if the parser gave up in it. The call leaves a record. -/
  | declaration
  /-- A declaration, after which parsing goes on at the probable start of the next statement if the
  parser gave up. Other reasons to stop are passed on. -/
  | recovered
  /-- A declaration, of which it is left to others to recover. -/
  | unrecovered
  /-- The rest of a function declaration after its keyword. -/
  | funDeclaration
  /-- A statement. -/
  | statement
  /-- The rest of a block after its opening brace. -/
  | block
  /-- Declarations up to a closing brace or the end of the source. -/
  | declarations
  /-- The rest of a `for` loop after its keyword. -/
  | forStatement
  /-- The rest of a conditional after its keyword. -/
  | ifStatement
  /-- The rest of a `while` loop after its keyword. -/
  | whileStatement
  /-- Declarations up to the end of the source. -/
  | program

namespace Sentence

/-- What is made of a sentence. -/
abbrev Tree : Sentence → Type
  | declaration | recovered => Option (Stmt Unit)
  | block | declarations | program => List (Stmt Unit)
  | _ => Stmt Unit

/-- Reads a sentence. Nothing bounds the recursion. -/
def read : (s : Sentence) → Reader s.Tree
  | declaration => do
    let before ← get
    let stmt? ← recovered |>.read
    modify fun after ↦ { after with calls := .between before after stmt?.isNone :: after.calls }
    pure stmt?
  | recovered =>
    bind (m := Steps) (unrecovered |>.read) fun
      | .ok s => (pure (some s) : Reader _)
      | .error .gaveUp => (do
        synchronize
        pure none : Reader _)
      | .error h => (throw h : Reader _)
  | unrecovered => do
    if ← accept [.fun] then funDeclaration |>.read
    else if ← accept [.var] then varDeclaration
    else statement |>.read
  | funDeclaration => do
    let name ← expect .identifier .expectFunctionName
    let _ ← expect .leftParen .expectParenAfterFunctionName
    let params ← if ← check .rightParen then pure [] else parameters 0
    let _ ← expect .rightParen .expectParenAfterParameters
    let _ ← expect .leftBrace .expectBraceBeforeBody
    let body ← block |>.read
    pure (.function name params body)
  | statement => do
    if ← accept [.for] then forStatement |>.read
    else if ← accept [.if] then ifStatement |>.read
    else if ← accept [.print] then printStatement
    else if ← accept [.return] then returnStatement
    else if ← accept [.while] then whileStatement |>.read
    else if ← accept [.break, .continue] then branchStatement
    else if ← accept [.leftBrace] then
      let brace ← previous
      let body ← block |>.read
      pure (.block brace body)
    else expressionStatement
  | block => do
    let body ← declarations |>.read
    let _ ← expect .rightBrace .expectBraceAfterBlock
    pure body
  | declarations => do
    if ← check .rightBrace then pure []
    else if ← atEnd then pure []
    else
      let stmt? ← declaration |>.read
      let stmts ← declarations |>.read
      pure (stmt?.toList ++ stmts)
  | forStatement => do
    let keyword ← previous
    let _ ← expect .leftParen .expectParenAfterFor
    let init ← initializer
    let test ← expressionUnless .semicolon
    let _ ← expect .semicolon .expectSemicolonAfterLoopCondition
    let increment ← expressionUnless .rightParen
    let _ ← expect .rightParen .expectParenAfterForClauses
    let body ← statement |>.read
    pure (Parser.forLoop keyword init test increment body)
  | ifStatement => do
    let keyword ← previous
    let _ ← expect .leftParen .expectParenAfterIf
    let test ← expression
    let _ ← expect .rightParen .expectParenAfterIfCondition
    let yes ← statement |>.read
    if ← accept [.else] then
      let no ← statement |>.read
      pure (.ifElse keyword test yes (some no))
    else pure (.ifElse keyword test yes none)
  | whileStatement => do
    let keyword ← previous
    let _ ← expect .leftParen .expectParenAfterWhile
    let test ← expression
    let _ ← expect .rightParen .expectParenAfterCondition
    let body ← statement |>.read
    pure (.while keyword test body)
  | program => do
    if ← atEnd then pure []
    else
      let stmt? ← declaration |>.read
      let stmts ← program |>.read
      pure (stmt?.toList ++ stmts)
partial_fixpoint

end Sentence

/-- A declaration, or nothing if the parser gave up in it. The call leaves a record. -/
def declaration : Reader (Option (Stmt Unit)) := Sentence.declaration.read

/-- Declarations up to the end of the source. -/
def program : Reader (Program Unit) := Sentence.program.read

/-- There is a declaration wherever the source does not end. -/
theorem program_eq : program = (do
    if ← atEnd then pure []
    else
      let stmt? ← declaration
      let stmts ← program
      pure (stmt?.toList ++ stmts)) := by
  conv => lhs; rw [program, Sentence.read]
  rfl

/-! ## From tokens to trees -/

/-- The tokens, with one for the end of the source behind them unless the last one is that. -/
def terminated (tokens : List Token) : List Token :=
  if tokens.getLast?.any (·.kind == .eof) then tokens
  else tokens ++ [.endOf (tokens.getLast?.elim 1 (·.line))]

/-- Runs a parser on positions from the first token on. -/
def run {α : Type} (q : Reader α) (tokens : List Token) : Option (Except Halt α × Cursor) :=
  q ⟨terminated tokens, 0, [], []⟩

/-- The program that tokens form, without the declarations in which the parser gave up. -/
def parse (tokens : List Token) : Option (Except Halt (Program Unit) × Cursor) :=
  run program tokens

/-- Runs a parser, of which nothing is left if it gives up. Other reasons to stop are passed on. -/
def attempt {α : Type} (q : Reader α) : Reader (Option α) :=
  bind (m := Steps) q fun
    | .ok a => (pure (some a) : Reader _)
    | .error .gaveUp => (pure none : Reader _)
    | .error h => (throw h : Reader _)

/-- The expression that tokens form, if the parser does not give up in it. -/
def parseExpr (tokens : List Token) : Option (Except Halt (Option (Expr Unit)) × Cursor) :=
  run (attempt wholeExpression) tokens

end Lox.Indexed
