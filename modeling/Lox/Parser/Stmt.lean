import Lox.Parser.Expr

/-!
# Parsing statements

    program     = declaration*
    declaration = "fun" IDENTIFIER "(" parameters? ")" block
                | "var" IDENTIFIER ( "=" expression )? ";"
                | statement
    statement   = expression ";"
                | "print" expression ";"
                | "return" expression? ";"
                | ( "break" | "continue" ) ";"
                | "if" "(" expression ")" statement ( "else" statement )?
                | "while" "(" expression ")" statement
                | "for" "(" ( variable | expression ";" | ";" ) expression? ";" expression? ")"
                  statement
                | block
    block       = "{" declaration* "}"

A declaration in which the parser gives up is dropped, and parsing goes on at the probable start of
the next statement. As for expressions, a number bounds the nesting and the repetitions.
-/

namespace Lox.Parser

/-- The parameters of a function, of which `count` were read before. -/
def parameters : Nat → Nat → Parser (List Token)
  | 0, _ => giveUp
  | n + 1, count => do
    if maxArguments ≤ count then reportHere .tooManyParameters
    let p ← expect .identifier .expectParameterName
    match ← accept? [.comma] with
    | none => succeed [p]
    | some _ =>
      let ps ← parameters n (count + 1)
      succeed (p :: ps)

/-- Declarations up to a token that closes them or the end of the source, without those in which
the parser gave up. The ones read so far, and their errors, are kept in reverse. -/
def declarations (declaration : Parser (Option (Stmt Unit))) (closes : Kind → Bool) :
    Nat → List (Stmt Unit) → List StaticError → Parser (List (Stmt Unit))
  | 0, _, errors => fun _ ts ↦ ⟨none, ts, errors.reverse⟩
  | n + 1, stmts, errors => fun eof ts ↦
    match ts with
    | [] => ⟨some stmts.reverse, [], errors.reverse⟩
    | t :: rest =>
      if closes t.kind then ⟨some stmts.reverse, t :: rest, errors.reverse⟩
      else
        match declaration eof (t :: rest) with
        | ⟨some (some s), rest, es⟩ =>
          declarations declaration closes n (s :: stmts) (es.reverse ++ errors) eof rest
        | ⟨_, rest, es⟩ => declarations declaration closes n stmts (es.reverse ++ errors) eof rest

/-- The rest of a block after its opening brace. -/
def block (declaration : Parser (Option (Stmt Unit))) (n : Nat) : Parser (List (Stmt Unit)) := do
  let body ← declarations declaration (· == .rightBrace) n [] []
  let _ ← expect .rightBrace .expectBraceAfterBlock
  succeed body

/-- The rest of a function declaration after its keyword. -/
def funDeclaration (declaration : Parser (Option (Stmt Unit))) (n : Nat) : Parser (Stmt Unit) := do
  let name ← expect .identifier .expectFunctionName
  let _ ← expect .leftParen .expectParenAfterFunctionName
  let params ← if ← next .rightParen then succeed [] else parameters n 0
  let _ ← expect .rightParen .expectParenAfterParameters
  let _ ← expect .leftBrace .expectBraceBeforeBody
  let body ← block declaration n
  succeed (.function name params body)

/-- The rest of a variable declaration after its keyword. -/
def varDeclaration (n : Nat) : Parser (Stmt Unit) := do
  let name ← expect .identifier .expectVariableName
  match ← accept? [.equal] with
  | none =>
    let _ ← expect .semicolon .expectSemicolonAfterVariable
    succeed (.var name none)
  | some _ =>
    let init ← expression n
    let _ ← expect .semicolon .expectSemicolonAfterVariable
    succeed (.var name (some init))

/-- An expression as a statement. -/
def expressionStatement (n : Nat) : Parser (Stmt Unit) := do
  let e ← expression n
  let _ ← expect .semicolon .expectSemicolonAfterExpression
  succeed (.expr e)

/-- An expression, unless the next token is of the kind that may stand in its place. -/
def expressionUnless (k : Kind) (n : Nat) : Parser (Option (Expr Unit)) := do
  if ← next k then succeed none
  else
    let e ← expression n
    succeed (some e)

/-- The statement that a `for` loop stands for. The increment follows the body in a block, a missing
condition is true, and an initializer comes before the loop in a block around it. -/
def forLoop (keyword : Token) (init : Option (Stmt Unit)) (test increment : Option (Expr Unit))
    (body : Stmt Unit) : Stmt Unit :=
  let body := match increment with
    | none => body
    | some e => .block keyword [body, .expr e]
  let test := test.getD
    (.literal ⟨.true, Bytes.ofString "true", .nil, keyword.line⟩ (.bool true))
  let loop := .while keyword test body
  match init with
  | none => loop
  | some s => .block keyword [s, loop]

/-- The first clause of a `for` loop, with its semicolon. -/
def initializer (n : Nat) : Parser (Option (Stmt Unit)) := do
  match ← accept? [.semicolon, .var] with
  | none =>
    let s ← expressionStatement n
    succeed (some s)
  | some t =>
    if t.kind = .semicolon then succeed none
    else
      let s ← varDeclaration n
      succeed (some s)

/-- The rest of a `for` loop after its keyword. -/
def forStatement (statement : Parser (Stmt Unit)) (n : Nat) (keyword : Token) :
    Parser (Stmt Unit) := do
  let _ ← expect .leftParen .expectParenAfterFor
  let init ← initializer n
  let test ← expressionUnless .semicolon n
  let _ ← expect .semicolon .expectSemicolonAfterLoopCondition
  let increment ← expressionUnless .rightParen n
  let _ ← expect .rightParen .expectParenAfterForClauses
  let body ← statement
  succeed (forLoop keyword init test increment body)

/-- The rest of a conditional after its keyword. An `else` belongs to the nearest `if`. -/
def ifStatement (statement : Parser (Stmt Unit)) (n : Nat) (keyword : Token) :
    Parser (Stmt Unit) := do
  let _ ← expect .leftParen .expectParenAfterIf
  let test ← expression n
  let _ ← expect .rightParen .expectParenAfterIfCondition
  let yes ← statement
  match ← accept? [.else] with
  | none => succeed (.ifElse keyword test yes none)
  | some _ =>
    let no ← statement
    succeed (.ifElse keyword test yes (some no))

/-- The rest of a `while` loop after its keyword. -/
def whileStatement (statement : Parser (Stmt Unit)) (n : Nat) (keyword : Token) :
    Parser (Stmt Unit) := do
  let _ ← expect .leftParen .expectParenAfterWhile
  let test ← expression n
  let _ ← expect .rightParen .expectParenAfterCondition
  let body ← statement
  succeed (.while keyword test body)

/-- The rest of a `print` statement after its keyword. -/
def printStatement (n : Nat) (keyword : Token) : Parser (Stmt Unit) := do
  let e ← expression n
  let _ ← expect .semicolon .expectSemicolonAfterValue
  succeed (.print keyword e)

/-- The rest of a `return` statement after its keyword. -/
def returnStatement (n : Nat) (keyword : Token) : Parser (Stmt Unit) := do
  let result ← expressionUnless .semicolon n
  let _ ← expect .semicolon .expectSemicolonAfterReturn
  succeed (.return keyword result)

/-- The rest of a `break` or `continue` statement after its keyword. -/
def branchStatement (keyword : Token) : Parser (Stmt Unit) := do
  let _ ← expect .semicolon (.expectSemicolonAfterBranch keyword.lexeme)
  succeed (.branch keyword)

/-- One statement, given parsers for the statements and declarations within it. -/
def statementWith (statement : Parser (Stmt Unit)) (declaration : Parser (Option (Stmt Unit)))
    (n : Nat) : Parser (Stmt Unit) := do
  match ← accept? [.for, .if, .print, .return, .while, .break, .continue, .leftBrace] with
  | none => expressionStatement n
  | some t =>
    match t.kind with
    | .for => forStatement statement n t
    | .if => ifStatement statement n t
    | .print => printStatement n t
    | .return => returnStatement n t
    | .while => whileStatement statement n t
    | .leftBrace =>
      let body ← block declaration n
      succeed (.block t body)
    | _ => branchStatement t

/-- One declaration, given parsers for statements and for the declarations within it. -/
def declarationWith (statement : Parser (Stmt Unit)) (declaration : Parser (Option (Stmt Unit)))
    (n : Nat) : Parser (Option (Stmt Unit)) :=
  recovering do
    match ← accept? [.fun, .var] with
    | none => statement
    | some t => if t.kind = .fun then funDeclaration declaration n else varDeclaration n

mutual

/-- A statement. -/
def statement : Nat → Parser (Stmt Unit)
  | 0 => giveUp
  | n + 1 => statementWith (statement n) (declaration n) (n + 1)

/-- A declaration, or nothing if the parser gave up in it. -/
def declaration : Nat → Parser (Option (Stmt Unit))
  | 0 => giveUp
  | n + 1 =>
    declarationWith (statementWith (statement n) (declaration n) (n + 1)) (declaration n) (n + 1)

end

/-- Declarations up to the end of the source. A closing brace that nothing opened is met by a
declaration, which gives up on it. -/
def program (n : Nat) : Parser (Program Unit) :=
  declarations (declaration n) (fun _ ↦ false) n [] []

end Lox.Parser
