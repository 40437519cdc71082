import Lox.Token.Basic

/-!
# Static errors

Errors that are found before a program runs, by the scanner, the parser or the resolver. An error
has a line, the place on it as far as that is known, and a reason; its text is made from these.
-/

namespace Lox

/-- Where on its line an error is. -/
inductive StaticError.Place where
  /-- Somewhere on the line. -/
  | line
  /-- At the end of the source. -/
  | end
  /-- At a token with this source text. -/
  | lexeme (text : Bytes)
  deriving DecidableEq, Repr

/-- Why a program is rejected. -/
inductive StaticError.Reason where
  -- found while scanning
  | unexpectedCharacter (character : Bytes)
  | unterminatedString
  | invalidNumber
  -- found while parsing
  | expectExpression
  | expectEndOfExpression
  | expectParenAfterExpression
  | expectParenAfterArguments
  | tooManyArguments
  | invalidAssignmentTarget
  | expectSemicolonAfterExpression
  | expectSemicolonAfterValue
  | expectSemicolonAfterReturn
  | expectSemicolonAfterBranch (keyword : Bytes)
  | expectSemicolonAfterLoopCondition
  | expectSemicolonAfterVariable
  | expectVariableName
  | expectFunctionName
  | expectParenAfterFunctionName
  | expectParameterName
  | tooManyParameters
  | expectParenAfterParameters
  | expectBraceBeforeBody
  | expectBraceAfterBlock
  | expectParenAfterIf
  | expectParenAfterIfCondition
  | expectParenAfterWhile
  | expectParenAfterCondition
  | expectParenAfterFor
  | expectParenAfterForClauses
  -- found while resolving names
  | alreadyDeclared (name : Bytes)
  | ownInitializer
  | returnAtTopLevel
  | branchOutsideLoop (keyword : Bytes)
  deriving DecidableEq, Repr

/-- An error found before a program runs. -/
structure StaticError where
  line : Int
  place : StaticError.Place
  reason : StaticError.Reason
  deriving DecidableEq, Repr

namespace StaticError

/-- The text of a place, which stands after the word "Error". -/
def Place.text : Place → Bytes
  | .line => []
  | .end => Bytes.ofString " at end"
  | .lexeme s => Bytes.ofString " at '" ++ s ++ Bytes.ofString "'"

/-- The message that a break or continue outside of every loop gives, found early or late. -/
def branchOutsideLoopMessage (keyword : Bytes) : Bytes :=
  Bytes.ofString "Can't use '" ++ keyword ++ Bytes.ofString "' outside of a loop."

/-- The message that a return outside of every function gives, found early or late. -/
def returnAtTopLevelMessage : Bytes := Bytes.ofString "Cannot return from top-level code."

/-- The message of a reason. -/
def Reason.message : Reason → Bytes
  | .unexpectedCharacter c => Bytes.ofString "Unexpected character: " ++ c
  | .unterminatedString => Bytes.ofString "Unterminated string."
  | .invalidNumber => Bytes.ofString "Invalid number literal."
  | .expectExpression => Bytes.ofString "Expect expression."
  | .expectEndOfExpression => Bytes.ofString "Expect end of expression."
  | .expectParenAfterExpression => Bytes.ofString "Expect ')' after expression."
  | .expectParenAfterArguments => Bytes.ofString "Expect ')' after arguments."
  | .tooManyArguments => Bytes.ofString "Can't have more than 255 arguments."
  | .invalidAssignmentTarget => Bytes.ofString "Invalid assignment target."
  | .expectSemicolonAfterExpression => Bytes.ofString "Expect ';' after expression."
  | .expectSemicolonAfterValue => Bytes.ofString "Expect ';' after value."
  | .expectSemicolonAfterReturn => Bytes.ofString "Expect ';' after return value."
  | .expectSemicolonAfterBranch k => Bytes.ofString "Expect ';' after '" ++ k ++ Bytes.ofString "'."
  | .expectSemicolonAfterLoopCondition => Bytes.ofString "Expect ';' after loop condition."
  | .expectSemicolonAfterVariable => Bytes.ofString "Expect ';' after variable declaration."
  | .expectVariableName => Bytes.ofString "Expect variable name."
  | .expectFunctionName => Bytes.ofString "Expect function name."
  | .expectParenAfterFunctionName => Bytes.ofString "Expect '(' after function name."
  | .expectParameterName => Bytes.ofString "Expect parameter name."
  | .tooManyParameters => Bytes.ofString "Can't have more than 255 parameters."
  | .expectParenAfterParameters => Bytes.ofString "Expect ')' after parameters."
  | .expectBraceBeforeBody => Bytes.ofString "Expect '\x7b' before function body."
  | .expectBraceAfterBlock => Bytes.ofString "Expect '\x7d' after block."
  | .expectParenAfterIf => Bytes.ofString "Expect '(' after 'if'."
  | .expectParenAfterIfCondition => Bytes.ofString "Expect ')' after if condition."
  | .expectParenAfterWhile => Bytes.ofString "Expect '(' after 'while'."
  | .expectParenAfterCondition => Bytes.ofString "Expect ')' after condition."
  | .expectParenAfterFor => Bytes.ofString "Expect '(' after 'for'."
  | .expectParenAfterForClauses => Bytes.ofString "Expect ')' after for clauses."
  | .alreadyDeclared n =>
    Bytes.ofString "Variable '" ++ n ++ Bytes.ofString "' already declared in this scope."
  | .ownInitializer => Bytes.ofString "Can't read local variable in its own initializer."
  | .returnAtTopLevel => returnAtTopLevelMessage
  | .branchOutsideLoop k => branchOutsideLoopMessage k

/-- An error at a token. -/
def ofToken (t : Token) (reason : Reason) : StaticError :=
  ⟨t.line, if t.kind = .eof then .end else .lexeme t.lexeme, reason⟩

/-- The text of an error. -/
def text (e : StaticError) : Bytes :=
  Bytes.ofString "[line " ++ Bytes.ofInt e.line ++ Bytes.ofString "] Error" ++ e.place.text ++
    Bytes.ofString ": " ++ e.reason.message

/-- The text of several errors, one on each line. -/
def listText (errors : List StaticError) : Bytes := Bytes.join [Bytes.newline] (errors.map text)

end StaticError
end Lox
