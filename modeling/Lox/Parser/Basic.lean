import Lox.StaticError

/-!
# Parsing tokens with error recovery

A parser reads tokens from a list that holds none for the end of the source; the end token is given
beside it and says where errors at the end are. A parser either yields a value, or gives up at the
token where it was. In both cases it yields the errors it found: some errors make a parser give up
and some do not.
-/

namespace Lox

/-- What a parser did: its value unless it gave up, the tokens it left, and the errors it found. -/
structure Reply (α : Type) where
  value : Option α
  rest : List Token
  errors : List StaticError

/-- A parser, given the token for the end of the source and the tokens before it. -/
def Parser (α : Type) := Token → List Token → Reply α

namespace Parser

/-- Yields a value and reads nothing. -/
@[inline] def succeed {α : Type} (a : α) : Parser α := fun _ ts ↦ ⟨some a, ts, []⟩

/-- Gives up without an error. -/
@[inline] def giveUp {α : Type} : Parser α := fun _ ts ↦ ⟨none, ts, []⟩

/-- Runs one parser, and then the one that its value selects unless it gave up. -/
@[inline] def andThen {α β : Type} (p : Parser α) (f : α → Parser β) : Parser β := fun eof ts ↦
  match p eof ts with
  | ⟨none, rest, errors⟩ => ⟨none, rest, errors⟩
  | ⟨some a, rest, errors⟩ =>
    let r := f a eof rest
    ⟨r.value, r.rest, errors ++ r.errors⟩

/-- Parsers one after the other; one that gives up is the last one. -/
instance : Monad Parser where
  pure := succeed
  bind := andThen

/-- The next token, which may be the one for the end of the source. -/
@[inline] def peek : Parser Token := fun eof ts ↦ ⟨some (ts.headD eof), ts, []⟩

/-- Whether the end of the source is reached. -/
@[inline] def atEnd : Parser Bool := fun _ ts ↦ ⟨some ts.isEmpty, ts, []⟩

/-- Whether the next token is of the kind. -/
@[inline] def next (k : Kind) : Parser Bool := fun _ ts ↦
  ⟨some (match ts with | [] => false | t :: _ => t.kind == k), ts, []⟩

/-- Reads the next token if it is of one of the kinds. -/
@[inline] def accept? (kinds : List Kind) : Parser (Option Token) := fun _ ts ↦
  match ts with
  | [] => ⟨some none, [], []⟩
  | t :: rest => if t.kind ∈ kinds then ⟨some (some t), rest, []⟩ else ⟨some none, t :: rest, []⟩

/-- Records an error at a token. -/
@[inline] def report (t : Token) (reason : StaticError.Reason) : Parser Unit := fun _ ts ↦
  ⟨some (), ts, [.ofToken t reason]⟩

/-- Records an error at the next token. -/
@[inline] def reportHere (reason : StaticError.Reason) : Parser Unit := fun eof ts ↦
  ⟨some (), ts, [.ofToken (ts.headD eof) reason]⟩

/-- Records an error at the next token and gives up. -/
@[inline] def fail {α : Type} (reason : StaticError.Reason) : Parser α := fun eof ts ↦
  ⟨none, ts, [.ofToken (ts.headD eof) reason]⟩

/-- Reads the next token, which has to be of the kind. -/
@[inline] def expect (k : Kind) (reason : StaticError.Reason) : Parser Token := fun eof ts ↦
  match ts with
  | [] => fail reason eof []
  | t :: rest => if t.kind = k then ⟨some t, rest, []⟩ else fail reason eof (t :: rest)

/-- Whether a token of this kind starts a statement, for the purpose of recovery. -/
def startsStatement : Kind → Bool
  | .class | .fun | .var | .for | .if | .while | .print | .return => true
  | _ => false

/-- The tokens from the probable start of the next statement on, when `last` was just dropped. -/
def skipFrom (last : Token) : List Token → List Token
  | [] => []
  | t :: rest =>
    if last.kind = .semicolon || startsStatement t.kind then t :: rest else skipFrom t rest

/-- Drops at least one token, and then all up to the probable start of the next statement: what
follows a semicolon, or a keyword that starts a statement. -/
def synchronize : List Token → List Token
  | [] => []
  | t :: rest => skipFrom t rest

/-- Runs a parser, and if it gives up goes on at the probable start of the next statement. -/
@[inline] def recovering {α : Type} (p : Parser α) : Parser (Option α) := fun eof ts ↦
  match p eof ts with
  | ⟨some a, rest, errors⟩ => ⟨some (some a), rest, errors⟩
  | ⟨none, rest, errors⟩ => ⟨some none, synchronize rest, errors⟩

/-- The tokens before the first one for the end of the source. -/
def body (tokens : List Token) : List Token := tokens.takeWhile (·.kind ≠ .eof)

/-- The first token for the end of the source; if there is none, one on the line of the last
token, or on line 1 if there is no token at all. -/
def ending (tokens : List Token) : Token :=
  (tokens.find? (·.kind = .eof)).getD (.endOf (tokens.getLast?.elim 1 (·.line)))

/-- Runs a parser on tokens, of which those after an end of the source are not looked at. -/
def run {α : Type} (p : Parser α) (tokens : List Token) : Reply α := p (ending tokens) (body tokens)

end Parser
end Lox
