import Lox.Number.Text

/-!
# Tokens

A token is a piece of source text with its lexical category, the value it denotes if it is a number
or a string, and the line on which it ends. Tokens can also be made by hand, with any line.
-/

namespace Lox

/-- The lexical category of a token. -/
inductive Kind where
  | illegal | eof
  | leftParen | rightParen | leftBrace | rightBrace | comma | dot | minus | plus | semicolon
  | slash | star
  | bang | bangEqual | equal | equalEqual | greater | greaterEqual | less | lessEqual
  | identifier | string | number
  | and | break | «class» | continue | else | false | for | fun | if | nil | or | print | return
  | super | this | true | var | while
  /-- A category that is none of the above, by its code. -/
  | unknown (code : Nat)
  deriving DecidableEq, Repr

namespace Kind

/-- The kinds that are known, in the order of their codes. -/
def all : List Kind :=
  [.illegal, .eof,
    .leftParen, .rightParen, .leftBrace, .rightBrace, .comma, .dot, .minus, .plus, .semicolon,
    .slash, .star,
    .bang, .bangEqual, .equal, .equalEqual, .greater, .greaterEqual, .less, .lessEqual,
    .identifier, .string, .number,
    .and, .break, .class, .continue, .else, .false, .for, .fun, .if, .nil, .or, .print, .return,
    .super, .this, .true, .var, .while]

/-- The kind of a code. -/
def ofCode (code : Nat) : Kind := all[code]?.getD (.unknown code)

/-- The name of a kind in listings of tokens. -/
def name : Kind → String
  | .illegal => "ILLEGAL"
  | .eof => "EOF"
  | .leftParen => "LEFT_PAREN"
  | .rightParen => "RIGHT_PAREN"
  | .leftBrace => "LEFT_BRACE"
  | .rightBrace => "RIGHT_BRACE"
  | .comma => "COMMA"
  | .dot => "DOT"
  | .minus => "MINUS"
  | .plus => "PLUS"
  | .semicolon => "SEMICOLON"
  | .slash => "SLASH"
  | .star => "STAR"
  | .bang => "BANG"
  | .bangEqual => "BANG_EQUAL"
  | .equal => "EQUAL"
  | .equalEqual => "EQUAL_EQUAL"
  | .greater => "GREATER"
  | .greaterEqual => "GREATER_EQUAL"
  | .less => "LESS"
  | .lessEqual => "LESS_EQUAL"
  | .identifier => "IDENTIFIER"
  | .string => "STRING"
  | .number => "NUMBER"
  | .and => "AND"
  | .break => "BREAK"
  | .class => "CLASS"
  | .continue => "CONTINUE"
  | .else => "ELSE"
  | .false => "FALSE"
  | .for => "FOR"
  | .fun => "FUN"
  | .if => "IF"
  | .nil => "NIL"
  | .or => "OR"
  | .print => "PRINT"
  | .return => "RETURN"
  | .super => "SUPER"
  | .this => "THIS"
  | .true => "TRUE"
  | .var => "VAR"
  | .while => "WHILE"
  | .unknown code => s!"Kind({code})"

/-- The reserved words, each with the kind of its token. -/
def keywords : List (Bytes × Kind) :=
  [("and", Kind.and), ("break", .break), ("class", .class), ("continue", .continue),
    ("else", .else), ("false", .false), ("for", .for), ("fun", .fun), ("if", .if), ("nil", .nil),
    ("or", .or), ("print", .print), ("return", .return), ("super", .super), ("this", .this),
    ("true", .true), ("var", .var), ("while", .while)].map fun (word, k) ↦ (Bytes.ofString word, k)

/-- The kind of a word: that of a reserved word, or an identifier. -/
def ofWord (word : Bytes) : Kind := (keywords.lookup word).getD .identifier

end Kind

/-- A value written in a program: nothing, a truth value, a number or a text. -/
inductive Literal where
  | nil
  | bool (b : Bool)
  | number (x : Number)
  | text (s : Bytes)
  deriving DecidableEq, Repr

/-- The text of a truth value. -/
def boolText (b : Bool) : Bytes := Bytes.ofString (if b then "true" else "false")

/-- The text of a literal in listings of tokens, where an absent one is `null`. -/
def Literal.listing : Literal → Bytes
  | .nil => Bytes.ofString "null"
  | .bool b => boolText b
  | .number x => x.literalText
  | .text s => s

/-- A lexical element of a program. -/
structure Token where
  kind : Kind
  /-- The exact source text; nothing for the end of the source and for invented tokens. -/
  lexeme : Bytes
  /-- The value of a number or string token, and `nil` in all others. -/
  literal : Literal
  line : Int
  deriving DecidableEq, Repr

namespace Token

/-- The token that ends a source on a line. -/
def endOf (line : Int) : Token := ⟨.eof, [], .nil, line⟩

/-- A token in listings: its kind, its source text and its value. -/
def listing (t : Token) : Bytes :=
  Bytes.ofString t.kind.name ++ [32] ++ t.lexeme ++ [32] ++ t.literal.listing

end Token
end Lox
