import Lox.Token.Scan

/-!
# Listings of tokens

The tokens of a source are listed one on each line, in words or as JSON objects.
-/

namespace Lox.Cli

/-- The bytes that JSON escapes by one other byte, each with that. -/
def jsonLetters : List (UInt8 × UInt8) :=
  [(8, Bytes.ascii 'b'), (9, Bytes.ascii 't'), (10, Bytes.ascii 'n'), (12, Bytes.ascii 'f'),
    (13, Bytes.ascii 'r'), (Bytes.doubleQuote, Bytes.doubleQuote),
    (Bytes.backslash, Bytes.backslash)]

/-- A byte of a JSON string: quotes, backslashes and control characters are escaped. -/
def jsonByte (b : UInt8) : Bytes :=
  match jsonLetters.lookup b with
  | some c => [Bytes.backslash, c]
  | none =>
    if b < 0x20 then
      let ds := (Nat.toDigits 16 b.toNat).map Bytes.ascii
      Bytes.ofString "\\u" ++ List.replicate (4 - ds.length) 48 ++ ds
    else [b]

/-- A JSON string. -/
def jsonText (s : Bytes) : Bytes :=
  [Bytes.doubleQuote] ++ s.flatMap jsonByte ++ [Bytes.doubleQuote]

/-- The JSON value of a literal. -/
def jsonLiteral : Literal → Bytes
  | .nil => Bytes.ofString "null"
  | .bool b => boolText b
  | .number x => x.json
  | .text s => jsonText s

/-- A token as a JSON object, with its fields in the order of their names. -/
def jsonToken (t : Token) : Bytes :=
  Bytes.ofString "\x7b\"kind\":" ++ jsonText (Bytes.ofString t.kind.name) ++
    Bytes.ofString ",\"lexeme\":" ++ jsonText t.lexeme ++
    Bytes.ofString ",\"line\":" ++ Bytes.ofInt t.line ++
    Bytes.ofString ",\"literal\":" ++ jsonLiteral t.literal ++ Bytes.ofString "\x7d"

/-- Whether a token can be a JSON object, which has to be valid UTF-8. -/
def isJsonToken (t : Token) : Bool := Utf8.isValid t.lexeme

end Lox.Cli
