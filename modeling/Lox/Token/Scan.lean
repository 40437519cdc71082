import Lox.Token.Segment

/-!
# Tokens of a source

Scanning turns the segments of a source into tokens and errors. A token, and an error, is on the
line that its segment ends on. Text that forms no token is reported and left out, and a last token
marks the end of the source. The whole source can be scanned at once (`scan`), or one token at a
time (`Scanner.next`).
-/

namespace Lox

namespace Segment

/-- The value of a number token: infinity if the number is too large. -/
def numberValue (text : Bytes) : Number :=
  (Decimal.ofText text).toNumber?.getD Number.infinity

/-- The token that a segment is, if it is one, ending on the given line. -/
def token? (s : Segment) (line : Nat) : Option Token :=
  match s.form with
  | .operator k => some ⟨k, s.text, .nil, line⟩
  | .quoted => some ⟨.string, s.text, .text (s.text.tail.dropLast), line⟩
  | .number => some ⟨.number, s.text, .number (numberValue s.text), line⟩
  | .word => some ⟨.ofWord s.text, s.text, .nil, line⟩
  | .blank | .comment | .stray | .unclosed => none

/-- The character that a stray segment holds, in UTF-8 whatever its bytes were. -/
def strayCharacter : Bytes → Bytes
  | [] => []
  | b :: rest => Utf8.encode (Utf8.decode b rest).code

/-- The error that a segment gives, if any, ending on the given line. -/
def error? (s : Segment) (line : Nat) : Option StaticError :=
  match s.form with
  | .stray => some ⟨line, .line, .unexpectedCharacter (strayCharacter s.text)⟩
  | .unclosed => some ⟨line, .line, .unterminatedString⟩
  | .number =>
    if (Decimal.ofText s.text).toNumber?.isNone then some ⟨line, .line, .invalidNumber⟩ else none
  | .blank | .comment | .operator _ | .quoted | .word => none

/-- Segments with the lines they end on, when the first one begins on `line`. -/
def placed (line : Nat) (segments : List Segment) : List (Segment × Nat) := go [] line segments
where
  /-- Goes through the segments, keeping the placed ones in reverse. -/
  go (acc : List (Segment × Nat)) (line : Nat) : List Segment → List (Segment × Nat)
    | [] => acc.reverse
    | s :: rest =>
      let line := line + s.text.newlines
      go ((s, line) :: acc) line rest

end Segment

/-- The result of scanning: the tokens, and the errors in the order they were found. -/
structure Scanned where
  tokens : List Token
  errors : List StaticError
  deriving DecidableEq, Repr

/-- The tokens of a source, with one last token for its end. -/
def scan (src : Bytes) : Scanned :=
  let placed := Segment.placed 1 (Segment.segments src)
  { tokens := placed.filterMap (fun (s, line) ↦ s.token? line) ++ [.endOf (1 + src.newlines : Nat)]
    errors := placed.filterMap fun (s, line) ↦ s.error? line }

/-- A scanner stands at some point of a source and gives its tokens on demand. -/
structure Scanner where
  /-- What has not been scanned yet. -/
  rest : Bytes
  /-- The line that the scanner stands on. -/
  line : Nat
  /-- The errors found so far. -/
  errors : List StaticError
  deriving DecidableEq, Repr

namespace Scanner

/-- A scanner at the start of a source. -/
def ofSource (src : Bytes) : Scanner := ⟨src, 1, []⟩

/-- The next token and the scanner behind it. At the end of the source that is the token for the
end, again and again. -/
def next (s : Scanner) : Token × Scanner := go s.line s.errors s.rest
where
  /-- Takes segments off the front up to the first one that is a token. -/
  go (line : Nat) (errors : List StaticError) : Bytes → Token × Scanner
    | [] => (.endOf line, ⟨[], line, errors⟩)
    | b :: rest =>
      let segment := Segment.first b rest
      let line := line + segment.text.newlines
      let errors := errors ++ (segment.error? line).toList
      match segment.token? line with
      | some t => (t, ⟨Segment.remainder b rest, line, errors⟩)
      | none => go line errors (Segment.remainder b rest)
  termination_by src => src.length
  decreasing_by exact Segment.length_remainder_lt b rest

end Scanner
end Lox
