/-!
# Mistakes in documents

The layout of a document, and the report of a mistake in it, depend on lines and columns. A mistake
is a problem with the place where it shows and that of what was being read.
-/

namespace Lox.Yaml

/-- A place in a document. Lines and columns count from zero. -/
structure Mark where
  line : Nat
  column : Nat
  /-- How many characters stand before it. -/
  index : Nat
  deriving DecidableEq, Repr

/-- The beginning of a document. -/
def Mark.start : Mark := ⟨0, 0, 0⟩

/-- The place `n` characters further on in the same line. -/
def Mark.next (m : Mark) (n : Nat) : Mark := ⟨m.line, m.column + n, m.index + n⟩

/-- The beginning of the next line, after a line break of `n` characters. -/
def Mark.nextLine (m : Mark) (n : Nat) : Mark := ⟨m.line + 1, 0, m.index + n⟩

/-- Brackets, braces and indented blocks are nested at most this deep. -/
def depthLimit : Nat := 10000

/-- Why a text is not a document. -/
inductive Problem where
  | invalidLeadingByte
  | invalidTrailingByte
  | incompleteCharacter
  | overlongCharacter
  | invalidCharacter
  | incompleteUnit
  | strayLowSurrogate
  | incompletePair
  | missingLowSurrogate
  | controlCharacter
  | unexpectedEnd
  | markerInQuotes
  | unknownEscape
  | missingHexDigit
  | invalidEscapeCode
  | zeroIndent
  | textAfterLine
  | tabInIndent
  | tabBeforePlain
  | missingColon
  | misplacedEntry
  | misplacedKey
  | misplacedValue
  | noToken
  | tooDeep
  | missingAnchorName
  | missingExclamation
  | missingUri
  | missingBracket
  | missingEscapedByte
  | wrongLeadingByte
  | wrongTrailingByte
  | missingBlank
  | missingBlankOrBreak
  | missingDirectiveName
  | textAfterDirectiveName
  | unknownDirective
  | missingVersion
  | longVersion
  | missingVersionDot
  | missingDocument
  | repeatedVersion
  | otherVersion
  | repeatedHandle
  | unknownHandle
  | missingContent
  | missingEntry
  | missingKey
  | openSequence
  | openMapping
  | unknownAnchor (name : String)
  deriving DecidableEq, Repr

/-- The words for a problem. -/
def Problem.message : Problem → String
  | .invalidLeadingByte => "invalid leading UTF-8 octet"
  | .invalidTrailingByte => "invalid trailing UTF-8 octet"
  | .incompleteCharacter => "incomplete UTF-8 octet sequence"
  | .overlongCharacter => "invalid length of a UTF-8 sequence"
  | .invalidCharacter => "invalid Unicode character"
  | .incompleteUnit => "incomplete UTF-16 character"
  | .strayLowSurrogate => "unexpected low surrogate area"
  | .incompletePair => "incomplete UTF-16 surrogate pair"
  | .missingLowSurrogate => "expected low surrogate area"
  | .controlCharacter => "control characters are not allowed"
  | .unexpectedEnd => "found unexpected end of stream"
  | .markerInQuotes => "found unexpected document indicator"
  | .unknownEscape => "found unknown escape character"
  | .missingHexDigit => "did not find expected hexdecimal number"
  | .invalidEscapeCode => "found invalid Unicode character escape code"
  | .zeroIndent => "found an indentation indicator equal to 0"
  | .textAfterLine => "did not find expected comment or line break"
  | .tabInIndent => "found a tab character where an indentation space is expected"
  | .tabBeforePlain => "found a tab character that violates indentation"
  | .missingColon => "could not find expected ':'"
  | .misplacedEntry => "block sequence entries are not allowed in this context"
  | .misplacedKey => "mapping keys are not allowed in this context"
  | .misplacedValue => "mapping values are not allowed in this context"
  | .noToken => "found character that cannot start any token"
  | .tooDeep => "exceeded max depth of " ++ toString depthLimit
  | .missingAnchorName => "did not find expected alphabetic or numeric character"
  | .missingExclamation => "did not find expected '!'"
  | .missingUri => "did not find expected tag URI"
  | .missingBracket => "did not find the expected '>'"
  | .missingEscapedByte => "did not find URI escaped octet"
  | .wrongLeadingByte => "found an incorrect leading UTF-8 octet"
  | .wrongTrailingByte => "found an incorrect trailing UTF-8 octet"
  | .missingBlank => "did not find expected whitespace"
  | .missingBlankOrBreak => "did not find expected whitespace or line break"
  | .missingDirectiveName => "could not find expected directive name"
  | .textAfterDirectiveName => "found unexpected non-alphabetical character"
  | .unknownDirective => "found unknown directive name"
  | .missingVersion => "did not find expected version number"
  | .longVersion => "found extremely long version number"
  | .missingVersionDot => "did not find expected digit or '.' character"
  | .missingDocument => "did not find expected <document start>"
  | .repeatedVersion => "found duplicate %YAML directive"
  | .otherVersion => "found incompatible YAML document"
  | .repeatedHandle => "found duplicate %TAG directive"
  | .unknownHandle => "found undefined tag handle"
  | .missingContent => "did not find expected node content"
  | .missingEntry => "did not find expected '-' indicator"
  | .missingKey => "did not find expected key"
  | .openSequence => "did not find expected ',' or ']'"
  | .openMapping => "did not find expected ',' or '\x7d'"
  | .unknownAnchor name => "unknown anchor '" ++ name ++ "' referenced"

/-- Whether a problem is one of the structure that tokens make, and not of a token itself. -/
def Problem.isStructural : Problem → Bool
  | .missingDocument | .repeatedVersion | .otherVersion | .repeatedHandle | .unknownHandle
  | .missingContent | .missingEntry | .missingKey | .openSequence | .openMapping => true
  | _ => false

/-- A problem, with the place where it shows and that of what was being read. -/
structure Failure where
  problem : Problem
  context : Mark
  place : Mark
  deriving DecidableEq, Repr

/-- A problem of the document as a whole. -/
def Failure.overall (problem : Problem) : Failure := ⟨problem, .start, .start⟩

/-- The number of the line that a report names, or zero if it names none. It is the line of what
was being read, unless that stands in the first line, and else the line where the problem shows. A
problem of structure is attributed to the line before. -/
def Failure.line (f : Failure) : Nat :=
  let line := if f.context.line ≠ 0 then f.context.line else f.place.line
  if line ≠ 0 ∧ !f.problem.isStructural then line + 1 else line

/-- The report of a failure. -/
def Failure.message (f : Failure) : String :=
  let place := if f.line ≠ 0 then "line " ++ toString f.line ++ ": " else ""
  "yaml: " ++ place ++ f.problem.message

end Lox.Yaml
