import Lox.Yaml.Encoding

/-!
# Places in a document

A document is read character by character. A cursor is what is left of it together with the place
where that begins. Who looks at characters says how many are needed; this is where a fault in the
encoding shows.
-/

namespace Lox.Yaml

/-! ## Characters -/

/-- Whether a character is a blank within a line. -/
def isBlank (c : Char) : Bool := c == ' ' || c == '\t'

/-- Whether a character separates lines or paragraphs and stays what it is when read. -/
def isSeparator (c : Char) : Bool := c.toNat == 0x2028 || c.toNat == 0x2029

/-- Whether a character breaks a line. -/
def isBreak (c : Char) : Bool := c == '\n' || c == '\r' || c.toNat == 0x85 || isSeparator c

/-- The text that a line break is read as. -/
def breakText (c : Char) : List Char := if isSeparator c then [c] else ['\n']

/-- Whether a text begins with a blank or a line break, or is at its end. -/
def startsBlank : List Char → Bool
  | [] => true
  | c :: _ => isBlank c || isBreak c

/-- Whether a character may be part of the name of an anchor, a handle or a directive. -/
def isNameCharacter (c : Char) : Bool := c.isAlphanum || c == '_' || c == '-'

/-! ## Cursors -/

/-- What is left of a document, and where it begins. -/
structure Cursor where
  rest : List Char
  mark : Mark
  /-- What is wrong with the encoding of the document. -/
  fault : Option Fault
  deriving DecidableEq, Repr

namespace Cursor

/-- The beginning of a document. -/
def ofCharacters (cs : Characters) : Cursor := ⟨cs.known, .start, cs.fault⟩

/-- The cursor elsewhere in the same document. -/
def moveTo (c : Cursor) (rest : List Char) (mark : Mark) : Cursor := { c with rest, mark }

/-- The cursor `n` characters further on in the same line. -/
def advance (c : Cursor) (n : Nat) : Cursor := c.moveTo (c.rest.drop n) (c.mark.next n)

/-- Asks for the first `index` characters of the document. -/
def reach (c : Cursor) (index : Nat) : Except Failure Unit :=
  match c.fault with
  | some fault => if fault.limit < index then .error (.overall fault.problem) else .ok ()
  | none => .ok ()

/-- Asks for `n` characters from here. -/
def need (c : Cursor) (n : Nat) : Except Failure Unit := c.reach (c.mark.index + n)

/-- The line break at a cursor as the text it is read as, and the cursor after it. -/
def lineBreak? (c : Cursor) : Option (List Char × Cursor) :=
  match c.rest with
  | '\r' :: '\n' :: rest => some (['\n'], c.moveTo rest (c.mark.nextLine 2))
  | b :: rest =>
    if isBreak b then some (breakText b, c.moveTo rest (c.mark.nextLine 1)) else none
  | [] => none

/-- Whether a line begins with three times the character `b` and a blank after them. -/
def atMarker (c : Cursor) (b : Char) : Bool :=
  c.mark.column == 0 && c.rest.take 3 == [b, b, b] && startsBlank (c.rest.drop 3)

/-- Whether a document begins or ends at a line. -/
def atDocument (c : Cursor) : Bool := c.atMarker '-' || c.atMarker '.'

/-- Whether `b` is the next character. -/
def isAt (c : Cursor) (b : Char) : Bool := c.rest.head? == some b

/-- The characters as long as they satisfy `p`, which no line break does, and the cursor after
them. -/
def takeWhile (c : Cursor) (p : Char → Bool) : Except Failure (List Char × Cursor) := do
  let taken := c.rest.takeWhile p
  let c := c.advance taken.length
  c.need 1
  return (taken, c)

/-- The cursor after blanks. -/
def skipBlanks (c : Cursor) : Except Failure Cursor := return (← c.takeWhile isBlank).2

/-- The cursor at the end of the line. -/
def skipLine (c : Cursor) : Except Failure Cursor := return (← c.takeWhile (!isBreak ·)).2

/-- The cursor after the rest of a line in which nothing but a comment may stand. What began at
`start` ends with that line. -/
def endLine (c : Cursor) (start : Mark) : Except Failure Cursor := do
  let c ← c.skipBlanks
  let c ← if c.isAt '#' then c.skipLine else pure c
  match c.lineBreak? with
  | some (_, next) =>
    c.need 2
    return next
  | none => if c.rest.isEmpty then return c else throw ⟨.textAfterLine, start, c.mark⟩

end Cursor
end Lox.Yaml
