import Lox.Yaml.Scalar
import Lox.Yaml.Tag

/-!
# Tokens of a document

Besides scalars and punctuation, the tokens say where the sequences and mappings begin and end that
are expressed by indentation, and what is a key. Whether something is a key is known only from the
colon after it, so what may be one is remembered as a candidate, and the tokens that announce a key
are put before it when the colon comes. Tokens are read as they are taken, with some to spare, so
that a mistake which is further on does not hide one of the structure.
-/

namespace Lox.Yaml

/-- What a token is. -/
inductive TokenKind where
  | directive (d : Directive)
  | documentStart
  | documentEnd
  | streamEnd
  | blockSequenceStart
  | blockMappingStart
  /-- The end of a sequence or mapping that is expressed by indentation. -/
  | blockEnd
  | flowSequenceStart
  | flowSequenceEnd
  | flowMappingStart
  | flowMappingEnd
  | blockEntry
  | flowEntry
  | key
  | value
  | reference (anchor : List Char)
  | anchor (name : List Char)
  | tag (name : TagName)
  | scalar (plain : Bool) (text : List Char)
  deriving DecidableEq, Repr

/-- A token and where it begins. -/
structure Token where
  kind : TokenKind
  mark : Mark
  deriving DecidableEq, Repr

/-- Something that may be a key, or could have been one. -/
structure Candidate where
  /-- Whether it still may be one. -/
  isOpen : Bool
  /-- Whether it has to be one, because of where it stands. -/
  required : Bool
  /-- How many tokens come before it. -/
  position : Nat
  mark : Mark
  deriving DecidableEq, Repr

/-- A key and its colon stand in one line, at most this many characters apart. -/
def keyLimit : Nat := 1024

/-- Gives a candidate up, at `here`. One that has to be a key cannot be given up. -/
def Candidate.close (c : Candidate) (here : Mark) : Except Failure Candidate :=
  if c.isOpen && c.required then .error ⟨.missingColon, c.mark, here⟩
  else .ok { c with isOpen := false }

/-- Gives a candidate up if a colon at `here` is too far away to make it a key. -/
def Candidate.review (c : Candidate) (here : Mark) : Except Failure Candidate :=
  if here.line ≤ c.mark.line && here.index ≤ c.mark.index + keyLimit then .ok c else c.close here

/-- A document whose tokens are being read. -/
structure Lexer where
  cursor : Cursor
  /-- How many tokens were taken. -/
  taken : Nat
  /-- The tokens read and not yet taken. -/
  queue : List Token
  /-- The columns of the sequences and mappings that are open by indentation, innermost first. -/
  indents : List Nat
  /-- Whether a key may begin here. -/
  keyAllowed : Bool
  /-- The last candidate within each open pair of brackets or braces, innermost last. -/
  inner : Array Candidate
  /-- The last candidate outside of all brackets and braces. -/
  outer : Candidate
  /-- Tokens that are not to be looked at before it is known whether they are keys, each with the
  number of brackets and braces around it. A token waits for the last candidate there, which may
  have come after it. -/
  waiting : List (Nat × Nat)
  /-- Up to here, the first character of a line is taken for a byte order mark. -/
  marked : Nat
  /-- How many characters the document has. -/
  length : Nat
  deriving Repr

/-! ## Between tokens -/

/-- How far the next comment is looked for. -/
def commentReach : Nat := 512

/-- Whether a comment comes after nothing but blanks and line breaks, within `n` characters. -/
def reachesComment : Nat → List Char → Bool
  | 0, _ | _, [] => false
  | n + 1, c :: rest =>
    c == '#' || (isBlank c || c == '\n' || c == '\r') && reachesComment n rest

/-- What is being skipped between two tokens. -/
inductive Skipping where
  | blanks
  | comment
  /-- What is between two comments. -/
  | gap
  deriving DecidableEq, Repr

/-- What is skipped after a line break, given what was skipped before `text`, which begins with
it. Comments that follow one another are skipped together. -/
def Skipping.afterBreak (s : Skipping) (text : List Char) : Skipping :=
  match s with
  | .comment => if reachesComment commentReach text then .gap else .blanks
  | s => s

/-- The next text that is neither blank nor comment, and whether a key may begin there. Tabs count
as blanks only where they cannot be taken for indentation, and before a comment that follows
another. -/
def skipBlank (inFlow : Bool) (marked : Nat) (keyAllowed : Bool) (s : Skipping) (mark : Mark) :
    List Char → (List Char × Mark) × Bool
  | [] => (([], mark), keyAllowed)
  | c :: rest =>
    if s = .blanks && mark.column = 0 && mark.index < marked then
      skipBlank inFlow marked keyAllowed s (mark.next 1) rest
    else if isBreak c then
      let s := s.afterBreak (c :: rest)
      let keyAllowed := keyAllowed || !inFlow && s = .blanks
      match c, rest with
      | '\r', '\n' :: rest => skipBlank inFlow marked keyAllowed s (mark.nextLine 2) rest
      | _, rest => skipBlank inFlow marked keyAllowed s (mark.nextLine 1) rest
    else
      match s with
      | .comment => skipBlank inFlow marked keyAllowed s (mark.next 1) rest
      | .gap =>
        skipBlank inFlow marked keyAllowed (if c == '#' then .comment else .gap) (mark.next 1) rest
      | .blanks =>
        if c == ' ' || c == '\t' && (inFlow || !keyAllowed) then
          skipBlank inFlow marked keyAllowed s (mark.next 1) rest
        else if c == '#' then skipBlank inFlow marked keyAllowed .comment (mark.next 1) rest
        else ((c :: rest, mark), keyAllowed)

namespace Lexer

/-- A document of which nothing is read. A second byte order mark at its front is skipped, but then
so is the first character of each line in the first portion but the last. -/
def start (cs : Characters) : Lexer :=
  let marked := if cs.known.head?.any (·.toNat == 0xFEFF) then max 1 (cs.opening - 1) else 0
  let cursor := .ofCharacters cs
  ⟨cursor, 0, [], [], true, #[], ⟨false, false, 0, cursor.mark⟩, [], marked, cs.known.length⟩

/-- How many brackets and braces are open. -/
def depth (l : Lexer) : Nat := l.inner.size

/-- Whether a bracket or brace is open. -/
def inFlow (l : Lexer) : Bool := !l.inner.isEmpty

/-- The column of the innermost sequence or mapping that is open by indentation, or minus one. -/
def indent (l : Lexer) : Int :=
  match l.indents with
  | column :: _ => column
  | [] => -1

/-- The number of the next token to be read. -/
def position (l : Lexer) : Nat := l.taken + l.queue.length

/-- Puts a token before the one with the number `position`, or last if that one was taken. -/
def insert (l : Lexer) (position : Nat) (t : Token) : Lexer :=
  let before := if position < l.taken then l.queue.length else position - l.taken
  { l with queue := l.queue.take before ++ t :: l.queue.drop before }

/-- Adds a token that ends at `cursor`. -/
def push (l : Lexer) (t : Token) (cursor : Cursor) : Lexer :=
  { l with queue := l.queue ++ [t], cursor }

/-- Adds a token of `n` characters. -/
def take (l : Lexer) (kind : TokenKind) (n : Nat) : Lexer :=
  l.push ⟨kind, l.cursor.mark⟩ (l.cursor.advance n)

/-- The last candidate where `depth` brackets and braces are open. -/
def candidateAt? (l : Lexer) : (depth : Nat) → Option Candidate
  | 0 => some l.outer
  | d + 1 => l.inner[d]?

/-- Changes the last candidate where `depth` brackets and braces are open. -/
def setCandidate (l : Lexer) (c : Candidate) : (depth : Nat) → Lexer
  | 0 => { l with outer := c }
  | d + 1 => { l with inner := l.inner.setIfInBounds d c }

/-- The last candidate. -/
def candidate (l : Lexer) : Candidate := l.inner.back?.getD l.outer

/-- Lets the token with a number be looked at, as far as it waits to become a key. -/
def release (l : Lexer) (position : Nat) : Lexer :=
  { l with waiting := l.waiting.eraseP (·.1 = position) }

/-- Gives up the candidate, which is wrong if it has to be a key. -/
def dropCandidate (l : Lexer) : Except Failure Lexer := do
  let c := l.candidate
  if !c.isOpen then return l
  return (l.setCandidate (← c.close l.cursor.mark) l.depth).release c.position

/-- Remembers that what comes may be a key. It has to be one if it stands at the column of the
innermost block, where only a further key can stand. -/
def saveCandidate (l : Lexer) : Except Failure Lexer := do
  if !l.keyAllowed then return l
  let required := !l.inFlow && l.indent == l.cursor.mark.column
  let candidate : Candidate := ⟨true, required, l.position, l.cursor.mark⟩
  let l ← l.dropCandidate
  return { l.setCandidate candidate l.depth with waiting := (l.position, l.depth) :: l.waiting }

/-- Opens a sequence or mapping at a column, unless one is open there. -/
def openBlock (l : Lexer) (position : Nat) (kind : TokenKind) (mark : Mark) :
    Except Failure Lexer := do
  if l.inFlow || mark.column ≤ l.indent then return l
  if depthLimit ≤ l.indents.length then throw ⟨.tooDeep, l.candidate.mark, l.cursor.mark⟩
  return { l with indents := mark.column :: l.indents }.insert position ⟨kind, mark⟩

/-- Closes the sequences and mappings that are indented more than `column`; they end at `mark`. -/
def closeBlocks (l : Lexer) (column : Int) (mark : Mark) : Lexer :=
  if l.inFlow then l
  else
    let closed := l.indents.takeWhile fun (i : Nat) ↦ column < i
    { l with
      indents := l.indents.drop closed.length
      queue := l.queue ++ closed.map fun _ ↦ ⟨.blockEnd, mark⟩ }

/-- Skips a comment after a token in the same line. -/
def skipComment (l : Lexer) : Except Failure Lexer := do
  let blanks := l.cursor.rest.takeWhile isBlank
  let c := l.cursor.advance blanks.length
  if blanks.length < commentReach && c.isAt '#' then return { l with cursor := ← c.skipLine }
  else return l

/-! ## Tokens by kind -/

/-- Ends all blocks, as the end of the documents, a line between them and a directive do. -/
def boundary (l : Lexer) : Except Failure Lexer := do
  let l ← (l.closeBlocks (-1) l.cursor.mark).dropCandidate
  return { l with keyAllowed := false }

/-- The end of all documents, which counts as the beginning of a line. -/
def streamEnd (l : Lexer) : Except Failure Lexer := do
  let mark := if l.cursor.mark.column = 0 then l.cursor.mark else l.cursor.mark.nextLine 0
  let l ← { l with cursor := l.cursor.moveTo l.cursor.rest mark }.boundary
  return l.take .streamEnd 0

/-- A line that begins or ends a document. -/
def marker (l : Lexer) (kind : TokenKind) : Except Failure Lexer :=
  return (← l.boundary).take kind 3

/-- A directive. -/
def directive (l : Lexer) : Except Failure Lexer := do
  let l ← l.boundary
  let (d, cursor) ← readDirective l.length l.cursor
  return l.push ⟨.directive d, l.cursor.mark⟩ cursor

/-- An opening bracket or brace. -/
def openFlow (l : Lexer) (kind : TokenKind) : Except Failure Lexer := do
  let l ← l.saveCandidate
  if depthLimit ≤ l.depth then throw ⟨.tooDeep, l.cursor.mark, l.cursor.mark⟩
  let candidate : Candidate := ⟨false, false, l.position, l.cursor.mark⟩
  return { l with inner := l.inner.push candidate, keyAllowed := true }.take kind 1

/-- A closing bracket or brace. If there was no candidate since the opening one, that one is not
waited for any more. -/
def closeFlow (l : Lexer) (kind : TokenKind) : Except Failure Lexer := do
  let l ← l.dropCandidate
  let l := if l.inFlow then { l.release l.candidate.position with inner := l.inner.pop } else l
  return { l with keyAllowed := false }.take kind 1

/-- A comma between brackets or braces. -/
def flowEntry (l : Lexer) : Except Failure Lexer := do
  let l ← l.dropCandidate
  return { l with keyAllowed := true }.take .flowEntry 1

/-- The dash of an entry. -/
def blockEntry (l : Lexer) : Except Failure Lexer := do
  if !l.inFlow && !l.keyAllowed then throw ⟨.misplacedEntry, l.cursor.mark, l.cursor.mark⟩
  let l ← l.openBlock l.position .blockSequenceStart l.cursor.mark
  let l ← l.dropCandidate
  return { l with keyAllowed := true }.take .blockEntry 1

/-- The question mark of a key. -/
def explicitKey (l : Lexer) : Except Failure Lexer := do
  if !l.inFlow && !l.keyAllowed then throw ⟨.misplacedKey, l.cursor.mark, l.cursor.mark⟩
  let l ← l.openBlock l.position .blockMappingStart l.cursor.mark
  let l ← l.dropCandidate
  return { l with keyAllowed := !l.inFlow }.take .key 1

/-- The colon of a value. -/
def value (l : Lexer) : Except Failure Lexer := do
  let c ← l.candidate.review l.cursor.mark
  let l := l.setCandidate { c with isOpen := false } l.depth
  if c.isOpen then
    let l ← (l.insert c.position ⟨.key, c.mark⟩).openBlock c.position .blockMappingStart c.mark
    return { l.release c.position with keyAllowed := false }.take .value 1
  else
    if !l.inFlow && !l.keyAllowed then throw ⟨.misplacedValue, l.cursor.mark, l.cursor.mark⟩
    let l ← l.openBlock l.position .blockMappingStart l.cursor.mark
    return { l with keyAllowed := !l.inFlow }.take .value 1

/-- The anchor of a node, or a reference to the node with an anchor. -/
def anchor (l : Lexer) (kind : List Char → TokenKind) : Except Failure Lexer := do
  let l ← l.saveCandidate
  let (name, cursor) ← readAnchor l.cursor.mark (l.cursor.advance 1)
  return { l with keyAllowed := false }.push ⟨kind name, l.cursor.mark⟩ cursor

/-- The tag of a node. -/
def tag (l : Lexer) : Except Failure Lexer := do
  let l ← l.saveCandidate
  let (name, cursor) ← readTag l.length l.cursor
  return { l with keyAllowed := false }.push ⟨.tag name, l.cursor.mark⟩ cursor

/-- A block of lines. -/
def block (l : Lexer) (folded : Bool) : Except Failure Lexer := do
  let l ← l.dropCandidate
  let mark := l.cursor.mark
  let (text, cursor) ← readBlock folded l.indent mark (l.length + 1) (l.cursor.advance 1)
  return { l with keyAllowed := true }.push ⟨.scalar false text, mark⟩ cursor

/-- A quoted scalar. -/
def quoted (l : Lexer) (double : Bool) : Except Failure Lexer := do
  let l ← l.saveCandidate
  let mark := l.cursor.mark
  let opened := l.cursor.advance 1
  opened.need 4
  let (text, cursor) ← readQuoted double mark (l.length + 1) [] opened
  return { l with keyAllowed := false }.push ⟨.scalar false text, mark⟩ cursor

/-- A plain scalar. -/
def plain (l : Lexer) : Except Failure Lexer := do
  let l ← l.saveCandidate
  let mark := l.cursor.mark
  let scalar ← Plain.read l.inFlow (l.indent + 1).toNat mark (l.length + 1) [] .empty l.cursor
  let l := { l with keyAllowed := scalar.endsLine }.push ⟨.scalar true scalar.text, mark⟩
    scalar.cursor
  if scalar.endsLine then return l else l.skipComment

/-- The characters that no plain scalar begins with, except that dashes, question marks and colons
do before another character. -/
def indicators : List Char :=
  ['-', '?', ':', ',', '[', ']', '\x7b', '\x7d', '#', '&', '*', '!', '|', '>', '\x27', '"', '%',
    '@', '\x60']

/-- Whether a plain scalar begins with `c`, given what follows. -/
def startsPlain (inFlow : Bool) (c : Char) (rest : List Char) : Bool :=
  !indicators.contains c && !startsBlank [c] || c == '-' && !(rest.head?.any isBlank) ||
    !inFlow && (c == '?' || c == ':') && !startsBlank rest

/-- Reads the next token, with what it implies about blocks and keys before it, and a comment after
it in the same line. -/
def step (l : Lexer) : Except Failure Lexer := do
  let ((rest, mark), keyAllowed) :=
    skipBlank l.inFlow l.marked l.keyAllowed .blanks l.cursor.mark l.cursor.rest
  let cursor := l.cursor.moveTo rest mark
  cursor.need 4
  let l := { l with cursor, keyAllowed }.closeBlocks mark.column l.cursor.mark
  match rest with
  | [] => l.streamEnd
  | c :: rest =>
    if mark.column = 0 && c == '%' then l.directive
    else if cursor.atMarker '-' then l.marker .documentStart
    else if cursor.atMarker '.' then l.marker .documentEnd
    else if c == '[' then (← l.openFlow .flowSequenceStart).skipComment
    else if c == '\x7b' then (← l.openFlow .flowMappingStart).skipComment
    else if c == ']' then (← l.closeFlow .flowSequenceEnd).skipComment
    else if c == '\x7d' then (← l.closeFlow .flowMappingEnd).skipComment
    else if c == ',' then (← l.flowEntry).skipComment
    else if c == '-' && startsBlank rest then l.blockEntry
    else if c == '?' && (l.inFlow || startsBlank rest) then (← l.explicitKey).skipComment
    else if c == ':' && (l.inFlow || startsBlank rest) then (← l.value).skipComment
    else if c == '*' then (← l.anchor .reference).skipComment
    else if c == '&' then (← l.anchor .anchor).skipComment
    else if c == '!' then (← l.tag).skipComment
    else if c == '|' && !l.inFlow then l.block false
    else if c == '>' && !l.inFlow then l.block true
    else if c == '\x27' then (← l.quoted false).skipComment
    else if c == '"' then (← l.quoted true).skipComment
    else if startsPlain l.inFlow c rest then l.plain
    else throw ⟨.noToken, mark, mark⟩

/-! ## Taking tokens -/

/-- How many tokens have to be there beyond one before that one is looked at. -/
def lookahead : Nat := 2

/-- Whether the next token still waits for a candidate, which is given up if it is too far away. -/
def awaits (l : Lexer) : Except Failure (Bool × Lexer) := do
  let some depth := l.waiting.lookup l.taken | return (false, l)
  let some c := l.candidateAt? depth | return (false, l.release l.taken)
  let c ← c.review l.cursor.mark
  let l := l.setCandidate c depth
  if c.isOpen then return (true, l) else return (false, l.release l.taken)

/-- Reads on until the next token can be looked at. `n` bounds the number of steps. -/
def advance : Nat → Lexer → Except Failure Lexer
  | 0, l => .ok l
  | n + 1, l => do
    if l.queue.length ≤ lookahead then (← l.step).advance n
    else
      let (awaits, l) ← l.awaits
      if awaits then (← l.step).advance n else return l

/-- Reads on until the next token can be looked at. After the end of the document there is no end
of tokens that say so. -/
def fetch (l : Lexer) : Except Failure Lexer := l.advance (l.length + lookahead + 2)

end Lexer
end Lox.Yaml
