import Lox.Text.Quoted
import Lox.Yaml.Cursor

/-!
# Scalars

A scalar is written plainly, between quotes, or as a block of indented lines. Within plain and
quoted scalars a line break is read as a space, and `n + 1` line breaks in a row as `n`; a block
keeps its line breaks or folds them in the same way.
-/

namespace Lox.Yaml

/-! ## Gaps -/

/-- Blanks and line breaks between two words. -/
structure Gap where
  /-- The blanks, if there is no line break. -/
  blanks : List Char
  /-- The line breaks, each as the text it is read as. -/
  breaks : List (List Char)
  deriving DecidableEq, Repr

namespace Gap

/-- No gap. -/
def empty : Gap := ⟨[], []⟩

/-- The gap after a line break that is not to be read. -/
def afterEscapedBreak : Gap := ⟨[], [[]]⟩

/-- Whether there is nothing between two words. -/
def isEmpty (g : Gap) : Bool := g.blanks.isEmpty && g.breaks.isEmpty

/-- Whether the second word stands in a later line. -/
def hasBreak (g : Gap) : Bool := !g.breaks.isEmpty

/-- Adds a blank, which counts only before a line break. -/
def addBlank (g : Gap) (b : Char) : Gap := if g.hasBreak then g else ⟨g.blanks ++ [b], []⟩

/-- Adds a line break. -/
def addBreak (g : Gap) (text : List Char) : Gap := ⟨[], g.breaks ++ [text]⟩

/-- What a gap is read as. -/
def text (g : Gap) : List Char :=
  match g.breaks with
  | [] => g.blanks
  | [['\n']] => [' ']
  | ['\n'] :: more => more.flatten
  | breaks => breaks.flatten

/-- Reads a gap. A tab that stands before `indent` in a line of its own is in the way; the result
is then its place. -/
def read (indent : Nat) (g : Gap) (mark : Mark) : List Char → Except Mark (Gap × List Char × Mark)
  | '\r' :: '\n' :: rest => read indent (g.addBreak ['\n']) (mark.nextLine 2) rest
  | c :: rest =>
    if isBreak c then read indent (g.addBreak (breakText c)) (mark.nextLine 1) rest
    else if isBlank c then
      if g.hasBreak && c == '\t' && mark.column < indent then .error mark
      else read indent (g.addBlank c) (mark.next 1) rest
    else .ok (g, c :: rest, mark)
  | [] => .ok (g, [], mark)

/-- Reads a gap in a scalar that began at `start`, given what of it was read before. -/
def after (indent : Nat) (start : Mark) (g : Gap) (c : Cursor) :
    Except Failure (Gap × Cursor) := do
  match read indent g c.mark c.rest with
  | .error place =>
    c.reach (place.index + 1)
    throw ⟨.tabBeforePlain, start, place⟩
  | .ok (g, rest, mark) =>
    let c := c.moveTo rest mark
    c.need 1
    return (g, c)

end Gap

/-! ## Plain scalars -/

/-- The characters that mean something between brackets and braces, and so end a plain scalar
there. -/
def flowIndicators : List Char := [',', '?', '[', ']', '\x7b', '\x7d']

/-- The word at the front of a text. A colon ends it if a blank follows. -/
def word (inFlow : Bool) : List Char → List Char
  | [] => []
  | c :: rest =>
    if isBlank c || isBreak c || c == ':' && startsBlank rest ||
        inFlow && flowIndicators.contains c then []
    else c :: word inFlow rest

/-- A plain scalar that was read. -/
structure Plain where
  text : List Char
  /-- Whether a line break follows. -/
  endsLine : Bool
  cursor : Cursor
  deriving DecidableEq, Repr

/-- Reads the words of a plain scalar. It ends at a comment, at a line that is indented less than
`indent`, unless it stands between brackets or braces, and where a document begins or ends. The
words read are kept in reverse, each after the gap before it, and `gap` is the last one; `n` bounds
the number of words. -/
def Plain.read (inFlow : Bool) (indent : Nat) (start : Mark) :
    Nat → List (List Char) → Gap → Cursor → Except Failure Plain
  | 0, acc, gap, c => .ok ⟨acc.reverse.flatten, gap.hasBreak, c⟩
  | n + 1, acc, gap, c => do
    c.need 4
    let w := if c.atDocument || c.isAt '#' then [] else word inFlow c.rest
    if w.isEmpty then return ⟨acc.reverse.flatten, gap.hasBreak, c⟩
    let acc := w :: gap.text :: acc
    let c := c.advance w.length
    c.need 2
    let (gap, c) ← Gap.after indent start .empty c
    if gap.isEmpty || !inFlow && c.mark.column < indent then
      return ⟨acc.reverse.flatten, gap.hasBreak, c⟩
    read inFlow indent start n acc gap c

/-! ## Quoted scalars -/

/-- The escapes of one character between double quotes, each with the code point it stands for. -/
def escapes : List (Char × Nat) :=
  [('0', 0), ('a', 7), ('b', 8), ('t', 9), ('\t', 9), ('n', 10), ('v', 11), ('f', 12), ('r', 13),
    ('e', 27), (' ', 32), ('"', 34), ('\x27', 39), ('\\', 92), ('N', 0x85), ('_', 0xA0),
    ('L', 0x2028), ('P', 0x2029)]

/-- The escapes by a code, each with the number of its hexadecimal digits. -/
def codeEscapes : List (Char × Nat) := [('x', 2), ('u', 4), ('U', 8)]

/-- The character of an escape, given what follows its backslash, and how many characters it takes
from there. It is part of a scalar that began at `start`. -/
def readEscape (start : Mark) (c : Cursor) : Except Failure (Char × Nat) := do
  match c.rest with
  | [] => throw ⟨.unknownEscape, start, c.mark⟩
  | e :: rest =>
    match escapes.lookup e, codeEscapes.lookup e with
    | some code, _ => return (Char.ofNat code, 1)
    | none, some width =>
      c.need (width + 1)
      let digits := rest.take width
      match Text.readDigits? 16 (digits.map Bytes.ascii) with
      | some code =>
        if digits.length < width || !digits.all (·.toNat < 128) then
          throw ⟨.missingHexDigit, start, c.mark.next 1⟩
        if !Text.isCharacter code then throw ⟨.invalidEscapeCode, start, c.mark.next 1⟩
        return (Char.ofNat code, width + 1)
      | none => throw ⟨.missingHexDigit, start, c.mark.next 1⟩
    | none, none => throw ⟨.unknownEscape, start, c.mark⟩

/-- Reads a quoted scalar after its first quote. Between single quotes only a quote written twice
is special. What was read is kept in reverse; `n` bounds the number of its parts. -/
def readQuoted (double : Bool) (start : Mark) :
    Nat → List (List Char) → Cursor → Except Failure (List Char × Cursor)
  | 0, _, c => .error ⟨.unexpectedEnd, start, c.mark⟩
  | n + 1, acc, c => do
    c.need 2
    if c.atDocument then throw ⟨.markerInQuotes, start, c.mark⟩
    match c.rest with
    | [] => throw ⟨.unexpectedEnd, start, c.mark⟩
    | b :: rest =>
      if isBlank b || isBreak b then
        let (gap, c) ← Gap.after 0 start .empty c
        c.need 4
        readQuoted double start n (gap.text :: acc) c
      else if !double && b == '\x27' then
        if rest.head? = some '\x27' then readQuoted double start n ([b] :: acc) (c.advance 2)
        else return (acc.reverse.flatten, c.advance 1)
      else if double && b == '"' then return (acc.reverse.flatten, c.advance 1)
      else if double && b == '\\' then
        match (c.advance 1).lineBreak? with
        | some (_, next) =>
          c.need 3
          let (gap, c) ← Gap.after 0 start .afterEscapedBreak next
          c.need 4
          readQuoted double start n (gap.text :: acc) c
        | none =>
          let (e, size) ← readEscape start (c.advance 1)
          readQuoted double start n ([e] :: acc) (c.advance (1 + size))
      else readQuoted double start n ([b] :: acc) (c.advance 1)

/-! ## Blocks -/

/-- What becomes of the line breaks at the end of a block. -/
inductive Chomping where
  /-- None is kept. -/
  | strip
  /-- One is kept. -/
  | clip
  /-- All are kept. -/
  | keep
  deriving DecidableEq, Repr

/-- The first line of a block. -/
structure BlockHeader where
  chomping : Chomping
  /-- How much deeper than its surroundings the block is indented; if zero, its lines tell. -/
  increment : Nat
  deriving DecidableEq, Repr

/-- Reads what a character of a block's first line says, if it says something. -/
def BlockHeader.add? (h : BlockHeader) (c : Char) : Option BlockHeader :=
  if c == '-' then some { h with chomping := .strip }
  else if c == '+' then some { h with chomping := .keep }
  else if c.isDigit then some { h with increment := c.toNat - 48 }
  else none

/-- Reads the first line of a block after its mark: a sign and a digit in either order, and then
nothing but a comment. -/
def BlockHeader.read (start : Mark) (c : Cursor) : Except Failure (BlockHeader × Cursor) := do
  let signs := c.rest.takeWhile fun b ↦ b == '-' || b == '+' || b.isDigit
  let isSign (b : Char) : Bool := !b.isDigit
  let indicators := match signs with
    | a :: b :: _ => if isSign a != isSign b then [a, b] else [a]
    | _ => signs
  let header := indicators.foldl (fun h b ↦ (h.add? b).getD h) ⟨.clip, 0⟩
  let read := c.advance (indicators.takeWhile (· != '0')).length
  read.need 1
  if indicators.contains '0' then throw ⟨.zeroIndent, start, read.mark⟩
  return (header, ← read.endLine start)

/-- The lines without text at a place in a block, as their line breaks, with the greatest
indentation among them and the line after them. If `indent` is zero, all blanks are indentation,
and else those before it. A tab in the indentation is in the way; the result is then its place. -/
def emptyLines (indent : Nat) (breaks : List (List Char)) (widest : Nat) (mark : Mark) :
    List Char → Except Mark (List (List Char) × Nat × List Char × Mark)
  | '\r' :: '\n' :: rest =>
    emptyLines indent (breaks ++ [['\n']]) (max widest mark.column) (mark.nextLine 2) rest
  | c :: rest =>
    let inIndent := indent == 0 || mark.column < indent
    if isBreak c then
      emptyLines indent (breaks ++ [breakText c]) (max widest mark.column) (mark.nextLine 1) rest
    else if inIndent && c == ' ' then emptyLines indent breaks widest (mark.next 1) rest
    else if inIndent && c == '\t' then .error mark
    else .ok (breaks, max widest mark.column, c :: rest, mark)
  | [] => .ok (breaks, max widest mark.column, [], mark)

/-- Reads the lines without text in a block that began at `start`. -/
def readEmptyLines (indent : Nat) (start : Mark) (c : Cursor) :
    Except Failure (List (List Char) × Nat × Cursor) := do
  match emptyLines indent [] 0 c.mark c.rest with
  | .error place =>
    c.reach (place.index + 1)
    throw ⟨.tabInIndent, start, place⟩
  | .ok (breaks, widest, rest, mark) =>
    let c := c.moveTo rest mark
    c.need 1
    return (breaks, widest, c)

/-- The lines of a block read so far. -/
structure BlockLines where
  /-- The text, as parts in reverse, without the line breaks after it. -/
  parts : List (List Char)
  /-- Whether the last line begins with a blank, which keeps the line breaks around it. -/
  indented : Bool
  /-- The line break that ends the last line, if one does. -/
  lineEnd : List Char
  /-- The line breaks of the empty lines after it. -/
  empties : List (List Char)
  deriving DecidableEq, Repr

/-- Adds a line with text and the line breaks after it. -/
def BlockLines.add (folded : Bool) (b : BlockLines) (line lineEnd : List Char)
    (empties : List (List Char)) : BlockLines :=
  let indented := line.head?.any isBlank
  let joint :=
    if folded && !b.indented && !indented && b.lineEnd == ['\n'] then
      if b.empties.isEmpty then [' '] else []
    else b.lineEnd
  ⟨line :: b.empties.flatten :: joint :: b.parts, indented, lineEnd, empties⟩

/-- The text of a block. -/
def BlockLines.text (chomping : Chomping) (b : BlockLines) : List Char :=
  b.parts.reverse.flatten ++
    match chomping with
    | .strip => []
    | .clip => b.lineEnd
    | .keep => b.lineEnd ++ b.empties.flatten

/-- Reads the lines of a block, which are all indented by `indent`. `n` bounds their number. -/
def BlockLines.read (folded : Bool) (indent : Nat) (start : Mark) :
    Nat → BlockLines → Cursor → Except Failure (BlockLines × Cursor)
  | 0, b, c => .ok (b, c)
  | n + 1, b, c => do
    if c.mark.column ≠ indent ∨ c.rest.isEmpty then return (b, c)
    let (line, c) ← c.takeWhile (!isBreak ·)
    c.need 2
    let (lineEnd, c) := c.lineBreak?.getD ([], c)
    let (empties, _, c) ← readEmptyLines indent start c
    read folded indent start n (b.add folded line lineEnd empties) c

/-- Reads a block after its mark. Its surroundings are indented by `outer`; `n` bounds the number
of its lines. -/
def readBlock (folded : Bool) (outer : Int) (start : Mark) (n : Nat) (c : Cursor) :
    Except Failure (List Char × Cursor) := do
  let (header, c) ← BlockHeader.read start c
  let given := if header.increment = 0 then 0 else ((max outer 0) + header.increment).toNat
  let (empties, widest, c) ← readEmptyLines given start c
  let indent := if given ≠ 0 then given else max (max widest (outer + 1).toNat) 1
  let (lines, c) ← BlockLines.read folded indent start n ⟨[], false, [], empties⟩ c
  return (lines.text header.chomping, c)

end Lox.Yaml
