import Lox.StaticError
import Lox.Text.Utf8

/-!
# Segments of a source

A source is a sequence of segments, none of them empty: white space, comments, the source texts of
tokens, and what cannot be part of a program. Each segment is the longest one that can stand at its
place, so the front of the source alone tells its form and extent. The segments, put together again
in order, are the source (`flatMap_text_segments`).
-/

namespace Lox

/-- What a segment is. -/
inductive Segment.Form where
  | blank
  | comment
  | operator (kind : Kind)
  | quoted
  | number
  | word
  /-- A character that starts no token. -/
  | stray
  /-- A string without its closing quote, up to the end of the source. -/
  | unclosed
  deriving DecidableEq, Repr

/-- A piece of source text and what it is. -/
structure Segment where
  form : Segment.Form
  text : Bytes
  deriving DecidableEq, Repr

namespace Segment

/-- The quote that begins and ends a string. -/
def quote : UInt8 := Bytes.doubleQuote

/-- Whether a byte is white space. -/
def isBlank (b : UInt8) : Bool :=
  b == Bytes.ascii ' ' || b == Bytes.ascii '\t' || b == Bytes.ascii '\r' || b == Bytes.newline

/-- Whether a byte can begin a word. -/
def isWordStart (b : UInt8) : Bool :=
  Bytes.ascii 'a' ≤ b && b ≤ Bytes.ascii 'z' || Bytes.ascii 'A' ≤ b && b ≤ Bytes.ascii 'Z' ||
    b == Bytes.ascii '_'

/-- Whether a byte can continue a word. -/
def isWordPart (b : UInt8) : Bool := isWordStart b || Decimal.isDigit b

/-- The operator or punctuation mark of one byte. -/
def operator? (b : UInt8) : Option Kind :=
  match Char.ofUInt8 b with
  | '(' => some .leftParen
  | ')' => some .rightParen
  | '{' => some .leftBrace
  | '}' => some .rightBrace
  | ',' => some .comma
  | '.' => some .dot
  | '-' => some .minus
  | '+' => some .plus
  | ';' => some .semicolon
  | '*' => some .star
  | '/' => some .slash
  | '!' => some .bang
  | '=' => some .equal
  | '<' => some .less
  | '>' => some .greater
  | _ => none

/-- The operator that an equals sign after another operator makes with it. -/
def withEqual? : Kind → Option Kind
  | .bang => some .bangEqual
  | .equal => some .equalEqual
  | .less => some .lessEqual
  | .greater => some .greaterEqual
  | _ => none

/-- How many bytes at the front satisfy a predicate. -/
def run (p : UInt8 → Bool) (bs : Bytes) : Nat := (bs.takeWhile p).length

/-- How many bytes a block comment has after its opening mark; it ends with the source if it is
never closed. -/
def blockCommentSize (n : Nat) : Bytes → Nat
  | [] => n
  | [_] => n + 1
  | b :: c :: rest =>
    if b == Bytes.ascii '*' && c == Bytes.ascii '/' then n + 2
    else blockCommentSize (n + 1) (c :: rest)

/-- How many bytes a number has after its first digit. A point belongs to it only if a digit
follows the point. -/
def numberSize (rest : Bytes) : Nat :=
  let whole := run Decimal.isDigit rest
  match rest.drop whole with
  | p :: d :: rest' =>
    if p == Bytes.ascii '.' && Decimal.isDigit d then whole + 2 + run Decimal.isDigit rest'
    else whole
  | _ => whole

/-- The form of the segment at the front of `b :: rest`, and how many bytes it has after `b`. -/
def extent (b : UInt8) (rest : Bytes) : Form × Nat :=
  if isBlank b then (.blank, run isBlank rest)
  else if b == quote then
    let n := run (· != quote) rest
    if n < rest.length then (.quoted, n + 1) else (.unclosed, n)
  else if Decimal.isDigit b then (.number, numberSize rest)
  else if isWordStart b then (.word, run isWordPart rest)
  else
    match operator? b with
    | none => (.stray, (Utf8.decode b rest).size - 1)
    | some k =>
      match rest with
      | [] => (.operator k, 0)
      | c :: rest' =>
        if k == .slash && c == Bytes.ascii '/' then (.comment, 1 + run (· != Bytes.newline) rest')
        else if k == .slash && c == Bytes.ascii '*' then (.comment, 1 + blockCommentSize 0 rest')
        else if c == Bytes.ascii '=' then
          match withEqual? k with
          | some k' => (.operator k', 1)
          | none => (.operator k, 0)
        else (.operator k, 0)

/-- The segment at the front of `b :: rest`. -/
def first (b : UInt8) (rest : Bytes) : Segment :=
  let (form, n) := extent b rest
  ⟨form, b :: rest.take n⟩

/-- What follows the segment at the front of `b :: rest`. -/
def remainder (b : UInt8) (rest : Bytes) : Bytes := rest.drop (extent b rest).2

/-- The first segment and the remainder make up the text. -/
theorem text_first_append_remainder (b : UInt8) (rest : Bytes) :
    (first b rest).text ++ remainder b rest = b :: rest := by
  simp [first, remainder]

/-- The remainder is shorter than the text. -/
theorem length_remainder_lt (b : UInt8) (rest : Bytes) :
    (remainder b rest).length < (b :: rest).length := by
  simp only [remainder, List.length_drop, List.length_cons]
  omega

/-- The segments of a source. -/
def segments (src : Bytes) : List Segment := go [] src
where
  /-- Takes segment after segment off the front, keeping those taken in reverse. -/
  go (acc : List Segment) : Bytes → List Segment
    | [] => acc.reverse
    | b :: rest => go (first b rest :: acc) (remainder b rest)
  termination_by src => src.length
  decreasing_by exact length_remainder_lt b rest

private theorem flatMap_text_go (acc : List Segment) (src : Bytes) :
    (segments.go acc src).flatMap text = acc.reverse.flatMap text ++ src := by
  fun_induction segments.go acc src with
  | case1 acc => simp
  | case2 acc b rest ih => simp [ih, ← text_first_append_remainder b rest]

/-- The segments of a source, put together in order, are the source. -/
theorem flatMap_text_segments (src : Bytes) : (segments src).flatMap text = src := by
  simp [segments, flatMap_text_go]

end Segment
end Lox
