import Lox.Text.Utf8
import Lox.Yaml.Failure

/-!
# Documents as bytes

A document is written in UTF-8, or in UTF-16 if it begins with a byte order mark that says so. Its
bytes come in portions, and a portion is decoded as a whole when a character of it is asked for. So
a fault in the encoding shows only then, and a mistake before that portion is reported first.
-/

namespace Lox.Yaml

/-- How the characters of a document are written as bytes. -/
inductive Encoding where
  | utf8
  | utf16 (bigEndian : Bool)
  deriving DecidableEq, Repr

/-- What is found at the front of a text. -/
inductive Front where
  /-- A character by its code point, with the number of bytes after the first that it takes. -/
  | character (code : Nat) (more : Nat)
  /-- The beginning of a character that is not there as a whole. -/
  | cut (problem : Problem)
  /-- No character. -/
  | wrong (problem : Problem)
  deriving DecidableEq, Repr

namespace Encoding

/-- The byte order marks, each with the encoding that it announces. -/
def byteOrderMarks : List (Bytes × Encoding) :=
  [([0xFF, 0xFE], .utf16 false), ([0xFE, 0xFF], .utf16 true), ([0xEF, 0xBB, 0xBF], .utf8)]

/-- The encoding of a text, and the size of the byte order mark at its front. -/
def detect (text : Bytes) : Encoding × Nat :=
  match byteOrderMarks.find? fun (m, _) ↦ m.isPrefixOf text with
  | some (m, e) => (e, m.length)
  | none => (.utf8, 0)

/-- How many bytes the encoding of a character takes, by its first byte. -/
def size? (b : UInt8) : Option Nat :=
  if b < 0x80 then some 1
  else if b < 0xC0 then none
  else if b < 0xE0 then some 2
  else if b < 0xF0 then some 3
  else if b < 0xF8 then some 4
  else none

/-- The character at the front of `b :: rest` in UTF-8. -/
def readUtf8 (b : UInt8) (rest : Bytes) : Front :=
  match size? b with
  | none => .wrong .invalidLeadingByte
  | some size =>
    let tail := rest.take (size - 1)
    if tail.length < size - 1 then .cut .incompleteCharacter
    else if !tail.all Utf8.isContinuation then .wrong .invalidTrailingByte
    else
      let lead := if size = 1 then b.toNat else b.toNat % Nat.pow 2 (7 - size)
      let code := tail.foldl (fun n t ↦ 64 * n + Utf8.payload t) lead
      if code < [0, 0, 0x80, 0x800, 0x10000].getD size 0 then .wrong .overlongCharacter
      else if 0xD800 ≤ code && code ≤ 0xDFFF || 0x10FFFF < code then .wrong .invalidCharacter
      else .character code (size - 1)

/-- Two bytes as a number. -/
def unit (bigEndian : Bool) (a b : UInt8) : Nat :=
  if bigEndian then 256 * a.toNat + b.toNat else 256 * b.toNat + a.toNat

/-- The character at the front of `a :: rest` in UTF-16. -/
def readUtf16 (bigEndian : Bool) (a : UInt8) : Bytes → Front
  | [] => .cut .incompleteUnit
  | b :: rest =>
    let high := unit bigEndian a b
    if 0xDC00 ≤ high && high ≤ 0xDFFF then .wrong .strayLowSurrogate
    else if 0xD800 ≤ high && high ≤ 0xDBFF then
      match rest with
      | c :: d :: _ =>
        let low := unit bigEndian c d
        if 0xDC00 ≤ low && low ≤ 0xDFFF then
          .character (0x10000 + 0x400 * (high - 0xD800) + (low - 0xDC00)) 3
        else .wrong .missingLowSurrogate
      | _ => .cut .incompletePair
    else .character high 1

/-- Whether a document may hold a code point. -/
def isAllowed (code : Nat) : Bool :=
  code == 9 || code == 10 || code == 13 || 0x20 ≤ code && code ≤ 0x7E || code == 0x85 ||
    0xA0 ≤ code && code ≤ 0xD7FF || 0xE000 ≤ code && code ≤ 0xFFFD ||
    0x10000 ≤ code && code ≤ 0x10FFFF

/-- The character at the front of `b :: rest`. -/
def read (e : Encoding) (b : UInt8) (rest : Bytes) : Front :=
  let front := match e with
    | .utf8 => readUtf8 b rest
    | .utf16 bigEndian => readUtf16 bigEndian b rest
  match front with
  | .character code more =>
    if isAllowed code then .character code more else .wrong .controlCharacter
  | front => front

end Encoding

/-- What is wrong with the encoding of a document, and how many characters can be had before the
portion in which it is. -/
structure Fault where
  limit : Nat
  problem : Problem
  deriving DecidableEq, Repr

/-- The characters of a document. -/
structure Characters where
  /-- The characters up to the end, or up to a fault. -/
  known : List Char
  fault : Option Fault
  /-- How many of them are in the first portion. -/
  opening : Nat
  deriving DecidableEq, Repr

/-- The number of bytes of a portion. A character that does not end in one begins the next. -/
def portion : Nat := 512

/-- No character takes more bytes than this. -/
def characterSize : Nat := 4

/-- Where the decoding of a document is. -/
structure Decoding where
  /-- The characters read, the last one first, and their number. -/
  acc : List Char
  count : Nat
  /-- How many bytes are left of this portion. -/
  room : Nat
  /-- How many characters were read before this portion. -/
  limit : Nat
  /-- How many characters the first portion had, if it is over. -/
  opening : Option Nat

namespace Decoding

/-- Adds a character of `size` bytes. -/
def add (d : Decoding) (code size : Nat) : Decoding :=
  { d with acc := Char.ofNat code :: d.acc, count := d.count + 1, room := d.room - size }

/-- Goes on to the next portion. -/
def nextPortion (d : Decoding) : Decoding :=
  { d with room := portion, limit := d.count, opening := some (d.opening.getD d.count) }

/-- The characters read. -/
def finish (d : Decoding) (fault : Option Fault) : Characters :=
  ⟨d.acc.reverse, fault, d.opening.getD d.count⟩

/-- Reads the rest of a text. -/
def run (e : Encoding) (d : Decoding) (text : Bytes) : Characters :=
  match text with
  | [] => d.finish none
  | b :: rest =>
    let front :=
      if d.room = 0 then .cut .incompleteCharacter
      else e.read b (rest.take (min d.room characterSize - 1))
    match front with
    | .wrong problem => d.finish (some ⟨d.limit, problem⟩)
    | .character code more => run e (d.add code (more + 1)) (rest.drop more)
    | .cut problem =>
      if d.room = portion then d.finish (some ⟨d.count, problem⟩)
      else run e d.nextPortion (b :: rest)
termination_by (text.length, if d.room = portion then 0 else 1)
decreasing_by
  · simp only [List.length_drop, List.length_cons]
    apply Prod.Lex.left
    omega
  · apply Prod.Lex.right
    simp [nextPortion, *]

end Decoding

/-- The characters of a text, without the byte order mark at its front. -/
def Characters.ofBytes (text : Bytes) : Characters :=
  let (e, size) := Encoding.detect text
  Decoding.run e ⟨[], 0, portion - size, 0, none⟩ (text.drop size)

end Lox.Yaml
