/-!
# Byte strings

Source texts, names, string values and printed output are sequences of bytes. They are usually
UTF-8, but nothing requires it: a string literal may hold any bytes, and joining two strings may
complete a character that neither of them holds. A byte string is therefore the list of its bytes.
-/

namespace Lox

/-- A sequence of bytes, in order. -/
abbrev Bytes := List UInt8

namespace Bytes

/-- The UTF-8 bytes of a text. -/
def ofString (s : String) : Bytes := s.toUTF8.data.toList

/-- The byte of an ASCII character. -/
def ascii (c : Char) : UInt8 := c.toNat.toUInt8

/-- The line feed, which ends a line. -/
def newline : UInt8 := 10

/-- The double quote. -/
def doubleQuote : UInt8 := 34

/-- The single quote. -/
def singleQuote : UInt8 := 39

/-- The backquote. -/
def backquote : UInt8 := 96

/-- The backslash. -/
def backslash : UInt8 := 92

/-- The number of lines that end within a byte string. -/
def newlines (bs : Bytes) : Nat := bs.count newline

/-- Decimal digits of a natural number. -/
def ofNat (n : Nat) : Bytes := (Nat.toDigits 10 n).map ascii

/-- Decimal digits of an integer, after a minus sign if it is negative. -/
def ofInt : Int → Bytes
  | .ofNat n => ofNat n
  | .negSucc n => ascii '-' :: ofNat (n + 1)

/-- Whether `p` stands at the front of a byte string. -/
def startsWith (p bs : Bytes) : Bool := p.isPrefixOf bs

/-- The parts of a byte string between the occurrences of one byte, of which there is always one
more than occurrences. -/
def split (sep : UInt8) (bs : Bytes) : List Bytes := bs.splitOnP (· == sep)

/-- Joins byte strings with a separator between each two. -/
def join (sep : Bytes) (parts : List Bytes) : Bytes := (parts.intersperse sep).flatten

/-- The part of a byte string before the first occurrence of `pat`, and the rest from there on. -/
def cut? (pat : Bytes) (bs : Bytes) : Option (Bytes × Bytes) := go [] bs
where
  /-- Looks for the pattern at each position, keeping what was passed in reverse. -/
  go (passed : Bytes) : Bytes → Option (Bytes × Bytes)
    | [] => if pat.isEmpty then some (passed.reverse, []) else none
    | b :: rest =>
      if startsWith pat (b :: rest) then some (passed.reverse, b :: rest) else go (b :: passed) rest

/-- A byte string without one trailing `b`, if it ends in one. -/
def dropTrailing (b : UInt8) (bs : Bytes) : Bytes :=
  if bs.getLast? = some b then bs.dropLast else bs

/-- The order of byte strings by their first different byte, a proper front part being smaller. -/
def le : Bytes → Bytes → Bool
  | [], _ => true
  | _ :: _, [] => false
  | a :: as, b :: bs => if a < b then true else if b < a then false else le as bs

end Bytes
end Lox
