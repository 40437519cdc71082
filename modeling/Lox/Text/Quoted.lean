import Lox.Text.Printable
import Lox.Text.Utf8

/-!
# Quoted text

A byte string is quoted by putting it between double quotes and escaping what would be misread or
not seen: quotes and backslashes, characters that are not printable, and bytes that are not UTF-8.
A quoted literal is read back in this form, between backquotes without escapes, or as one character
between single quotes.
-/

namespace Lox.Text

/-- A natural number in lower-case hexadecimal digits, filled up with zeros to `width`. -/
def hex (width : Nat) (n : Nat) : Bytes :=
  let ds := (Nat.toDigits 16 n).map Bytes.ascii
  List.replicate (width - ds.length) 48 ++ ds

/-- The escapes of one letter, each with the code point it stands for. -/
def letterEscapes : List (Char × Nat) :=
  [('a', 7), ('b', 8), ('t', 9), ('n', 10), ('v', 11), ('f', 12), ('r', 13)]

/-- A backslash, a mark and digits. -/
def escape (mark : UInt8) (digits : Bytes) : Bytes := Bytes.backslash :: mark :: digits

/-- A character in quoted text, given the bytes it was read from. -/
def quoteCharacter (d : Utf8.Decoded) (source : Bytes) : Bytes :=
  if d.isInvalid then escape (Bytes.ascii 'x') (source.flatMap fun b ↦ hex 2 b.toNat)
  else if d.code == Bytes.doubleQuote.toNat then escape Bytes.doubleQuote []
  else if d.code == Bytes.backslash.toNat then escape Bytes.backslash []
  else if isPrintable d.code then source
  else
    match letterEscapes.find? (·.2 == d.code) with
    | some (c, _) => escape (Bytes.ascii c) []
    | none =>
      if d.code < 0x20 || d.code == 0x7F then escape (Bytes.ascii 'x') (hex 2 d.code)
      else if d.code < 0x10000 then escape (Bytes.ascii 'u') (hex 4 d.code)
      else escape (Bytes.ascii 'U') (hex 8 d.code)

/-- A byte string between double quotes. -/
def quote (bs : Bytes) : Bytes :=
  [Bytes.doubleQuote] ++ (Utf8.characters bs).flatMap (fun (d, source) ↦ quoteCharacter d source) ++
    [Bytes.doubleQuote]

/-- The value of a hexadecimal digit. -/
def hexDigit? (b : UInt8) : Option Nat :=
  if 48 ≤ b && b ≤ 57 then some (b.toNat - 48)
  else if 97 ≤ b && b ≤ 102 then some (b.toNat - 87)
  else if 65 ≤ b && b ≤ 70 then some (b.toNat - 55)
  else none

/-- The number that digits of a base write, if all of them are digits. -/
def readDigits? (base : Nat) (ds : Bytes) : Option Nat :=
  ds.foldlM (fun n b ↦ (hexDigit? b).bind fun d ↦ if d < base then some (n * base + d) else none) 0

/-- Whether a code point is one of a character, and not a surrogate. -/
def isCharacter (code : Nat) : Bool := code < 0xD800 || 0xE000 ≤ code && code ≤ 0x10FFFF

/-- The bytes of an escape, and what follows it, given what follows its backslash. A quote may be
escaped only between quotes of the same sort. -/
def readEscape? (mark : UInt8) : Bytes → Option (Bytes × Bytes)
  | [] => none
  | b :: rest =>
    match letterEscapes.lookup (Char.ofUInt8 b) with
    | some code => some ([code.toUInt8], rest)
    | none =>
      if b == Bytes.backslash || b == mark then some ([b], rest)
      else if b == Bytes.ascii 'x' then
        if rest.length < 2 then none
        else (readDigits? 16 (rest.take 2)).map fun v ↦ ([v.toUInt8], rest.drop 2)
      else if b == Bytes.ascii 'u' || b == Bytes.ascii 'U' then
        let width := if b == Bytes.ascii 'u' then 4 else 8
        if rest.length < width then none
        else (readDigits? 16 (rest.take width)).bind fun v ↦
          if isCharacter v then some (Utf8.encode v, rest.drop width) else none
      else if 48 ≤ b && b ≤ 55 then
        if rest.length < 2 then none
        else (readDigits? 8 (b :: rest.take 2)).bind fun v ↦
          if v ≤ 255 then some ([v.toUInt8], rest.drop 2) else none
      else none

/-- One character between quotes, as bytes, and what follows it. A byte that is not UTF-8 becomes
the replacement character. -/
def readCharacter? (mark b : UInt8) (rest : Bytes) : Option (Bytes × Bytes) :=
  if b == mark || b == Bytes.newline then none
  else if b == Bytes.backslash then readEscape? mark rest
  else
    let d := Utf8.decode b rest
    some (Utf8.encode d.code, rest.drop (d.size - 1))

/-- Characters up to a closing quote that ends the text. `n` bounds their number. -/
def readCharacters? (mark : UInt8) : Nat → Bytes → Bytes → Option Bytes
  | 0, _, _ => none
  | _ + 1, _, [] => none
  | n + 1, acc, b :: rest =>
    if b == mark then if rest.isEmpty then some acc.reverse else none
    else
      match readCharacter? mark b rest with
      | some (bytes, rest) => readCharacters? mark n (bytes.reverse ++ acc) rest
      | none => none

/-- The text of a quoted literal: between double quotes with escapes, between backquotes as it is
but for carriage returns, or at most one character between single quotes. -/
def unquote? (s : Bytes) : Option Bytes :=
  match s with
  | [] => none
  | mark :: rest =>
    if mark == Bytes.backquote then
      let inner := rest.dropLast
      if rest.getLast? = some mark && !inner.contains mark then
        some (inner.filter (· != Bytes.ascii '\r'))
      else none
    else if mark == Bytes.doubleQuote then readCharacters? mark (rest.length + 1) [] rest
    else if mark == Bytes.singleQuote then
      match rest with
      | [] => none
      | b :: after =>
        if b == mark then if after.isEmpty then some [] else none
        else
          match readCharacter? mark b after with
          | some (bytes, [last]) => if last == mark then some bytes else none
          | _ => none
    else none

end Lox.Text
