import Lox.Text.Bytes

/-!
# UTF-8 in byte strings that need not be valid

Reading a character takes the longest well-formed encoding at the front of a byte string. A byte
that starts none is read on its own as the replacement character. Surrogates, overlong forms and
values beyond U+10FFFF are not well formed.
-/

namespace Lox.Utf8

/-- The character that stands for a byte which is not part of a well-formed encoding. -/
def replacement : Nat := 0xFFFD

/-- A character read from the front of a byte string, as its code point, with the number of bytes
it takes. -/
structure Decoded where
  code : Nat
  size : Nat
  deriving DecidableEq, Repr

/-- A byte read on its own because it starts no well-formed encoding. -/
def Decoded.invalid : Decoded := ⟨replacement, 1⟩

/-- Whether a byte continues an encoding. -/
def isContinuation (b : UInt8) : Bool := 0x80 ≤ b && b ≤ 0xBF

/-- The value bits of a continuation byte. -/
def payload (b : UInt8) : Nat := b.toNat - 0x80

/-- Reads the character at the front of `b :: rest`. -/
def decode (b : UInt8) (rest : Bytes) : Decoded :=
  if b < 0x80 then ⟨b.toNat, 1⟩
  else if b < 0xC2 then .invalid
  else if b < 0xE0 then
    match rest with
    | c :: _ =>
      if isContinuation c then ⟨(b.toNat - 0xC0) * 64 + payload c, 2⟩ else .invalid
    | [] => .invalid
  else if b < 0xF0 then
    match rest with
    | c :: d :: _ =>
      let lo : UInt8 := if b = 0xE0 then 0xA0 else 0x80
      let hi : UInt8 := if b = 0xED then 0x9F else 0xBF
      if lo ≤ c && c ≤ hi && isContinuation d then
        ⟨((b.toNat - 0xE0) * 64 + payload c) * 64 + payload d, 3⟩
      else .invalid
    | _ => .invalid
  else if b < 0xF5 then
    match rest with
    | c :: d :: e :: _ =>
      let lo : UInt8 := if b = 0xF0 then 0x90 else 0x80
      let hi : UInt8 := if b = 0xF4 then 0x8F else 0xBF
      if lo ≤ c && c ≤ hi && isContinuation d && isContinuation e then
        ⟨(((b.toNat - 0xF0) * 64 + payload c) * 64 + payload d) * 64 + payload e, 4⟩
      else .invalid
    | _ => .invalid
  else .invalid

/-- Whether a decoded character is a byte that starts no well-formed encoding, as opposed to the
replacement character itself written out in three bytes. -/
def Decoded.isInvalid (d : Decoded) : Bool := d.code == replacement && d.size == 1

/-- The bytes of a code point; those that UTF-8 cannot write give the replacement character. -/
def encode (code : Nat) : Bytes :=
  if code < 0x80 then [code.toUInt8]
  else if code < 0x800 then [(0xC0 + code / 64).toUInt8, (0x80 + code % 64).toUInt8]
  else if 0xD800 ≤ code ∧ code < 0xE000 ∨ 0x10FFFF < code then [0xEF, 0xBF, 0xBD]
  else if code < 0x10000 then
    [(0xE0 + code / 4096).toUInt8, (0x80 + code / 64 % 64).toUInt8, (0x80 + code % 64).toUInt8]
  else
    [(0xF0 + code / 262144).toUInt8, (0x80 + code / 4096 % 64).toUInt8,
      (0x80 + code / 64 % 64).toUInt8, (0x80 + code % 64).toUInt8]

/-- The characters of a byte string, each with the bytes it was read from. -/
def characters (bs : Bytes) : List (Decoded × Bytes) := go [] bs
where
  /-- Reads character after character, keeping those read in reverse. -/
  go (acc : List (Decoded × Bytes)) : Bytes → List (Decoded × Bytes)
    | [] => acc.reverse
    | b :: rest =>
      let d := decode b rest
      go ((d, b :: rest.take (d.size - 1)) :: acc) (rest.drop (d.size - 1))
  termination_by bs => bs.length
  decreasing_by simp only [List.length_drop, List.length_cons]; omega

/-- The code points of a byte string. -/
def codePoints (bs : Bytes) : List Nat := (characters bs).map (·.1.code)

/-- Whether a byte string is valid UTF-8. -/
def isValid (bs : Bytes) : Bool := (characters bs).all fun c ↦ !c.1.isInvalid

end Lox.Utf8
