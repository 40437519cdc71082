import Lox.Text.Quoted
import Lox.Yaml.Cursor

/-!
# Anchors, tags and directives

What a node is may be said before it: an anchor gives it a name, by which it can stand elsewhere
again, and a tag says what kind it is of. A tag is a handle and a suffix; directives before a
document say what handles stand for.
-/

namespace Lox.Yaml

/-- A tag as it is written. -/
structure TagName where
  /-- What is to be looked up, if there is something. -/
  handle : Bytes
  suffix : Bytes
  deriving DecidableEq, Repr

/-- Something said about a document before it. -/
inductive Directive where
  /-- The version of the format. -/
  | version (major minor : Nat)
  /-- What a handle stands for. -/
  | handle (name expansion : Bytes)
  deriving DecidableEq, Repr

/-- The bytes of characters that are all ASCII. -/
def asciiBytes (cs : List Char) : Bytes := cs.map Bytes.ascii

/-- The name of an anchor, given what follows its mark at `start`. -/
def readAnchor (start : Mark) (c : Cursor) : Except Failure (List Char × Cursor) := do
  let (name, c) ← c.takeWhile isNameCharacter
  let ends := ['?', ':', ',', ']', '\x7d', '%', '@', '\x60']
  if name.isEmpty || !(startsBlank c.rest || ends.any c.isAt) then
    throw ⟨.missingAnchorName, start, c.mark⟩
  return (name, c)

/-! ## Tags -/

/-- The characters of a tag that are not part of names. -/
def uriPunctuation : List Char :=
  [';', '/', '?', ':', '@', '&', '=', '+', '$', ',', '.', '!', '~', '*', '\x27', '(', ')', '[', ']',
    '%']

/-- Whether a character may be part of a tag. -/
def isUriCharacter (c : Char) : Bool := isNameCharacter c || uriPunctuation.contains c

/-- The bytes of a character that is written as percent signs with two hexadecimal digits each, of
which `more` are to come; if none was read, the first one tells. -/
def readUriEscape (start : Mark) (more : Option Nat) :
    Nat → Bytes → Cursor → Except Failure (Bytes × Cursor)
  | 0, acc, c => .ok (acc, c)
  | n + 1, acc, c => do
    if more = some 0 then return (acc, c)
    c.need 3
    let fail {α : Type} (problem : Problem) : Except Failure α := throw ⟨problem, start, c.mark⟩
    match c.rest with
    | '%' :: a :: b :: _ =>
      match Text.hexDigit? (Bytes.ascii a), Text.hexDigit? (Bytes.ascii b) with
      | some high, some low =>
        if 128 ≤ a.toNat || 128 ≤ b.toNat then fail .missingEscapedByte
        let byte := (16 * high + low).toUInt8
        match more with
        | none =>
          match Encoding.size? byte with
          | none => fail .wrongLeadingByte
          | some size => readUriEscape start (some (size - 1)) n (acc ++ [byte]) (c.advance 3)
        | some m =>
          if !Utf8.isContinuation byte then fail .wrongTrailingByte
          readUriEscape start (some (m - 1)) n (acc ++ [byte]) (c.advance 3)
      | _, _ => fail .missingEscapedByte
    | _ => fail .missingEscapedByte

/-- Reads the characters of a tag, after those that `acc` holds. `n` bounds their number. -/
def readUri (start : Mark) : Nat → Bytes → Cursor → Except Failure (Bytes × Cursor)
  | 0, acc, c => .ok (acc, c)
  | n + 1, acc, c => do
    c.need 1
    match c.rest with
    | [] => return (acc, c)
    | b :: _ =>
      if !isUriCharacter b then return (acc, c)
      if b == '%' then
        let (bytes, c) ← readUriEscape start none characterSize [] c
        readUri start n (acc ++ bytes) c
      else readUri start n (acc ++ [Bytes.ascii b]) (c.advance 1)

/-- Reads the characters of a tag, of which there must be one. -/
def readSomeUri (start : Mark) (n : Nat) (c : Cursor) : Except Failure (Bytes × Cursor) := do
  let (uri, next) ← readUri start n [] c
  if next.mark = c.mark then throw ⟨.missingUri, start, c.mark⟩
  return (uri, next)

/-- What may be a handle: an exclamation mark, a name, and perhaps another exclamation mark. -/
def readHandle (start : Mark) (c : Cursor) : Except Failure (List Char × Cursor) := do
  c.need 1
  if !c.isAt '!' then throw ⟨.missingExclamation, start, c.mark⟩
  let (name, c) ← (c.advance 1).takeWhile isNameCharacter
  if c.isAt '!' then return ('!' :: name ++ ['!'], c.advance 1) else return ('!' :: name, c)

/-- Reads a tag. `n` bounds the number of its characters. -/
def readTag (n : Nat) (c : Cursor) : Except Failure (TagName × Cursor) := do
  let start := c.mark
  c.need 2
  let (tag, c) ←
    if c.rest.take 2 = ['!', '<'] then do
      let (uri, c) ← readSomeUri start n (c.advance 2)
      if !c.isAt '>' then throw ⟨.missingBracket, start, c.mark⟩
      pure (⟨[], uri⟩, c.advance 1)
    else do
      let (handle, c) ← readHandle start c
      if 1 < handle.length && handle.getLast? = some '!' then
        let (suffix, c) ← readSomeUri start n c
        pure (TagName.mk (asciiBytes handle) suffix, c)
      else
        let (suffix, c) ← readUri start n (asciiBytes (handle.drop 1)) c
        let mark := [Bytes.ascii '!']
        pure (if suffix.isEmpty then ⟨[], mark⟩ else ⟨mark, suffix⟩, c)
  c.need 1
  if !startsBlank c.rest then throw ⟨.missingBlankOrBreak, start, c.mark⟩
  return (tag, c)

/-! ## Directives -/

/-- The digits of a version number are at most so many. -/
def versionDigits : Nat := 2

/-- Reads one of the two numbers of a version. -/
def readVersionNumber (start : Mark) (c : Cursor) : Except Failure (Nat × Cursor) := do
  let digits := (c.rest.takeWhile Char.isDigit).take (versionDigits + 1)
  let next := c.advance (min digits.length versionDigits)
  next.need 1
  if versionDigits < digits.length then throw ⟨.longVersion, start, next.mark⟩
  if digits.isEmpty then throw ⟨.missingVersion, start, c.mark⟩
  return (digits.foldl (fun n d ↦ 10 * n + (d.toNat - 48)) 0, next)

/-- Reads what a directive with a version says. -/
def readVersion (start : Mark) (c : Cursor) : Except Failure (Directive × Cursor) := do
  let (major, c) ← readVersionNumber start (← c.skipBlanks)
  if !c.isAt '.' then throw ⟨.missingVersionDot, start, c.mark⟩
  let (minor, c) ← readVersionNumber start (c.advance 1)
  return (.version major minor, c)

/-- Reads what a directive with a handle says. -/
def readHandleDirective (start : Mark) (n : Nat) (c : Cursor) :
    Except Failure (Directive × Cursor) := do
  let (handle, c) ← readHandle start (← c.skipBlanks)
  if handle.getLast? ≠ some '!' then throw ⟨.missingExclamation, start, c.mark⟩
  c.need 1
  if !c.rest.head?.any isBlank then throw ⟨.missingBlank, start, c.mark⟩
  let (expansion, c) ← readSomeUri start n (← c.skipBlanks)
  if !startsBlank c.rest then throw ⟨.missingBlankOrBreak, start, c.mark⟩
  return (.handle (asciiBytes handle) expansion, c)

/-- Reads a directive, which takes a whole line. `n` bounds the number of its characters. -/
def readDirective (n : Nat) (c : Cursor) : Except Failure (Directive × Cursor) := do
  let start := c.mark
  let (name, c) ← (c.advance 1).takeWhile isNameCharacter
  if name.isEmpty then throw ⟨.missingDirectiveName, start, c.mark⟩
  if !startsBlank c.rest then throw ⟨.textAfterDirectiveName, start, c.mark⟩
  let (directive, c) ←
    if name = "YAML".toList then readVersion start c
    else if name = "TAG".toList then readHandleDirective start n c
    else throw ⟨.unknownDirective, start, c.mark⟩
  return (directive, ← c.endLine start)

end Lox.Yaml
