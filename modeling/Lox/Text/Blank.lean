import Lox.Text.Utf8

/-!
# White space

The white space of Unicode, and texts without it at either end.
-/

namespace Lox.Text

/-- The code points of white space as ranges, both ends included. -/
def blankRanges : List (Nat × Nat) :=
  [(9, 13), (0x20, 0x20), (0x85, 0x85), (0xA0, 0xA0), (0x1680, 0x1680), (0x2000, 0x200A),
    (0x2028, 0x2029), (0x202F, 0x202F), (0x205F, 0x205F), (0x3000, 0x3000)]

/-- Whether a character is white space. -/
def isBlank (d : Utf8.Decoded) : Bool :=
  blankRanges.any fun (lo, hi) ↦ lo ≤ d.code && d.code ≤ hi

/-- A text without the white space at its ends. -/
def trim (s : Bytes) : Bytes :=
  let front := (Utf8.characters s).dropWhile (isBlank ·.1)
  (front.reverse.dropWhile (isBlank ·.1)).reverse.flatMap (·.2)

end Lox.Text
