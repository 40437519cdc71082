import Lox.Text.Fold
import Lox.Text.Utf8

/-!
# Regular expressions

A regular expression is matched against the characters of a text. From each position it leads to the
positions where a match that begins there can end; a text matches if there is any, from any
position.
-/

namespace Lox

/-- A set of characters, as ranges of code points with both ends included. -/
abbrev CharSet := List (Nat × Nat)

namespace CharSet

/-- The greatest code point. -/
def maxCode : Nat := 0x10FFFF

/-- Whether a code point is in a set. -/
def contains (s : CharSet) (code : Nat) : Bool := s.any fun (lo, hi) ↦ lo ≤ code && code ≤ hi

/-- The code points from `next` on that are not in a set, whose ranges are in order. -/
def complementFrom (next : Nat) : CharSet → CharSet
  | [] => if next ≤ maxCode then [(next, maxCode)] else []
  | (lo, hi) :: rest =>
    let gap := if next < lo then [(next, lo - 1)] else []
    gap ++ complementFrom (max next (hi + 1)) rest

/-- The code points that are not in a set. -/
def complement (s : CharSet) : CharSet :=
  complementFrom 0 (s.mergeSort fun a b ↦ decide (a.1 ≤ b.1))

/-- A set with all forms of its letters. -/
def folded (s : CharSet) : CharSet :=
  s ++ (Fold.classes.filter (·.any s.contains)).flatMap fun forms ↦ forms.map fun c ↦ (c, c)

/-- The decimal digits. -/
def digits : CharSet := [(48, 57)]

/-- The blanks and line ends of ASCII. -/
def spaces : CharSet := [(9, 10), (12, 13), (32, 32)]

/-- The letters and digits of ASCII, and the underscore. -/
def wordParts : CharSet := [(48, 57), (65, 90), (95, 95), (97, 122)]

end CharSet

/-- A regular expression. -/
inductive Regex where
  | empty
  /-- A character in the set, or one not in it if `negated`. -/
  | char (negated : Bool) (set : CharSet)
  /-- The beginning of the text, or of a line. -/
  | start (ofLine : Bool)
  /-- The end of the text, or of a line. -/
  | finish (ofLine : Bool)
  /-- A place where a word begins or ends, or one where none does if `negated`. -/
  | boundary (negated : Bool)
  | seq (first second : Regex)
  | alt (left right : Regex)
  | star (body : Regex)
  deriving DecidableEq, Repr

namespace Regex

/-- The line feed. -/
def lineFeed : Nat := 10

/-- Whether there is a part of a word at a position. -/
def isWordAt (text : Array Nat) (i : Nat) : Bool :=
  match text[i]? with
  | some c => CharSet.wordParts.contains c
  | none => false

/-- Whether a word begins or ends at a position. -/
def isBoundary (text : Array Nat) (i : Nat) : Bool :=
  (0 < i && isWordAt text (i - 1)) != isWordAt text i

/-- The positions that repeated steps lead to, those in `seen` being known already. -/
def closure (step : Nat → List Nat) : Nat → List Nat → List Nat → List Nat
  | 0, _, seen => seen
  | _ + 1, [], seen => seen
  | n + 1, frontier, seen =>
    let new := ((frontier.flatMap step).eraseDups).filter (!seen.contains ·)
    closure step n new (seen ++ new)

/-- The positions where a match that begins at a position can end. -/
def ends (text : Array Nat) : Regex → Nat → List Nat
  | .empty, i => [i]
  | .char negated set, i =>
    match text[i]? with
    | some c => if set.contains c != negated then [i + 1] else []
    | none => []
  | .start ofLine, i =>
    if i = 0 || ofLine && text[i - 1]? == some lineFeed then [i] else []
  | .finish ofLine, i =>
    if i = text.size || ofLine && text[i]? == some lineFeed then [i] else []
  | .boundary negated, i => if isBoundary text i != negated then [i] else []
  | .seq a b, i => ((ends text a i).flatMap (ends text b)).eraseDups
  | .alt a b, i => (ends text a i ++ ends text b i).eraseDups
  | .star a, i => closure (ends text a) (text.size + 1) [i] [i]

/-- Whether a regular expression matches some part of a text. -/
def isMatch (r : Regex) (s : Bytes) : Bool :=
  let text := (Utf8.codePoints s).toArray
  (List.range (text.size + 1)).any fun i ↦ !(ends text r i).isEmpty

/-- At least `min` and at most `max` times the same, without a limit if there is no `max`. -/
def times (r : Regex) (min : Nat) (max : Option Nat) : Regex :=
  let least := (List.replicate min r).foldr .seq .empty
  match max with
  | none => .seq least (.star r)
  | some max =>
    let more := List.replicate (max - min) r
    .seq least (more.foldr (fun r rest ↦ .alt (.seq r rest) .empty) .empty)

end Regex
end Lox
