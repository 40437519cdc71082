import Lox.Number.Decimal

/-!
# Points in time

A plain scalar may be a date, or a date with a time of day. Months, days, hours, minutes and seconds
have one or two digits. Only days count that the calendar has.
-/

namespace Lox.Yaml.Timestamp

/-- The number that one or two digits write, if it is below `bound`, and what follows. -/
def number? (bound : Nat) (text : Bytes) : Option (Nat × Bytes) :=
  let digits := (text.take 2).takeWhile Decimal.isDigit
  let n := Decimal.natOfDigits digits
  if digits.isEmpty || bound ≤ n then none else some (n, text.drop digits.length)

/-- What follows a character. -/
def after? (c : Char) (text : Bytes) : Option Bytes :=
  if text.head? = some (Bytes.ascii c) then some (text.drop 1) else none

/-- Whether a year has a day more. -/
def isLeap (year : Nat) : Bool := year % 4 == 0 && (year % 100 != 0 || year % 400 == 0)

/-- The number of days of a month. -/
def daysIn (year month : Nat) : Nat :=
  if month = 2 then if isLeap year then 29 else 28
  else if [4, 6, 9, 11].contains month then 30
  else 31

/-- Reads a date, of which the year has four digits. The result is what follows. -/
def date? (text : Bytes) : Option Bytes := do
  let digits := text.takeWhile Decimal.isDigit
  guard (digits.length = 4)
  let (month, rest) ← number? 13 (← after? '-' (text.drop 4))
  let (day, rest) ← number? 32 (← after? '-' rest)
  guard (0 < month && 0 < day && day ≤ daysIn (Decimal.natOfDigits digits) month)
  return rest

/-- What follows a fraction of a second, if there is one. -/
def afterFraction (text : Bytes) : Bytes :=
  match text with
  | p :: d :: _ =>
    if (p == Bytes.ascii '.' || p == Bytes.ascii ',') && Decimal.isDigit d then
      (text.drop 1).dropWhile Decimal.isDigit
    else text
  | _ => text

/-- Reads a time of day. The result is what follows. -/
def clock? (text : Bytes) : Option Bytes := do
  let (_, rest) ← number? 24 text
  let (_, rest) ← number? 60 (← after? ':' rest)
  let (_, rest) ← number? 60 (← after? ':' rest)
  return afterFraction rest

/-- Whether a text is a time zone: the letter for none, or a sign with hours and minutes of two
digits each. -/
def isZone (text : Bytes) : Bool :=
  match text with
  | [z] => z == Bytes.ascii 'Z'
  | [s, h, h', c, m, m'] =>
    (s == Bytes.ascii '+' || s == Bytes.ascii '-') && c == Bytes.ascii ':' &&
      [h, h', m, m'].all Decimal.isDigit && Decimal.natOfDigits [h, h'] ≤ 24 &&
      Decimal.natOfDigits [m, m'] ≤ 60
  | _ => false

/-- Whether a text is a point in time: a date, a date and a time of day after spaces, or a date, the
letter T, a time of day and a time zone. -/
def isTimestamp (text : Bytes) : Bool :=
  match date? text with
  | none => false
  | some [] => true
  | some (c :: rest) =>
    if c == Bytes.ascii 'T' || c == Bytes.ascii 't' then (clock? rest).any isZone
    else if c == Bytes.ascii ' ' then
      (clock? (rest.dropWhile (· == Bytes.ascii ' '))).any (·.isEmpty)
    else false

end Lox.Yaml.Timestamp
