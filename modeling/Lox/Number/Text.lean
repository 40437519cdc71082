import Lox.Number.Decimal

/-!
# The text of numbers

Two texts are in use. A literal shows a point even in an integer, as in `42.0`, and never an
exponent. A value is shown in its shortest form, positional below `10 ^ 21` and with an exponent
from there on, as in `1E+21`. JSON has a third, with exponents for small numbers too.
-/

namespace Lox

namespace Decimal

/-- Digits filled up with zeros in front to at least `width`. -/
def padded (width : Nat) (n : Nat) : Bytes :=
  let ds := Bytes.ofNat n
  List.replicate (width - ds.length) 48 ++ ds

/-- A decimal without an exponent. -/
def positional (d : Decimal) : Bytes :=
  match d.exponent with
  | .ofNat e => Bytes.ofNat d.coefficient ++ List.replicate e 48
  | .negSucc e =>
    let scale := Nat.pow 10 (e + 1)
    Bytes.ofNat (d.coefficient / scale) ++ [Bytes.ascii '.'] ++
      padded (e + 1) (d.coefficient % scale)

/-- A decimal as one digit, a point and the further digits if there are any, and a signed
exponent of at least `width` digits after `mark`. -/
def scientific (mark : Char) (width : Nat) (d : Decimal) : Bytes :=
  let ds := Bytes.ofNat d.coefficient
  let e := d.exponent + (ds.length - 1 : Nat)
  let fraction := ds.drop 1
  ds.take 1 ++ (if fraction.isEmpty then [] else Bytes.ascii '.' :: fraction) ++
    [Bytes.ascii mark, Bytes.ascii (if e < 0 then '-' else '+')] ++ padded width e.natAbs

end Decimal

namespace Number

/-- Numbers below this have no exponent: ten to the power twenty-one. -/
def positionalLimit : Nat := Nat.pow 10 21

/-- Whether the absolute value is below a natural number. -/
def isBelow (x : Number) (limit : Nat) : Bool := x.isFinite && x.units < limit * unitsPerOne

/-- Whether a finite number has no fraction. -/
def isIntegral (x : Number) : Bool := x.isFinite && x.units % unitsPerOne == 0

/-- The sign that stands before a number, nothing or a minus. -/
def signText (x : Number) : Bytes := if x.isNegative then [Bytes.ascii '-'] else []

/-- The text of a number that is not finite. -/
def specialText (x : Number) : Bytes :=
  if x.isNaN then Bytes.ofString "NaN"
  else if x.isNegative then Bytes.ofString "-Inf" else Bytes.ofString "+Inf"

/-- The text of a number literal: an integer below the positional limit keeps one decimal place,
and all else is written with as few digits as possible and no exponent. -/
def literalText (x : Number) : Bytes :=
  if !x.isFinite then x.specialText
  else if x.isIntegral && x.isBelow positionalLimit then
    x.signText ++ Bytes.ofNat (x.units / unitsPerOne) ++ Bytes.ofString ".0"
  else x.signText ++ (Decimal.shortest x).positional

/-- The text of a number value: as few digits as possible, with an exponent from the positional
limit on. -/
def display (x : Number) : Bytes :=
  if !x.isFinite then x.specialText
  else if x.isBelow positionalLimit then x.signText ++ (Decimal.shortest x).positional
  else x.signText ++ (Decimal.shortest x).scientific 'E' 2

/-- The magnitude of the number nearest to a millionth. -/
def millionth : Nat := magnitudeOfRatio 1 1000000

/-- The JSON text of a number: positional from a millionth up to the positional limit, and with an
exponent elsewhere. The infinities are strings. -/
def json (x : Number) : Bytes :=
  if x.isNaN then Bytes.ofString "\"NaN\""
  else if x.isInfinite then
    if x.isNegative then Bytes.ofString "\"-Infinity\"" else Bytes.ofString "\"Infinity\""
  else if x.isZero || x.isBelow positionalLimit && millionth ≤ x.magnitude then
    x.signText ++ (Decimal.shortest x).positional
  else x.signText ++ (Decimal.shortest x).scientific 'e' 1

end Number
end Lox
