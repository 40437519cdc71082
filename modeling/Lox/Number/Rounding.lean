import Lox.Number.Basic

/-!
# Rounding a fraction to a number

The number nearest to a fraction `n / d`, and of two equally near ones the one whose last bit is
zero. The fraction is scaled to units. If that is less than `2 ^ 53` units, neighbouring numbers
there are one unit apart; otherwise they are `2 ^ k` units apart, for the `k` that leaves
fifty-three bits. In both cases the rounded count of steps, added to `k` fraction ranges, is the
magnitude: a count that rounds up to `2 ^ 53` gives the first number of the next range by itself.
-/

namespace Lox.Number

/-- The quotient rounded to the nearest natural number, a tie going to the even one. -/
def roundDiv (n d : Nat) : Nat :=
  let q := n / d
  let r := n % d
  if 2 * r < d then q else if d < 2 * r then q + 1 else q + q % 2

/-- The magnitude nearest to a fraction. It is at least that of infinity if the fraction lies
beyond the finite numbers. -/
def magnitudeOfRatio (n d : Nat) : Nat :=
  let scaled := n * unitsPerOne
  let step := (scaled / d).log2 - 52
  step * fractionRange + roundDiv scaled (d * Nat.pow 2 step)

/-- The number nearest to a fraction, or nothing if it lies beyond the finite numbers. -/
def ofRatio? (n d : Nat) : Option Number :=
  let m := magnitudeOfRatio n d
  if m < infiniteMagnitude then some (ofMagnitude false m) else none

/-- The number nearest to an integer. -/
def ofInt (i : Int) : Number :=
  ofMagnitude (i < 0) (min (magnitudeOfRatio i.natAbs 1) infiniteMagnitude)

end Lox.Number
