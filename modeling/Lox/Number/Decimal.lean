import Lox.Number.Rounding
import Lox.Text.Bytes

/-!
# Decimal fractions

A decimal `c · 10 ^ e` is read as the number nearest to it, and a number is written as the shortest
decimal that is read as that number again.
-/

namespace Lox

/-- The decimal fraction `coefficient · 10 ^ exponent`. -/
structure Decimal where
  coefficient : Nat
  exponent : Int
  deriving DecidableEq, Repr

namespace Decimal

/-- The value of a decimal as a fraction. -/
def ratio (d : Decimal) : Nat × Nat :=
  match d.exponent with
  | .ofNat e => (d.coefficient * Nat.pow 10 e, 1)
  | .negSucc e => (d.coefficient, Nat.pow 10 (e + 1))

/-- The number nearest to a decimal, or nothing if it lies beyond the finite numbers. -/
def toNumber? (d : Decimal) : Option Number := Number.ofRatio? d.ratio.1 d.ratio.2

/-- Whether a byte is a decimal digit. -/
def isDigit (b : UInt8) : Bool := 48 ≤ b && b ≤ 57

/-- The natural number that digits write. -/
def natOfDigits (ds : Bytes) : Nat := ds.foldl (fun n b ↦ 10 * n + (b.toNat - 48)) 0

/-- The decimal that digits write, with an optional point among them. -/
def ofText (text : Bytes) : Decimal :=
  let whole := text.takeWhile isDigit
  let fraction := (text.dropWhile isDigit).drop 1
  ⟨natOfDigits (whole ++ fraction), -(fraction.length : Int)⟩

/-- The same value with no zero at the end of the coefficient. -/
def trimmed (d : Decimal) : Decimal := go d.coefficient d.exponent
where
  /-- Divides by ten as long as that leaves no rest. -/
  go (c : Nat) (e : Int) : Decimal :=
    if 0 < c ∧ c % 10 = 0 then go (c / 10) (e + 1) else ⟨c, e⟩
  termination_by c
  decreasing_by omega

/-- The position of the first digit of `n / d`, for positive `n` and `d`: the quotient lies from
ten to that power up to the next power of ten. -/
def leadingExponent (n d : Nat) : Int :=
  if d ≤ n then (Nat.toDigits 10 (n / d)).length - 1
  else
    let places := (Nat.toDigits 10 (d / n)).length
    if n * Nat.pow 10 (places - 1) = d then 1 - places else -places

/-- The two neighbours of `n / d` among the multiples of ten to the power `e`, the nearer one
first; of two equally near ones, that with the even coefficient. -/
def neighbours (n d : Nat) (e : Int) : Decimal × Decimal :=
  let (n, d) := match e with
    | .ofNat e => (n, d * Nat.pow 10 e)
    | .negSucc e => (n * Nat.pow 10 (e + 1), d)
  let below := n / d
  let r := n % d
  if 2 * r < d ∨ 2 * r = d ∧ below % 2 = 0 then (⟨below, e⟩, ⟨below + 1, e⟩)
  else (⟨below + 1, e⟩, ⟨below, e⟩)

/-- The decimal of at most `digits` digits, beside `x`, that is read as `x` again, if there is
one. -/
def ofNumber? (x : Number) (lead : Int) (digits : Nat) : Option Decimal :=
  let (nearer, farther) := neighbours x.units Number.unitsPerOne (lead + 1 - digits)
  let readsBack (d : Decimal) : Bool := d.toNumber? == some (Number.ofMagnitude false x.magnitude)
  if readsBack nearer then some nearer else if readsBack farther then some farther else none

/-- All the digits of a finite number. -/
def exact (x : Number) : Decimal := ⟨x.units * Nat.pow 5 1074, -1074⟩

/-- The decimal of the fewest digits that is read as the absolute value of the finite number `x`,
and of those the nearest to it. Seventeen digits always suffice. -/
def shortest (x : Number) : Decimal :=
  if x.isZero then ⟨0, 0⟩
  else
    let lead := leadingExponent x.units Number.unitsPerOne
    (((List.range 17).findSome? fun k ↦ ofNumber? x lead (k + 1)).getD (exact x)).trimmed

end Decimal
end Lox
