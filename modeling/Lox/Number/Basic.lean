/-!
# Numbers

A number is an IEEE 754 double, given by its 64 bits: a sign, eleven exponent bits and fifty-two
fraction bits. Apart from the sign, the bits of a number read as a natural number are its
`magnitude`; magnitudes are ordered as the numbers are, infinity follows the last finite one, and
above it come the numbers that are not a number.

Every finite number is a multiple of the least positive one, `2 ^ -1074`. Its `units` say which,
so that all questions about values are questions about natural numbers.
-/

namespace Lox

/-- An IEEE 754 double, given by its bits. -/
structure Number where
  bits : UInt64
  deriving DecidableEq, Repr

namespace Number

/-- The weight of the sign bit. -/
def signWeight : Nat := Nat.pow 2 63

/-- The weight of the least exponent bit, which is the number of fractions. -/
def fractionRange : Nat := Nat.pow 2 52

/-- The magnitude of infinity. -/
def infiniteMagnitude : Nat := 2047 * fractionRange

/-- How many units, each the least positive number, make one. -/
def unitsPerOne : Nat := Nat.pow 2 1074

/-- Whether the sign bit is set. -/
def isNegative (x : Number) : Bool := signWeight ≤ x.bits.toNat

/-- The bits of a number apart from its sign. -/
def magnitude (x : Number) : Nat := x.bits.toNat % signWeight

/-- The number of a sign and a magnitude below the weight of the sign. -/
def ofMagnitude (negative : Bool) (magnitude : Nat) : Number :=
  ⟨UInt64.ofNat (if negative then signWeight + magnitude else magnitude)⟩

/-- Whether a number is not a number. -/
def isNaN (x : Number) : Bool := infiniteMagnitude < x.magnitude

/-- Whether a number is an infinity. -/
def isInfinite (x : Number) : Bool := x.magnitude == infiniteMagnitude

/-- Whether a number is finite. -/
def isFinite (x : Number) : Bool := x.magnitude < infiniteMagnitude

/-- Whether a number is one of the two zeros. -/
def isZero (x : Number) : Bool := x.magnitude == 0

/-- The value of a finite magnitude in units. Below the first fraction range, and in the one after
it, neighbours are one unit apart; with each further range the distance doubles. -/
def unitsOfMagnitude (magnitude : Nat) : Nat :=
  if magnitude < fractionRange then magnitude
  else (fractionRange + magnitude % fractionRange) * Nat.pow 2 (magnitude / fractionRange - 1)

/-- The absolute value of a finite number in units. -/
def units (x : Number) : Nat := unitsOfMagnitude x.magnitude

/-- Positive infinity. -/
def infinity : Number := ofMagnitude false infiniteMagnitude

/-- Whether two numbers are equal: the zeros are, and whatever is not a number is equal to all
else that is not; otherwise the bits decide. -/
def same (x y : Number) : Bool :=
  x.isNaN && y.isNaN || x.isZero && y.isZero || x.bits == y.bits

/-- The machine's floating-point number of the same bits. -/
def toFloat (x : Number) : Float := Float.ofBits x.bits

/-- The number of the bits of a machine floating-point number. -/
def ofFloat (f : Float) : Number := ⟨f.toBits⟩

/-- The number with the other sign. -/
def negate (x : Number) : Number := ⟨x.bits ^^^ 0x8000000000000000⟩

/-- The rounded sum. -/
def add (x y : Number) : Number := ofFloat (x.toFloat + y.toFloat)

/-- The rounded difference. -/
def sub (x y : Number) : Number := ofFloat (x.toFloat - y.toFloat)

/-- The rounded product. -/
def mul (x y : Number) : Number := ofFloat (x.toFloat * y.toFloat)

/-- The rounded quotient. -/
def div (x y : Number) : Number := ofFloat (x.toFloat / y.toFloat)

/-- Whether `x` is below `y`; nothing is below or above what is not a number. -/
def lt (x y : Number) : Bool := x.toFloat < y.toFloat

/-- Whether `x` is below `y` or has its value. -/
def le (x y : Number) : Bool := x.toFloat ≤ y.toFloat

end Number
end Lox
