import Lox.Text.Quoted
import Lox.Yaml.Timestamp

/-!
# What plain scalars stand for

A plain scalar is nothing, a truth value, a number, a point in time or a text, by its form. Integers
may be written to the bases two, eight, ten and sixteen, and numbers may be divided by underscores.
-/

namespace Lox.Yaml

/-- What a scalar stands for. -/
inductive Meaning where
  | null
  | bool (b : Bool)
  | int (i : Int)
  | float (x : Number)
  | timestamp
  | text
  deriving DecidableEq, Repr

/-- The name of a kind of meaning in reports. -/
def Meaning.tag : Meaning → String
  | .null => "!!null"
  | .bool _ => "!!bool"
  | .int _ => "!!int"
  | .float _ => "!!float"
  | .timestamp => "!!timestamp"
  | .text => "!!str"

namespace Meaning

/-- The words that have a meaning of their own. -/
def words : List (String × Meaning) :=
  let infinity (sign : String) (x : Number) : List (String × Meaning) :=
    [".inf", ".Inf", ".INF"].map fun w ↦ (sign ++ w, .float x)
  ["", "~", "null", "Null", "NULL"].map (·, .null) ++
    ["true", "True", "TRUE"].map (·, .bool true) ++
    ["false", "False", "FALSE"].map (·, .bool false) ++
    [".nan", ".NaN", ".NAN"].map (·, .float ⟨0x7FF8000000000001⟩) ++
    infinity "" .infinity ++ infinity "+" .infinity ++ infinity "-" Number.infinity.negate

/-- The sign of a number, if one is written: whether it is a minus, and what follows. -/
def sign (text : Bytes) : Bool × Bytes :=
  match text with
  | b :: rest =>
    if b == Bytes.ascii '-' then (true, rest)
    else if b == Bytes.ascii '+' then (false, rest)
    else (false, text)
  | [] => (false, [])

/-- The bases that are announced by a letter after a zero. -/
def bases : List (Char × Nat) := [('b', 2), ('o', 8), ('x', 16)]

/-- The natural number that digits write. A zero in front, with or without a letter after it,
announces the base. -/
def natural? (text : Bytes) : Option Nat :=
  match text with
  | [] => none
  | [b] => Text.readDigits? 10 [b]
  | z :: m :: rest =>
    if z == Bytes.ascii '0' then
      match bases.lookup (Char.ofUInt8 m).toLower with
      | some base => if rest.isEmpty then none else Text.readDigits? base rest
      | none => Text.readDigits? 8 (m :: rest)
    else Text.readDigits? 10 text

/-- The integer with a sign and a size, if it fits into sixty-four bits of which one is the sign. -/
def signed? (negative : Bool) (n : Nat) : Option Int :=
  if negative then if n ≤ Number.signWeight then some (-n) else none
  else if n < Number.signWeight then some n
  else none

/-- The integer that a text writes. Without a sign it may take all of sixty-four bits. -/
def integer? (text : Bytes) : Option Int :=
  let (negative, digits) := sign text
  (natural? digits).bind fun n ↦
    if digits == text && n < 2 * Number.signWeight then some n else signed? negative n

/-- The integer that a text writes with the sign after the base, which is then two or eight. -/
def innerSigned? (text : Bytes) : Option Int :=
  match text with
  | z :: m :: rest =>
    let (negative, digits) := sign rest
    let base? := [('b', 2), ('o', 8)].lookup (Char.ofUInt8 m)
    if z == Bytes.ascii '0' && !digits.isEmpty then
      base?.bind fun base ↦ (Text.readDigits? base digits).bind (signed? negative)
    else none
  | _ => none

/-- The exponent of a decimal: nothing, or a letter, perhaps a sign, and digits. -/
def exponent? (text : Bytes) : Option Int :=
  match text with
  | [] => some 0
  | e :: rest =>
    let (negative, digits) := sign rest
    if (e == Bytes.ascii 'e' || e == Bytes.ascii 'E') && !digits.isEmpty &&
        digits.all Decimal.isDigit then
      let n : Int := Decimal.natOfDigits digits
      some (if negative then -n else n)
    else none

/-- A decimal beyond this power of ten, or below its inverse, is beyond all numbers, or rounds to
zero. -/
def decimalRange : Int := 400

/-- The number nearest to a decimal, if there is a finite one. -/
def nearest? (d : Decimal) : Option Number :=
  let lead := d.exponent + (Bytes.ofNat d.coefficient).length
  if d.coefficient = 0 ∨ lead < -decimalRange then some (.ofMagnitude false 0)
  else if decimalRange < lead then none
  else d.toNumber?

/-- The number that a text writes in decimal digits. -/
def float? (text : Bytes) : Option Number :=
  let (negative, unsigned) := sign text
  let whole := unsigned.takeWhile Decimal.isDigit
  let rest := unsigned.dropWhile Decimal.isDigit
  let (fraction, rest) :=
    if rest.head? = some (Bytes.ascii '.') then
      ((rest.drop 1).takeWhile Decimal.isDigit, (rest.drop 1).dropWhile Decimal.isDigit)
    else ([], rest)
  if whole.isEmpty && fraction.isEmpty then none
  else
    (exponent? rest).bind fun e ↦
      (nearest? ⟨Decimal.natOfDigits (whole ++ fraction), e - fraction.length⟩).map fun x ↦
        if negative then x.negate else x

/-- The digit separator. -/
def separator : UInt8 := Bytes.ascii '_'

/-- Whether every underscore of a text stands between two digits. -/
def isSeparated (text : Bytes) : Bool :=
  (text.zip (text.drop 1)).all (fun (a, b) ↦
    (a != separator || Decimal.isDigit b) && (b != separator || Decimal.isDigit a)) &&
  text.head? ≠ some separator && text.getLast? ≠ some separator

/-- The number or point in time that a text writes which begins with a sign or a digit. Whether
points in time count is given. -/
def ofDigits? (timed : Bool) (text : Bytes) : Option Meaning :=
  if timed && Timestamp.isTimestamp text then some .timestamp
  else
    let digits := text.filter (· != separator)
    ((integer? digits).map .int).or
      (((float? digits).map .float).or ((innerSigned? digits).map .int))

/-- The meaning of a text by its form. Whether points in time count is given. -/
def ofText (timed : Bool) (text : Bytes) : Meaning :=
  match (words.map fun (w, m) ↦ (Bytes.ofString w, m)).lookup text, text with
  | some m, _ => m
  | none, [] => .null
  | none, b :: _ =>
    if b == Bytes.ascii '.' then
      if isSeparated text then ((float? (text.filter (· != separator))).map .float).getD .text
      else .text
    else if Decimal.isDigit b || b == Bytes.ascii '-' || b == Bytes.ascii '+' then
      (ofDigits? timed text).getD .text
    else .text

/-- The meaning of a plain scalar. -/
def ofPlain (text : Bytes) : Meaning := ofText true text

/-! ## Tags -/

/-- The tags that ask for a meaning. -/
def tags : List String := ["!!null", "!!bool", "!!int", "!!float", "!!timestamp"]

/-- The tag of texts that are given as bytes. -/
def binaryTag : Bytes := Bytes.ofString "!!binary"

/-- The tag of the key by which a mapping takes over the entries of others. -/
def mergeTag : Bytes := Bytes.ofString "!!merge"

/-- The key by which a mapping takes over the entries of others. -/
def mergeKey : Bytes := Bytes.ofString "<<"

/-- Makes a meaning one that a tag asks for, if it is not. Integers of sixty-four bits of which one
is the sign are numbers, too. -/
def withTag? (m : Meaning) (tag : String) : Option Meaning :=
  if m.tag = tag then some m
  else
    match m with
    | .int i =>
      if tag = "!!float" && i < Number.signWeight then some (.float (.ofInt i)) else none
    | _ => none

end Meaning
end Lox.Yaml
