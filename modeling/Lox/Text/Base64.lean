import Lox.Text.Bytes

/-!
# Bytes as letters

Six bits are written as one of sixty-four characters, and so three bytes as four characters. The
last group is filled up with equals signs. Line breaks count for nothing.
-/

namespace Lox.Base64

/-- The characters for the numbers below sixty-four. -/
def alphabet : Bytes :=
  Bytes.ofString "ABCDEFGHIJKLMNOPQRSTUVWXYZabcdefghijklmnopqrstuvwxyz0123456789+/"

/-- The sign that fills up the last group. -/
def filler : UInt8 := 61

/-- The number for which a character stands. -/
def value? (b : UInt8) : Option Nat := alphabet.findIdx? (· == b)

/-- The bytes of a group of four characters, of which only the values are given that are no filler.
The bits that are left over are dropped. -/
def groupBytes (values : List Nat) : Bytes :=
  let n := (values ++ List.replicate (4 - values.length) 0).foldl (fun n v ↦ 64 * n + v) 0
  [(n / 65536).toUInt8, (n / 256 % 256).toUInt8, (n % 256).toUInt8].take (values.length - 1)

/-- The bytes that groups of four characters write. -/
def readGroups? : Bytes → Option Bytes
  | [] => some []
  | a :: b :: c :: d :: rest =>
    let group := [a, b, c, d]
    let fillers := (group.reverse.takeWhile (· == filler)).length
    if 2 < fillers || 0 < fillers && !rest.isEmpty then none
    else do
      let values ← (group.take (4 - fillers)).mapM value?
      return groupBytes values ++ (← readGroups? rest)
  | _ => none

/-- The bytes that a text writes. -/
def decode? (text : Bytes) : Option Bytes := readGroups? (text.filter fun b ↦ b != 10 && b != 13)

end Lox.Base64
