import Lox.Number.Decimal
import Lox.Proofs.Number.Rounding
import Mathlib.Algebra.Order.Ring.Nat
import Mathlib.Tactic.Linarith
import Mathlib.Tactic.Ring

/-!
# The range of the finite numbers

A decimal is read as a finite number unless it is too large. The bound is the middle between the
greatest finite number and the power of two after it: what is below it is rounded down, and the
middle itself is a tie that goes to the even side, which is beyond the finite numbers
(`Decimal.toNumber?_eq_none_iff`).
-/

namespace Lox

namespace Number

/-- The middle between the greatest finite number, which is `(2 ^ 53 - 1) * 2 ^ 971`, and
`2 ^ 1024`. -/
def overflowBound : Nat := (Nat.pow 2 54 - 1) * Nat.pow 2 970

/-- A rounded quotient is the quotient or one more. -/
theorem roundDiv_bounds (n d : Nat) : n / d ≤ roundDiv n d ∧ roundDiv n d ≤ n / d + 1 := by
  unfold roundDiv
  dsimp only
  split_ifs <;> omega

/-- A quotient is rounded to an even number, or above it, from half a step below it on. -/
theorem le_roundDiv_iff {k n d : Nat} (hk : k % 2 = 0) (hpos : 0 < k) (hd : 0 < d) :
    k ≤ roundDiv n d ↔ (2 * k - 1) * d ≤ 2 * n := by
  have hn : d * (n / d) + n % d = n := Nat.div_add_mod n d
  have hr : n % d < d := Nat.mod_lt n hd
  have hround := roundDiv_bounds n d
  have hcomm : d * k = k * d := Nat.mul_comm d k
  have hsplit : (2 * k - 1) * d + d = 2 * (k * d) := by
    rw [← Nat.succ_mul, Nat.succ_eq_add_one, Nat.sub_add_cancel (by omega), Nat.mul_assoc]
  rcases Nat.lt_trichotomy (n / d) (k - 1) with hlt | heq | hgt
  · -- the quotient is a whole step too small
    have hmul : d * (n / d + 2) ≤ d * k := Nat.mul_le_mul_left d (by omega)
    have hexpand : d * (n / d + 2) = d * (n / d) + 2 * d := by ring
    constructor <;> intro h <;> omega
  · -- the rest decides
    have hstep : d * (n / d) + d = k * d := by
      rw [← Nat.mul_succ, Nat.mul_comm, heq, Nat.succ_eq_add_one, Nat.sub_add_cancel hpos]
    unfold roundDiv
    dsimp only
    split_ifs <;> omega
  · have hmul : d * k ≤ d * (n / d) := Nat.mul_le_mul_left d (by omega)
    constructor <;> intro h <;> omega

/-! ## Rounding in units of any size

The unit is `2 ^ -u`, and the bound is the middle between the two numbers before `2 ^ (b + 54)`, if
fifty-three bits are kept. Nothing here needs the values of `u` and `b`.
-/

section Units

variable {n d q : Nat} (u b : Nat)

-- A fraction is at least a natural number if its whole units are.
private theorem le_units_iff (hd : 0 < d) (k : Nat) : k * 2 ^ u ≤ n * 2 ^ u / d ↔ k * d ≤ n := by
  rw [Nat.le_div_iff_mul_le hd, Nat.mul_right_comm]
  exact Nat.mul_le_mul_right_iff (Nat.two_pow_pos u)

-- From `2 ^ 53` units on, neighbours are so far apart that the count of steps has fifty-three bits.
private theorem steps_bounds (hq : 2 ^ 53 ≤ q) :
    2 ^ (52 + (q.log2 - 52)) ≤ q ∧ q < 2 ^ (53 + (q.log2 - 52)) := by
  have hne : q ≠ 0 := by omega
  have hlog : 53 ≤ q.log2 := (Nat.le_log2 hne).mpr hq
  rw [show 52 + (q.log2 - 52) = q.log2 by omega, show 53 + (q.log2 - 52) = q.log2 + 1 by omega]
  exact ⟨Nat.log2_self_le hne, Nat.lt_log2_self⟩

-- In the last range the bound is half a step below the end of the range.
private theorem le_roundDiv_last_iff (hd : 0 < d) :
    2 ^ 53 ≤ roundDiv (n * 2 ^ u) (d * 2 ^ (u + b + 1)) ↔ (2 ^ 54 - 1) * 2 ^ b * d ≤ n := by
  have hbound : (2 * 2 ^ 53 - 1) * (d * 2 ^ (u + b + 1)) =
      (2 ^ 54 - 1) * 2 ^ b * d * 2 ^ (u + 1) := by
    rw [show u + b + 1 = b + (u + 1) by omega, Nat.pow_add 2 b]
    ring
  have hvalue : 2 * (n * 2 ^ u) = n * 2 ^ (u + 1) := by ring
  rw [le_roundDiv_iff (by norm_num) (by norm_num) (Nat.mul_pos hd (Nat.two_pow_pos _)), hbound,
    hvalue]
  exact Nat.mul_le_mul_right_iff (Nat.two_pow_pos _)

-- Where a rounded fraction reaches the range after the last one.
private theorem le_rounded_iff (hd : 0 < d) (hq : n * 2 ^ u / d = q) :
    (u + b + 3) * 2 ^ 52 ≤
        (q.log2 - 52) * 2 ^ 52 + roundDiv (n * 2 ^ u) (d * 2 ^ (q.log2 - 52)) ↔
      (2 ^ 54 - 1) * 2 ^ b * d ≤ n := by
  have hround := roundDiv_bounds (n * 2 ^ u) (d * 2 ^ (q.log2 - 52))
  rw [← Nat.div_div_eq_div_mul, hq] at hround
  have hunits := le_units_iff (n := n) u hd ((2 ^ 54 - 1) * 2 ^ b)
  rw [hq, Nat.mul_assoc, ← Nat.pow_add] at hunits
  by_cases hsmall : q < 2 ^ 53
  · -- neighbours are one unit apart
    have hlog : q.log2 < 53 := by
      by_cases hzero : q = 0
      · simp [hzero]
      · exact (Nat.log2_lt hzero).mpr hsmall
    have hpos := Nat.two_pow_pos (b + u)
    rw [show q.log2 - 52 = 0 by omega] at hround ⊢
    rw [← hunits]
    omega
  obtain ⟨hlow, hhigh⟩ := steps_bounds (Nat.le_of_not_lt hsmall)
  have hcount : 2 ^ 52 ≤ q / 2 ^ (q.log2 - 52) ∧ q / 2 ^ (q.log2 - 52) < 2 ^ 53 := by
    rw [Nat.le_div_iff_mul_le (Nat.two_pow_pos _), Nat.div_lt_iff_lt_mul (Nat.two_pow_pos _),
      ← Nat.pow_add, ← Nat.pow_add]
    exact ⟨hlow, hhigh⟩
  rcases Nat.lt_trichotomy (q.log2 - 52) (u + b + 1) with hlt | heq | hgt
  · have hle : 2 ^ (53 + (q.log2 - 52)) ≤ 2 ^ (53 + (b + u)) :=
      Nat.pow_le_pow_right Nat.two_pos (by omega)
    rw [Nat.pow_add 2 53 (b + u)] at hle
    rw [← hunits]
    omega
  · rw [heq] at hround hcount ⊢
    rw [← le_roundDiv_last_iff u b hd]
    omega
  · have hle : 2 ^ (54 + (b + u)) ≤ 2 ^ (52 + (q.log2 - 52)) :=
      Nat.pow_le_pow_right Nat.two_pos (by omega)
    rw [Nat.pow_add 2 54 (b + u)] at hle
    rw [← hunits]
    omega

-- A fraction is rounded to infinity from the bound on.
private theorem infiniteMagnitude_le_iff_units (hu : unitsPerOne = 2 ^ u)
    (hb : overflowBound = (2 ^ 54 - 1) * 2 ^ b) (hub : u + b + 3 = 2047) (hd : 0 < d) :
    infiniteMagnitude ≤ magnitudeOfRatio n d ↔ overflowBound * d ≤ n := by
  rw [hb, ← le_rounded_iff u b hd rfl, hub, magnitudeOfRatio, infiniteMagnitude, hu,
    fractionRange_eq]
  rfl

end Units

/-- A fraction is rounded to infinity from the bound on. -/
theorem infiniteMagnitude_le_iff {n d : Nat} (hd : 0 < d) :
    infiniteMagnitude ≤ magnitudeOfRatio n d ↔ overflowBound * d ≤ n :=
  infiniteMagnitude_le_iff_units 1074 970 Nat.pow_eq
    (by rw [overflowBound, Nat.pow_eq, Nat.pow_eq]) rfl hd

end Number

namespace Decimal

/-- The denominator of a decimal is positive. -/
theorem ratio_snd_pos (d : Decimal) : 0 < d.ratio.2 := by
  unfold ratio
  split
  · exact Nat.one_pos
  · exact Nat.pow_pos (by norm_num)

/-- A decimal lies beyond the finite numbers if its value reaches the bound. -/
def Overflows (d : Decimal) : Prop := Number.overflowBound * d.ratio.2 ≤ d.ratio.1

/-- Decided by the comparison of two natural numbers. -/
instance (d : Decimal) : Decidable d.Overflows :=
  inferInstanceAs (Decidable (Number.overflowBound * d.ratio.2 ≤ d.ratio.1))

/-- A decimal is read as a number unless it lies beyond the finite ones. -/
theorem toNumber?_eq_none_iff (d : Decimal) : d.toNumber? = none ↔ d.Overflows := by
  rw [Overflows, ← Number.infiniteMagnitude_le_iff d.ratio_snd_pos, toNumber?, Number.ofRatio?]
  simp

end Decimal
end Lox
