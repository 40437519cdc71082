import Lox.Number.Rounding
import Mathlib.Tactic.Ring

/-!
# Rounding what needs no rounding

The number nearest to a fraction depends on the value of the fraction alone
(`ofRatio?_eq_of_mul_eq`), and a fraction that is the value of a finite magnitude is rounded to this
magnitude (`magnitudeOfRatio_unitsOfMagnitude`). So a number can be given by any fraction of its
value.
-/

namespace Lox.Number

/-- One is at least one unit. -/
theorem unitsPerOne_pos : 0 < unitsPerOne := by
  unfold unitsPerOne
  generalize 1074 = u
  exact Nat.two_pow_pos u

/-- Fractions have 52 bits. -/
theorem fractionRange_eq : fractionRange = 2 ^ 52 := by
  rw [fractionRange, Nat.pow_eq]

/-! ## The value of a fraction decides -/

/-- A rounded quotient does not change with a common factor. -/
theorem roundDiv_mul_left {k : Nat} (hk : 0 < k) (n d : Nat) :
    roundDiv (k * n) (k * d) = roundDiv n d := by
  have hquotient : k * n / (k * d) = n / d := Nat.mul_div_mul_left n d hk
  have hrest : 2 * (k * n % (k * d)) = k * (2 * (n % d)) := by
    rw [Nat.mul_mod_mul_left]
    ring
  unfold roundDiv
  dsimp only
  rw [hquotient, hrest]
  simp only [Nat.mul_lt_mul_left hk]

/-- The nearest magnitude does not change with a common factor. -/
theorem magnitudeOfRatio_mul_left {k : Nat} (hk : 0 < k) (n d : Nat) :
    magnitudeOfRatio (k * n) (k * d) = magnitudeOfRatio n d := by
  have hquotient : k * (n * unitsPerOne) / (k * d) = n * unitsPerOne / d :=
    Nat.mul_div_mul_left _ d hk
  unfold magnitudeOfRatio
  dsimp only
  rw [Nat.mul_assoc k n, hquotient, Nat.mul_assoc k d, roundDiv_mul_left hk]

/-- Fractions of one value have the same nearest number. -/
theorem ofRatio?_eq_of_mul_eq {n d n' d' : Nat} (hd : 0 < d) (hd' : 0 < d')
    (h : n * d' = n' * d) : ofRatio? n d = ofRatio? n' d' := by
  have hmagnitude : magnitudeOfRatio n d = magnitudeOfRatio n' d' := by
    rw [← magnitudeOfRatio_mul_left hd' n d, ← magnitudeOfRatio_mul_left hd n' d',
      Nat.mul_comm d' n, h, Nat.mul_comm n' d, Nat.mul_comm d' d]
  rw [ofRatio?, ofRatio?, hmagnitude]

/-! ## The value of a number -/

-- A quotient without a rest is not rounded.
private theorem roundDiv_mul_self {d : Nat} (hd : 0 < d) (n : Nat) : roundDiv (n * d) d = n := by
  simp [roundDiv, hd]

-- A whole number of units is rounded as such.
private theorem magnitudeOfRatio_unitsPerOne (n : Nat) :
    magnitudeOfRatio n unitsPerOne =
      (n.log2 - 52) * fractionRange + roundDiv n (2 ^ (n.log2 - 52)) := by
  unfold magnitudeOfRatio
  dsimp only
  rw [Nat.mul_comm n, Nat.mul_div_cancel_left n unitsPerOne_pos, Nat.pow_eq,
    roundDiv_mul_left unitsPerOne_pos]

-- Fifty-three bits, shifted by some more.
private theorem log2_significand_mul {f : Nat} (hf : f < 2 ^ 52) (e : Nat) :
    ((2 ^ 52 + f) * 2 ^ e).log2 = 52 + e := by
  have hpos : 0 < 2 ^ e := Nat.two_pow_pos e
  have hne : (2 ^ 52 + f) * 2 ^ e ≠ 0 := Nat.mul_ne_zero (by omega) hpos.ne'
  rw [Nat.log2_eq_iff hne, show 52 + e + 1 = 53 + e by omega, Nat.pow_add 2 52, Nat.pow_add 2 53]
  exact ⟨Nat.mul_le_mul_right _ (by omega), Nat.mul_lt_mul_of_pos_right (by omega) hpos⟩

/-- The value of a magnitude is rounded to it. -/
theorem magnitudeOfRatio_unitsOfMagnitude (m : Nat) :
    magnitudeOfRatio (unitsOfMagnitude m) unitsPerOne = m := by
  rw [magnitudeOfRatio_unitsPerOne, unitsOfMagnitude, fractionRange_eq]
  by_cases hm : m < 2 ^ 52
  · -- neighbours are one unit apart
    have hlog : m.log2 - 52 = 0 := by
      by_cases hzero : m = 0
      · simp [hzero]
      · have hbound := (Nat.log2_lt hzero).mpr hm
        omega
    have hround := roundDiv_mul_self Nat.one_pos m
    rw [Nat.mul_one] at hround
    rw [if_pos hm, hlog, Nat.pow_zero, hround, Nat.zero_mul, Nat.zero_add]
  · -- the count of steps keeps all its bits
    obtain ⟨e, he⟩ : ∃ e, m / 2 ^ 52 = e + 1 := ⟨m / 2 ^ 52 - 1, by omega⟩
    rw [if_neg hm, he, Nat.add_sub_cancel, Nat.pow_eq,
      log2_significand_mul (Nat.mod_lt m (Nat.two_pow_pos 52)), Nat.add_sub_cancel_left,
      roundDiv_mul_self (Nat.two_pow_pos e)]
    omega

/-- A finite number is the nearest one to its value. -/
theorem ofRatio?_units {x : Number} (hx : x.isFinite) :
    ofRatio? x.units unitsPerOne = some (ofMagnitude false x.magnitude) := by
  have hfinite : x.magnitude < infiniteMagnitude := by simpa [isFinite] using hx
  rw [ofRatio?, units, magnitudeOfRatio_unitsOfMagnitude]
  exact if_pos hfinite

end Lox.Number
