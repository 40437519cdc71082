import Lox.Proofs.Number.Rounding

/-!
# Sign and magnitude

A number consists of a sign and a magnitude: without its sign it is itself, or the number that
changes into it with the sign. A number that is read from digits has no sign.
-/

namespace Lox.Number

private theorem infiniteMagnitude_le_signWeight : infiniteMagnitude ≤ signWeight := by decide

section OfMagnitude

variable {m : Nat}

private theorem toNat_bits_ofMagnitude (h : m < infiniteMagnitude) :
    (ofMagnitude false m).bits.toNat = m := by
  have hsize : signWeight ≤ UInt64.size := by decide
  exact UInt64.toNat_ofNat_of_lt' (h.trans_le (infiniteMagnitude_le_signWeight.trans hsize))

private theorem magnitude_ofMagnitude (h : m < infiniteMagnitude) :
    (ofMagnitude false m).magnitude = m := by
  rw [magnitude, toNat_bits_ofMagnitude h]
  exact Nat.mod_eq_of_lt (h.trans_le infiniteMagnitude_le_signWeight)

private theorem isNegative_ofMagnitude (h : m < infiniteMagnitude) :
    (ofMagnitude false m).isNegative = false := by
  rw [isNegative, toNat_bits_ofMagnitude h, decide_eq_false_iff_not, Nat.not_le]
  exact h.trans_le infiniteMagnitude_le_signWeight

end OfMagnitude

section Signs

variable {x : Number}

/-- A number that is nearest to a fraction is finite and has no sign. -/
theorem of_ofRatio?_eq_some {n d : Nat} (h : ofRatio? n d = some x) :
    x.isFinite ∧ x.isNegative = false := by
  unfold ofRatio? at h
  dsimp only at h
  split_ifs at h with hfinite
  cases h
  refine ⟨?_, isNegative_ofMagnitude hfinite⟩
  rw [isFinite, magnitude_ofMagnitude hfinite]
  exact decide_eq_true hfinite

/-- Without its sign, a number that is not negative is itself. -/
theorem ofMagnitude_magnitude (h : x.isNegative = false) : ofMagnitude false x.magnitude = x := by
  have hlt : x.bits.toNat < signWeight := by simpa [isNegative] using h
  rw [ofMagnitude, magnitude, Nat.mod_eq_of_lt hlt]
  simp

-- The sign bit is the one that the magnitude lacks.
private theorem xor_signBit {n : Nat} (hle : 2 ^ 63 ≤ n) (hlt : n < 2 ^ 64) :
    (n % 2 ^ 63) ^^^ 2 ^ 63 = n := by
  refine Nat.eq_of_testBit_eq fun i ↦ ?_
  rw [Nat.testBit_xor, Nat.testBit_mod_two_pow, Nat.testBit_two_pow]
  rcases Nat.lt_trichotomy i 63 with hi | rfl | hi
  · simp [hi, hi.ne']
  · have hbit := Nat.testBit_of_two_pow_le_and_two_pow_add_one_gt hle hlt
    simp [hbit]
  · have hbit : n.testBit i = false :=
      Nat.testBit_lt_two_pow (hlt.trans_le (Nat.pow_le_pow_right Nat.two_pos hi))
    simp [hbit, hi.ne, hi.not_gt]

/-- A negative number is its magnitude with the other sign. -/
theorem negate_ofMagnitude (h : x.isNegative) : (ofMagnitude false x.magnitude).negate = x := by
  have hle : 2 ^ 63 ≤ x.bits.toNat := of_decide_eq_true h
  have hbits : UInt64.ofNat (x.bits.toNat % 2 ^ 63) ^^^ 0x8000000000000000 = x.bits := by
    have hsize : x.bits.toNat % 2 ^ 63 < UInt64.size := by rw [UInt64.size]; omega
    rw [← UInt64.toNat_inj, UInt64.toNat_xor, UInt64.toNat_ofNat_of_lt' hsize]
    exact xor_signBit hle x.bits.toNat_lt
  exact congrArg Number.mk hbits

end Signs
end Lox.Number
