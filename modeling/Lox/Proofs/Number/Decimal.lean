import Mathlib.Data.Rat.Cast.Order
import Mathlib.Tactic.FieldSimp
import Lox.Proofs.Number.Range
import Lox.Proofs.Number.Rounding

/-!
# The value of a decimal

What number a decimal is read as depends on its value alone, and not on how many zeros its
coefficient ends with (`Decimal.toNumber?_eq_of_value_eq`). The decimal that a number is written as
is read as the absolute value of this number again (`Decimal.toNumber?_shortest`): if no shorter one
is, its exact value is.
-/

namespace Lox.Decimal

/-- The rational number that a decimal stands for. -/
def value (d : Decimal) : ℚ := d.coefficient * 10 ^ d.exponent

private theorem value_eq_ratio (d : Decimal) : d.value = d.ratio.1 / d.ratio.2 := by
  obtain ⟨c, e⟩ := d
  cases e with
  | ofNat e => simp [value, ratio]
  | negSucc e => simp [value, ratio, zpow_negSucc, div_eq_mul_inv]

/-- A decimal is read as the number nearest to any fraction of its value. -/
theorem toNumber?_eq_ofRatio? {d : Decimal} {n k : Nat} (hk : 0 < k) (h : d.value = n / k) :
    d.toNumber? = Number.ofRatio? n k := by
  have hpos := d.ratio_snd_pos
  have hcross : (d.ratio.1 : ℚ) * k = n * d.ratio.2 := by
    rw [value_eq_ratio] at h
    field_simp at h
    linarith
  exact Number.ofRatio?_eq_of_mul_eq hpos hk (by exact_mod_cast hcross)

/-- Decimals of one value are read as the same number. -/
theorem toNumber?_eq_of_value_eq {d d' : Decimal} (h : d.value = d'.value) :
    d.toNumber? = d'.toNumber? :=
  toNumber?_eq_ofRatio? d'.ratio_snd_pos (h.trans d'.value_eq_ratio)

/-- A zero at the end of the coefficient counts as one in the exponent. -/
theorem value_mul_ten (c : Nat) (e : Int) : value ⟨10 * c, e⟩ = value ⟨c, e + 1⟩ := by
  simp only [value]
  rw [zpow_add_one₀ (by norm_num)]
  push_cast
  ring

/-- The induction is on the coefficient, which a zero at its end makes shorter. -/
theorem value_trimmed_go (c : Nat) (e : Int) : (trimmed.go c e).value = value ⟨c, e⟩ := by
  fun_induction trimmed.go c e with
  | case1 c e h ih => rw [ih, ← value_mul_ten, Nat.mul_div_cancel' (Nat.dvd_of_mod_eq_zero h.2)]
  | case2 c e h => rfl

private theorem value_trimmed (d : Decimal) : d.trimmed.value = d.value := value_trimmed_go _ _

-- The digits of a multiple of `2 ^ -u` are those of a multiple of `5 ^ u`.
private theorem value_fives {u p q : Nat} {e : Int} (hp : p = 5 ^ u) (hq : q = 2 ^ u)
    (he : e = -u) (c : Nat) : value ⟨c * p, e⟩ = c / q := by
  have hten : (10 : ℚ) ^ u = 5 ^ u * 2 ^ u := by rw [← mul_pow]; norm_num
  subst hp hq he
  simp only [value, zpow_neg, zpow_natCast, Nat.cast_mul, Nat.cast_pow, hten]
  field_simp
  simp

private theorem value_exact (x : Number) : (exact x).value = x.units / Number.unitsPerOne :=
  value_fives (u := 1074) Nat.pow_eq Nat.pow_eq rfl x.units

/-- What the search for a short decimal finds is read as the number. -/
theorem toNumber?_of_ofNumber? {x : Number} {lead : Int} {digits : Nat} {d : Decimal}
    (h : ofNumber? x lead digits = some d) :
    d.toNumber? = some (.ofMagnitude false x.magnitude) := by
  unfold ofNumber? at h
  dsimp only at h
  split_ifs at h with hnearer hfarther
  · cases h
    exact beq_iff_eq.mp hnearer
  · cases h
    exact beq_iff_eq.mp hfarther

/-- The decimal that a finite number is written as is read as its absolute value. -/
theorem toNumber?_shortest {x : Number} (hx : x.isFinite) :
    (shortest x).toNumber? = some (.ofMagnitude false x.magnitude) := by
  rw [← Number.ofRatio?_units hx]
  have hexact := toNumber?_eq_ofRatio? Number.unitsPerOne_pos (value_exact x)
  unfold shortest
  split_ifs with hzero
  · have hunits : x.units = 0 := by
      have hmagnitude : x.magnitude = 0 := by simpa [Number.isZero] using hzero
      rw [Number.units, hmagnitude]
      rfl
    have hvalue : value ⟨0, 0⟩ = x.units / Number.unitsPerOne := by
      rw [hunits, value, Nat.cast_zero, zero_mul, zero_div]
    exact toNumber?_eq_ofRatio? Number.unitsPerOne_pos hvalue
  · dsimp only
    rw [toNumber?_eq_of_value_eq (value_trimmed _)]
    cases hfound : (List.range 17).findSome? fun k ↦
        ofNumber? x (leadingExponent x.units Number.unitsPerOne) (k + 1) with
    | none => exact hexact
    | some d =>
      obtain ⟨k, -, hk⟩ := List.exists_of_findSome?_eq_some hfound
      rw [Number.ofRatio?_units hx]
      exact toNumber?_of_ofNumber? hk

end Lox.Decimal
