import Lox.Number.Basic
import Mathlib.Algebra.Order.Ring.Nat

/-!
# Numbers that are the same

Whether two numbers are the same is decided by their bits. The machine's floating-point comparison
goes by their values instead: it takes the zeros for equal and finds whatever is not a number
different from itself. Both come to one relation (`Number.same_eq`), as only the zeros share a value
(`Number.eq_of_value_eq`), and this relation is an equivalence (`Number.equivalence_same`).
-/

namespace Lox.Number

open Float.Model Float.Model.UnpackedFloat

/-! ## Bits of values -/

section Parts

variable (s : Sign) (e : BitVec 11) (m : BitVec 52)

private theorem toNat_pos {m : BitVec 52} (h : m ≠ 0#52) : 0 < m.toNat :=
  Nat.pos_of_ne_zero fun hc ↦ h (BitVec.eq_of_toNat_eq hc)

-- The fraction of a normal number is behind a leading one.
private theorem toNat_leading : (1#1 ++ m).toNat = 2 ^ 52 + m.toNat := by
  have hm : m.toNat < 2 ^ 52 := m.isLt
  rw [BitVec.toNat_append, Nat.shiftLeft_eq]
  change 2 ^ 52 ||| m.toNat = _
  rw [Nat.or_comm, Nat.or_two_pow_eq_add_of_lt hm, Nat.add_comm]

-- The value that a sign, an exponent and a fraction stand for.
private def valueOf : UnpackedFloat :=
  if e = -1#11 then if m = 0#52 then .infinity s else .notANumber
  else if e = 0#11 then
    if h : m = 0#52 then .zero s else .finite s m.toNat (e.toNat - 1075 + 1) (toNat_pos h)
  else .finite s (1#1 ++ m).toNat (e.toNat - 1075) (by rw [toNat_leading]; omega)

-- One case for each form that the parts can have.
private theorem valueOf_cases {P : UnpackedFloat → Prop}
    (infinity : e = -1#11 → m = 0#52 → P (.infinity s))
    (notANumber : e = -1#11 → m ≠ 0#52 → P .notANumber)
    (zero : e = 0#11 → m = 0#52 → P (.zero s))
    (subnormal : e = 0#11 → (h : m ≠ 0#52) →
      P (.finite s m.toNat (e.toNat - 1075 + 1) (toNat_pos h)))
    (normal : e ≠ -1#11 → e ≠ 0#11 →
      P (.finite s (1#1 ++ m).toNat (e.toNat - 1075) (by rw [toNat_leading]; omega))) :
    P (valueOf s e m) := by
  by_cases hones : e = -1#11
  · by_cases hzero : m = 0#52
    · rw [valueOf, if_pos hones, if_pos hzero]
      exact infinity hones hzero
    · rw [valueOf, if_pos hones, if_neg hzero]
      exact notANumber hones hzero
  by_cases hexp : e = 0#11
  · by_cases hzero : m = 0#52
    · rw [valueOf, if_neg hones, if_pos hexp, dif_pos hzero]
      exact zero hexp hzero
    · rw [valueOf, if_neg hones, if_pos hexp, dif_neg hzero]
      exact subnormal hexp hzero
  · rw [valueOf, if_neg hones, if_neg hexp]
    exact normal hones hexp

-- The bits of a finite value, with the numbers of the format filled in.
private theorem pack_finite (n : Nat) (x : Int) (h : 0 < n) :
    UnpackedFloat.pack Format.binary64 (.finite s n x h) =
      if 2 ^ 11 ≤ (x + (1023 : Nat) + (52 : Nat)).toNat + 1 then packedInfinity Format.binary64 s
      else if n.log2 + 1 = 53 then
        packComponents Format.binary64 s (BitVec.ofNat 11 (x + (1023 : Nat) + (52 : Nat)).toNat)
          (BitVec.ofNat 52 n)
      else packComponents Format.binary64 s 0#11 (BitVec.ofNat 52 n) :=
  rfl

-- A value that is a number has the bits that it was read from.
private theorem pack_valueOf (h : valueOf s e m ≠ .notANumber) :
    UnpackedFloat.pack Format.binary64 (valueOf s e m) = packComponents Format.binary64 s e m := by
  have hm : m.toNat < 2 ^ 52 := m.isLt
  have he : e.toNat < 2 ^ 11 := e.isLt
  revert h
  refine valueOf_cases s e m (P := fun v ↦ v ≠ .notANumber → UnpackedFloat.pack Format.binary64 v =
    packComponents Format.binary64 s e m) ?_ ?_ ?_ ?_ ?_
  · rintro rfl rfl -
    rfl
  · rintro - - h
    exact absurd rfl h
  · rintro rfl rfl -
    rfl
  · rintro hexp hzero -
    -- without a leading one the mantissa has fewer bits, by which its exponent is told
    have hlog : m.toNat.log2 < 52 := (Nat.log2_lt (Nat.ne_of_gt (toNat_pos hzero))).mpr hm
    have hbiased : ((e.toNat : Int) - 1075 + 1 + (1023 : Nat) + (52 : Nat)).toNat = 1 := by
      rw [hexp]
      rfl
    rw [pack_finite, hbiased, if_neg (by decide), if_neg (by omega), BitVec.ofNat_toNat,
      BitVec.setWidth_eq, hexp]
  · rintro hones hexp -
    have hones' : e.toNat ≠ 2047 := fun hc ↦ hones (BitVec.eq_of_toNat_eq hc)
    have hexp' : e.toNat ≠ 0 := fun hc ↦ hexp (BitVec.eq_of_toNat_eq hc)
    have hleading := toNat_leading m
    have hlog : (1#1 ++ m).toNat.log2 = 52 :=
      (Nat.log2_eq_iff (by omega)).mpr ⟨by omega, by omega⟩
    have hbiased : ((e.toNat : Int) - 1075 + (1023 : Nat) + (52 : Nat)).toNat = e.toNat := by omega
    have hmant : BitVec.ofNat 52 (1#1 ++ m).toNat = m := by
      apply BitVec.eq_of_toNat_eq
      rw [BitVec.toNat_ofNat, hleading]
      omega
    rw [pack_finite, hbiased, hlog, if_neg (by omega), if_pos rfl, BitVec.ofNat_toNat,
      BitVec.setWidth_eq, hmant]

private theorem valueOf_eq_notANumber_iff :
    valueOf s e m = .notANumber ↔ e.toNat = 2047 ∧ m.toNat ≠ 0 := by
  have hones : e = -1#11 ↔ e.toNat = 2047 := BitVec.toNat_inj.symm
  have hexp : e = 0#11 ↔ e.toNat = 0 := BitVec.toNat_inj.symm
  have hzero : m = 0#52 ↔ m.toNat = 0 := BitVec.toNat_inj.symm
  refine valueOf_cases s e m (P := (· = .notANumber ↔ _)) ?_ ?_ ?_ ?_ ?_
  · exact fun _ hm ↦ iff_of_false nofun fun h ↦ h.2 (hzero.mp hm)
  · exact fun he hm ↦ iff_of_true rfl ⟨hones.mp he, fun h ↦ hm (hzero.mpr h)⟩
  · exact fun _ hm ↦ iff_of_false nofun fun h ↦ h.2 (hzero.mp hm)
  · exact fun he _ ↦ iff_of_false nofun fun h ↦ absurd ((hexp.mp he).symm.trans h.1) (by decide)
  · exact fun he _ ↦ iff_of_false nofun fun h ↦ he (hones.mpr h.1)

private theorem exists_valueOf_eq_zero_iff :
    (∃ s', valueOf s e m = .zero s') ↔ e.toNat = 0 ∧ m.toNat = 0 := by
  have hones : e = -1#11 ↔ e.toNat = 2047 := BitVec.toNat_inj.symm
  have hexp : e = 0#11 ↔ e.toNat = 0 := BitVec.toNat_inj.symm
  have hzero : m = 0#52 ↔ m.toNat = 0 := BitVec.toNat_inj.symm
  refine valueOf_cases s e m (P := fun v ↦ (∃ s', v = .zero s') ↔ _) ?_ ?_ ?_ ?_ ?_
  · exact fun he _ ↦ iff_of_false nofun fun h ↦ absurd ((hones.mp he).symm.trans h.1) (by decide)
  · exact fun he _ ↦ iff_of_false nofun fun h ↦ absurd ((hones.mp he).symm.trans h.1) (by decide)
  · exact fun he hm ↦ iff_of_true ⟨s, rfl⟩ ⟨hexp.mp he, hzero.mp hm⟩
  · exact fun _ hm ↦ iff_of_false nofun fun h ↦ hm (hzero.mpr h.2)
  · exact fun _ he ↦ iff_of_false nofun fun h ↦ he (hexp.mpr h.1)

private theorem toBitVec_ofBitVec (v : BitVec 1) : (Sign.ofBitVec v).toBitVec = v := by
  rcases BitVec.eq_zero_or_eq_one v with rfl | rfl <;> rfl

private theorem packComponents_parts (b : BitVec 64) :
    packComponents Format.binary64 (Sign.ofBitVec (@unpackSign Format.binary64 b))
      (@unpackExponent Format.binary64 b) (@unpackMantissa Format.binary64 b) = b := by
  have hhigh : b.extractLsb' 63 1 ++ b.extractLsb' 52 11 = b.extractLsb' 52 12 :=
    BitVec.extractLsb'_append_extractLsb'_eq_extractLsb' rfl
  have hall : b.extractLsb' 52 12 ++ b.extractLsb' 0 52 = b.extractLsb' 0 64 :=
    BitVec.extractLsb'_append_extractLsb'_eq_extractLsb' rfl
  rw [packComponents, toBitVec_ofBitVec]
  change b.extractLsb' 63 1 ++ b.extractLsb' 52 11 ++ b.extractLsb' 0 52 = b
  rw [hhigh, hall]
  exact BitVec.extractLsb'_eq_self

end Parts

/-! ## Values of numbers -/

section Values

variable {x y z : Number}

/-- The value of a number, as floating-point operations have it. -/
def value (x : Number) : UnpackedFloat := UnpackedFloat.unpack Format.binary64 x.bits.toBitVec

private theorem value_eq (x : Number) : x.value =
    valueOf (Sign.ofBitVec (@unpackSign Format.binary64 x.bits.toBitVec))
      (@unpackExponent Format.binary64 x.bits.toBitVec)
      (@unpackMantissa Format.binary64 x.bits.toBitVec) := rfl

private theorem pack_value (h : x.value ≠ .notANumber) :
    UnpackedFloat.pack Format.binary64 x.value = x.bits.toBitVec :=
  (pack_valueOf _ _ _ h).trans (packComponents_parts _)

/-- The bits of what is not a number are lost in a floating-point number, but its value is kept. -/
theorem unpack_toFloat (x : Number) : x.toFloat.toModel.unpack = x.value := by
  change UnpackedFloat.unpack Format.binary64 (UnpackedFloat.pack Format.binary64 x.value) = _
  by_cases h : x.value = .notANumber
  · rw [h]
    rfl
  · rw [pack_value h, value]

/-- A value that is a number has one sequence of bits. -/
theorem eq_of_value_eq (h : x.value = y.value) (hx : x.value ≠ .notANumber) : x = y := by
  have hbits := congrArg (UnpackedFloat.pack Format.binary64) h
  rw [pack_value hx, pack_value fun hy ↦ hx (h.trans hy)] at hbits
  obtain ⟨bits⟩ := x
  obtain ⟨bits'⟩ := y
  exact congrArg Number.mk (UInt64.toBitVec_inj.mp hbits)

private theorem toNat_exponent (x : Number) :
    (@unpackExponent Format.binary64 x.bits.toBitVec).toNat =
      x.magnitude / fractionRange := by
  change (x.bits.toBitVec.extractLsb' 52 11).toNat = _
  rw [BitVec.extractLsb'_toNat, Nat.shiftRight_eq_div_pow]
  simp only [magnitude, signWeight, fractionRange, UInt64.toNat_toBitVec, Nat.pow_eq]
  omega

private theorem toNat_fraction (x : Number) :
    (@unpackMantissa Format.binary64 x.bits.toBitVec).toNat =
      x.magnitude % fractionRange := by
  change (x.bits.toBitVec.extractLsb' 0 52).toNat = _
  rw [BitVec.extractLsb'_toNat, Nat.shiftRight_eq_div_pow]
  simp only [magnitude, signWeight, fractionRange, UInt64.toNat_toBitVec, Nat.pow_eq]
  omega

private theorem isNaN_iff : x.isNaN = true ↔ x.value = .notANumber := by
  have hlt : x.magnitude < signWeight := Nat.mod_lt _ (by decide)
  rw [value_eq, valueOf_eq_notANumber_iff, toNat_exponent, toNat_fraction, isNaN,
    decide_eq_true_iff]
  simp only [infiniteMagnitude, signWeight, fractionRange, Nat.pow_eq] at hlt ⊢
  omega

private theorem isZero_iff : x.isZero = true ↔ ∃ s, x.value = .zero s := by
  rw [value_eq, exists_valueOf_eq_zero_iff, toNat_exponent, toNat_fraction, isZero, beq_iff_eq]
  simp only [fractionRange, Nat.pow_eq]
  omega

/-! ## Comparison -/

-- Values are equal if they are one number, or both zero.
private theorem compare_eq_iff (u v : UnpackedFloat) : u.compare v = some .eq ↔
    u ≠ .notANumber ∧ u = v ∨ (∃ s, u = .zero s) ∧ ∃ s, v = .zero s := by
  constructor
  · intro h
    cases u with
    | notANumber => cases h
    | infinity s =>
      cases v with
      | infinity s' =>
        have hs : s = s' := by cases s <;> cases s' <;> first | rfl | cases h
        exact .inl ⟨nofun, hs ▸ rfl⟩
      | _ => cases s <;> cases h
    | zero s =>
      cases v with
      | zero s' => exact .inr ⟨⟨s, rfl⟩, s', rfl⟩
      | notANumber => cases h
      | infinity s' | finite s' => cases s' <;> cases h
    | finite s m e hm =>
      cases v with
      | finite s' m' e' hm' =>
        obtain ⟨rfl, hx⟩ : s = s' ∧ (compare e e').then (compare m m') = .eq := by
          cases s <;> cases s' <;> first | cases h | skip
          · exact ⟨rfl, Ordering.swap_eq_eq.mp (Option.some.inj h)⟩
          · exact ⟨rfl, Option.some.inj h⟩
        obtain ⟨he, hm⟩ := Ordering.then_eq_eq.mp hx
        obtain rfl := compare_eq_iff_eq.mp he
        obtain rfl := compare_eq_iff_eq.mp hm
        exact .inl ⟨nofun, rfl⟩
      | notANumber => cases h
      | infinity s' => cases s' <;> cases h
      | zero => cases s <;> cases h
  · rintro (⟨hne, rfl⟩ | ⟨⟨s, rfl⟩, s', rfl⟩)
    · cases u with
      | notANumber => exact absurd rfl hne
      | infinity s => cases s <;> rfl
      | zero s => rfl
      | finite s m e hm =>
        have hx : (compare e e).then (compare m m) = .eq :=
          Ordering.then_eq_eq.mpr ⟨compare_eq_iff_eq.mpr rfl, compare_eq_iff_eq.mpr rfl⟩
        cases s with
        | negative => exact congrArg some (Ordering.swap_eq_eq.mpr hx)
        | positive => exact congrArg some hx
    · rfl

/-- The machine takes two numbers for equal if they have the same bits and are numbers, or are
zeros. -/
theorem toFloat_beq_iff :
    (x.toFloat == y.toFloat) = true ↔ x.isNaN = false ∧ x = y ∨ x.isZero ∧ y.isZero := by
  have hbeq : (x.toFloat == y.toFloat) = true ↔ x.value.compare y.value = some .eq := by
    change (x.toFloat.toModel.unpack.compare y.toFloat.toModel.unpack == some .eq) = true ↔ _
    rw [unpack_toFloat, unpack_toFloat, beq_iff_eq]
  rw [hbeq, compare_eq_iff, ← isZero_iff, ← isZero_iff, ← Bool.not_eq_true, isNaN_iff]
  refine or_congr_left (and_congr_right fun hx ↦ ⟨fun h ↦ eq_of_value_eq h hx, ?_⟩)
  rintro rfl
  rfl

private theorem isZero_eq_false (h : x.isNaN) : x.isZero = false := by
  rw [isNaN, decide_eq_true_iff] at h
  rw [isZero, beq_eq_false_iff_ne]
  exact Nat.ne_of_gt (Nat.zero_lt_of_lt h)

/-- What is not a number is different from itself, and nothing else is. -/
theorem toFloat_bne_self (x : Number) : (x.toFloat != x.toFloat) = x.isNaN := by
  rw [bne, Bool.not_eq_eq_eq_not, Bool.eq_iff_iff, toFloat_beq_iff]
  cases h : x.isNaN with
  | false => simp
  | true => simp [isZero_eq_false h]

/-- Two numbers are the same if they are alike in not being numbers, are zeros, or are one. -/
theorem same_iff : x.same y = true ↔ x.isNaN ∧ y.isNaN ∨ x.isZero ∧ y.isZero ∨ x = y := by
  have hbits : x.bits = y.bits ↔ x = y := by
    rw [Number.mk.injEq]
  simp [same, hbits, or_assoc]

/-- Two numbers are the same if the machine takes them for equal, or finds each of them different
from itself. -/
theorem same_eq (x y : Number) : x.same y =
    (x.toFloat == y.toFloat || x.toFloat != x.toFloat && y.toFloat != y.toFloat) := by
  rw [toFloat_bne_self, toFloat_bne_self, Bool.eq_iff_iff, Bool.or_eq_true, Bool.and_eq_true,
    toFloat_beq_iff, same_iff]
  constructor
  · rintro (hnan | hzero | rfl)
    · exact .inr hnan
    · exact .inl (.inr hzero)
    · cases h : x.isNaN with
      | false => exact .inl (.inl ⟨rfl, rfl⟩)
      | true => exact .inr ⟨rfl, rfl⟩
  · rintro ((⟨-, heq⟩ | hzero) | hnan)
    · exact .inr (.inr heq)
    · exact .inr (.inl hzero)
    · exact .inl hnan

/-- Being the same is an equivalence. -/
theorem equivalence_same : Equivalence fun x y : Number ↦ x.same y = true where
  refl x := same_iff.mpr (.inr (.inr rfl))
  symm h := by
    rcases same_iff.mp h with ⟨hx, hy⟩ | ⟨hx, hy⟩ | rfl
    · exact same_iff.mpr (.inl ⟨hy, hx⟩)
    · exact same_iff.mpr (.inr (.inl ⟨hy, hx⟩))
    · exact h
  trans {x y z} h h' := by
    rcases same_iff.mp h with ⟨hx, hy⟩ | ⟨hx, hy⟩ | rfl
    · rcases same_iff.mp h' with ⟨-, hz⟩ | ⟨hy', -⟩ | rfl
      · exact same_iff.mpr (.inl ⟨hx, hz⟩)
      · rw [isZero_eq_false hy] at hy'
        cases hy'
      · exact h
    · rcases same_iff.mp h' with ⟨hy', -⟩ | ⟨-, hz⟩ | rfl
      · rw [isZero_eq_false hy'] at hy
        cases hy
      · exact same_iff.mpr (.inr (.inl ⟨hx, hz⟩))
      · exact h
    · exact h'

end Values

end Lox.Number
