import Mathlib.Data.List.TakeWhile
import Lox.Number.Text
import Lox.Proofs.Number.Decimal
import Lox.Proofs.Number.Sign
import Lox.Proofs.Token.Lexeme

/-!
# The texts of numbers as number tokens

Whatever is written without an exponent is a number of the lexical grammar, an integer or one with a
fraction, and its value is that of the decimal that was written (`Decimal.writes_positional`).
So the two texts of a finite number, apart from the sign, are number tokens of its absolute value
(`Number.exists_literalText`, `Number.exists_display`).
-/

namespace Lox

/-! ## The digits of natural numbers -/

namespace Bytes

private theorem toNat_ascii_digit {c : Char} (h : c.isDigit) :
    (ascii c).toNat = c.toNat ∧ 48 ≤ c.toNat ∧ c.toNat ≤ 57 := by
  have hbounds : 48 ≤ c.toNat ∧ c.toNat ≤ 57 := by
    simpa [Char.isDigit, UInt32.le_iff_toNat_le] using h
  exact ⟨Nat.mod_eq_of_lt (by omega), hbounds⟩

private theorem isDigit_of_mem {n : Nat} {c : Char} (h : c ∈ Nat.toDigits 10 n) : c.isDigit :=
  Nat.isDigit_of_mem_toDigits (by norm_num) (by norm_num) h

private theorem isDigits_ofNat (n : Nat) : IsDigits (ofNat n) := by
  refine ⟨by simp [ofNat, Nat.toDigits_ne_nil], fun d hd ↦ ?_⟩
  obtain ⟨c, hc, rfl⟩ := List.mem_map.mp hd
  obtain ⟨heq, hbounds⟩ := toNat_ascii_digit (isDigit_of_mem hc)
  simp only [Decimal.isDigit, UInt8.le_iff_toNat_le, heq, Bool.and_eq_true, decide_eq_true_eq]
  exact hbounds

private theorem length_ofNat_le_iff {n k : Nat} (hk : 0 < k) :
    (ofNat n).length ≤ k ↔ n < 10 ^ k := by
  rw [ofNat, List.length_map, Nat.length_toDigits_le_iff (by norm_num) hk]

end Bytes

namespace Decimal

private theorem foldl_digits (n : Nat) (ds : Bytes) :
    ds.foldl (fun n b ↦ 10 * n + (b.toNat - 48)) n = n * 10 ^ ds.length + natOfDigits ds := by
  unfold natOfDigits
  induction ds generalizing n with
  | nil => simp
  | cons d ds ih =>
    rw [List.foldl_cons, List.foldl_cons, ih, ih (10 * 0 + _), List.length_cons]
    ring

/-- More digits shift those before them. -/
theorem natOfDigits_append (ds fs : Bytes) :
    natOfDigits (ds ++ fs) = natOfDigits ds * 10 ^ fs.length + natOfDigits fs := by
  rw [natOfDigits, List.foldl_append, foldl_digits]
  rfl

/-- The digits of a natural number write it. -/
theorem natOfDigits_ofNat (n : Nat) : natOfDigits (Bytes.ofNat n) = n := by
  have hvalue : Nat.ofDigitChars 10 (Nat.toDigits 10 n) 0 = n := Nat.ofDigitChars_ten_toDigits
  rw [Nat.ofDigitChars_eq_foldl] at hvalue
  rw [natOfDigits, Bytes.ofNat, List.foldl_map]
  refine (List.foldl_ext _ _ _ fun k c hc ↦ ?_).trans hvalue
  rw [(Bytes.toNat_ascii_digit (Bytes.isDigit_of_mem hc)).1]
  rfl

private theorem natOfDigits_replicate_zero (k : Nat) : natOfDigits (List.replicate k 48) = 0 := by
  have hzero : natOfDigits [48] = 0 := rfl
  induction k with
  | zero => rfl
  | succ k ih =>
    rw [List.replicate_succ, ← List.singleton_append, natOfDigits_append, ih, hzero, Nat.zero_mul]

private theorem isDigit_of_mem_replicate {k : Nat} {b : UInt8} (h : b ∈ List.replicate k 48) :
    isDigit b := by
  rw [List.eq_of_mem_replicate h]
  rfl

private theorem isDigits_padded (width n : Nat) : IsDigits (padded width n) := by
  obtain ⟨hne, hdigits⟩ := Bytes.isDigits_ofNat n
  refine ⟨List.append_ne_nil_of_right_ne_nil _ hne, fun d hd ↦ ?_⟩
  rcases List.mem_append.mp hd with hzero | hd
  · exact isDigit_of_mem_replicate hzero
  · exact hdigits d hd

private theorem natOfDigits_padded (width n : Nat) : natOfDigits (padded width n) = n := by
  rw [padded, natOfDigits_append, natOfDigits_replicate_zero, natOfDigits_ofNat, Nat.zero_mul,
    Nat.zero_add]

private theorem length_padded {width n : Nat} (hwidth : 0 < width) (hn : n < 10 ^ width) :
    (padded width n).length = width := by
  have hle := (Bytes.length_ofNat_le_iff hwidth).mpr hn
  rw [padded, List.length_append, List.length_replicate]
  omega

/-! ## Texts without an exponent -/

private theorem ofText_integer {ds : Bytes} (hds : ∀ d ∈ ds, isDigit d) :
    ofText ds = ⟨natOfDigits ds, 0⟩ := by
  have hwhole : ds.takeWhile isDigit = ds := List.takeWhile_eq_self_iff.mpr hds
  have hrest : ds.dropWhile isDigit = [] := List.dropWhile_eq_nil_iff.mpr hds
  unfold ofText
  dsimp only
  rw [hwhole, hrest, List.drop_nil, List.append_nil]
  rfl

private theorem ofText_fraction {ds : Bytes} (hds : ∀ d ∈ ds, isDigit d) (fs : Bytes) :
    ofText (ds ++ Bytes.ascii '.' :: fs) = ⟨natOfDigits (ds ++ fs), -(fs.length : Int)⟩ := by
  have hwhole : (ds ++ Bytes.ascii '.' :: fs).takeWhile isDigit = ds := by
    rw [List.takeWhile_append_of_pos hds]
    exact List.append_nil ds
  have hrest : (ds ++ Bytes.ascii '.' :: fs).dropWhile isDigit = Bytes.ascii '.' :: fs := by
    rw [List.dropWhile_append_of_pos hds]
    rfl
  unfold ofText
  dsimp only
  rw [hwhole, hrest]
  rfl

/-- A number token of one value. -/
def Writes (w : Bytes) (v : ℚ) : Prop :=
  Lexeme .number w (.number (Segment.numberValue w)) ∧ (ofText w).value = v

private theorem writes_integer {ds : Bytes} (hds : IsDigits ds) : Writes ds (natOfDigits ds) := by
  refine ⟨.integer hds, ?_⟩
  rw [ofText_integer hds.2]
  simp [value]

private theorem writes_fraction {ds fs : Bytes} (hds : IsDigits ds) (hfs : IsDigits fs) :
    Writes (ds ++ Bytes.ascii '.' :: fs) (natOfDigits (ds ++ fs) / 10 ^ fs.length) := by
  refine ⟨.fraction hds hfs, ?_⟩
  rw [ofText_fraction hds.2]
  simp [value, div_eq_mul_inv]

private theorem positional_negSucc (c e : Nat) :
    positional ⟨c, .negSucc e⟩ =
      Bytes.ofNat (c / 10 ^ (e + 1)) ++ Bytes.ascii '.' :: padded (e + 1) (c % 10 ^ (e + 1)) := by
  simp [positional]

/-- A decimal without an exponent is a number token of its value. -/
theorem writes_positional (d : Decimal) : Writes d.positional d.value := by
  obtain ⟨c, e⟩ := d
  cases e with
  | ofNat e =>
    have hds : IsDigits (Bytes.ofNat c ++ List.replicate e 48) := by
      refine ⟨List.append_ne_nil_of_left_ne_nil (Bytes.isDigits_ofNat c).1 _, fun d hd ↦ ?_⟩
      rcases List.mem_append.mp hd with hd | hzero
      · exact (Bytes.isDigits_ofNat c).2 d hd
      · exact isDigit_of_mem_replicate hzero
    have hvalue : (natOfDigits (Bytes.ofNat c ++ List.replicate e 48) : ℚ) =
        value ⟨c, .ofNat e⟩ := by
      rw [natOfDigits_append, natOfDigits_ofNat, natOfDigits_replicate_zero, List.length_replicate]
      simp [value]
    exact hvalue ▸ writes_integer hds
  | negSucc e =>
    have hlength : (padded (e + 1) (c % 10 ^ (e + 1))).length = e + 1 :=
      length_padded (Nat.succ_pos e) (Nat.mod_lt c (Nat.pow_pos (by norm_num)))
    have hdigits : natOfDigits (Bytes.ofNat (c / 10 ^ (e + 1)) ++
        padded (e + 1) (c % 10 ^ (e + 1))) = c := by
      rw [natOfDigits_append, natOfDigits_ofNat, natOfDigits_padded, hlength]
      exact Nat.div_add_mod' c _
    have hfraction := writes_fraction (Bytes.isDigits_ofNat (c / 10 ^ (e + 1)))
      (isDigits_padded (e + 1) (c % 10 ^ (e + 1)))
    rw [hdigits, hlength] at hfraction
    have hvalue : (c : ℚ) / 10 ^ (e + 1) = value ⟨c, .negSucc e⟩ := by
      simp [value, zpow_negSucc, div_eq_mul_inv]
    rw [← hvalue, positional_negSucc]
    exact hfraction

end Decimal

namespace Number

/-- A number token of the absolute value of `x`. -/
def WritesMagnitude (w : Bytes) (x : Number) : Prop :=
  Lexeme .number w (.number (Segment.numberValue w)) ∧
    (Decimal.ofText w).toNumber? = some (ofMagnitude false x.magnitude)

variable {x : Number}

private theorem writesMagnitude_shortest (hx : x.isFinite) :
    WritesMagnitude (Decimal.shortest x).positional x := by
  obtain ⟨hlexeme, hvalue⟩ := Decimal.writes_positional (Decimal.shortest x)
  exact ⟨hlexeme, (Decimal.toNumber?_eq_of_value_eq hvalue).trans (Decimal.toNumber?_shortest hx)⟩

private theorem writesMagnitude_integral (hx : x.isIntegral) :
    WritesMagnitude (Bytes.ofNat (x.units / unitsPerOne) ++ Bytes.ofString ".0") x := by
  obtain ⟨hfinite, n, hn⟩ : x.isFinite ∧ unitsPerOne ∣ x.units := by
    simpa [isIntegral, Nat.dvd_iff_mod_eq_zero] using hx
  have hquotient : x.units / unitsPerOne = n := by
    rw [hn, Nat.mul_div_cancel_left n unitsPerOne_pos]
  have hzero : IsDigits [48] := ⟨List.cons_ne_nil _ _, List.forall_mem_singleton.mpr rfl⟩
  have hdigits : Decimal.natOfDigits (Bytes.ofNat n ++ [48]) = n * 10 := by
    rw [Decimal.natOfDigits_append, Decimal.natOfDigits_ofNat]
    rfl
  obtain ⟨hlexeme, hvalue⟩ := Decimal.writes_fraction (Bytes.isDigits_ofNat n) hzero
  rw [hquotient]
  refine ⟨hlexeme, ?_⟩
  rw [← ofRatio?_units hfinite]
  refine Decimal.toNumber?_eq_ofRatio? unitsPerOne_pos (hvalue.trans ?_)
  have hpos : (unitsPerOne : ℚ) ≠ 0 := by exact_mod_cast unitsPerOne_pos.ne'
  rw [hdigits, hn]
  push_cast
  field_simp
  rfl

/-- The text of a finite literal is a number token behind its sign. -/
theorem exists_literalText (hx : x.isFinite) :
    ∃ w, x.literalText = x.signText ++ w ∧ WritesMagnitude w x := by
  by_cases hform : x.isIntegral && x.isBelow positionalLimit
  · refine ⟨_, ?_, writesMagnitude_integral (Bool.and_eq_true_iff.mp hform).1⟩
    simp [literalText, hx, hform]
  · refine ⟨_, ?_, writesMagnitude_shortest hx⟩
    simp [literalText, hx, hform]

/-- The text of a value below the positional limit is a number token behind its sign. -/
theorem exists_display (hx : x.isBelow positionalLimit) :
    ∃ w, x.display = x.signText ++ w ∧ WritesMagnitude w x := by
  have hfinite : x.isFinite := (Bool.and_eq_true_iff.mp hx).1
  refine ⟨_, ?_, writesMagnitude_shortest hfinite⟩
  simp [display, hfinite, hx]

/-- The literal text of a number that was read is a number token of this number again. -/
theorem lexeme_literalText {d : Decimal} (hx : d.toNumber? = some x) :
    Lexeme .number x.literalText (.number x) := by
  obtain ⟨hfinite, hsign⟩ := of_ofRatio?_eq_some hx
  obtain ⟨w, htext, hlexeme, hread⟩ := exists_literalText hfinite
  have hvalue : Segment.numberValue w = x := by
    rw [Segment.numberValue, hread]
    exact ofMagnitude_magnitude hsign
  have hunsigned : x.literalText = w := by
    rw [htext, signText, if_neg (by rw [hsign]; decide), List.nil_append]
  rw [hvalue] at hlexeme
  rwa [hunsigned]

end Number
end Lox
