import Lox.Text.Utf8
import Mathlib.Tactic.Common

/-!
# Characters at the front of byte strings

Reading a character finds the encoding of a Unicode character whenever one stands at the front of a
byte string, and a single byte otherwise (`Utf8.decode_cases`).
-/

namespace Lox.Utf8

variable {b c d e : UInt8} {t rest : Bytes}

private theorem isContinuation_iff : isContinuation b ↔ 0x80 ≤ b.toNat ∧ b.toNat ≤ 0xBF := by
  simp [isContinuation, UInt8.le_iff_toNat_le]

/-! ## Reading encodings of each length -/

private theorem decode_one (hb : b.toNat < 0x80) : decode b rest = ⟨b.toNat, 1⟩ := by
  rw [decode.eq_def]
  simp [UInt8.lt_iff_toNat_lt, hb]

private theorem decode_two (hlow : 0xC2 ≤ b.toNat) (hhigh : b.toNat < 0xE0)
    (hc : isContinuation c) :
    decode b (c :: rest) = ⟨(b.toNat - 0xC0) * 64 + payload c, 2⟩ := by
  rw [decode.eq_def]
  simp only [UInt8.lt_iff_toNat_lt, hc, if_true]
  rw [if_neg (by simp; omega), if_neg (by simp; omega), if_pos (by simpa using hhigh)]

private theorem decode_three (hlow : 0xE0 ≤ b.toNat) (hhigh : b.toNat < 0xF0)
    (hc : isContinuation c) (hshort : b.toNat = 0xE0 → 0xA0 ≤ c.toNat)
    (hsurrogate : b.toNat = 0xED → c.toNat ≤ 0x9F) (hd : isContinuation d) :
    decode b (c :: d :: rest) =
      ⟨((b.toNat - 0xE0) * 64 + payload c) * 64 + payload d, 3⟩ := by
  rw [isContinuation_iff] at hc
  have hin : ((if b = 0xE0 then (0xA0 : UInt8) else 0x80) ≤ c &&
      c ≤ (if b = 0xED then (0x9F : UInt8) else 0xBF) && isContinuation d) = true := by
    simp only [UInt8.le_iff_toNat_le, ← UInt8.toNat_inj, hd, Bool.and_true, Bool.and_eq_true,
      decide_eq_true_eq]
    constructor
    · split_ifs with hb
      · exact hshort hb
      · exact hc.1
    · split_ifs with hb
      · exact hsurrogate hb
      · exact hc.2
  rw [decode.eq_def]
  simp only [UInt8.lt_iff_toNat_lt]
  rw [if_neg (by simp; omega), if_neg (by simp; omega), if_neg (by simp; omega),
    if_pos (by simpa using hhigh), if_pos hin]

private theorem decode_four (hlow : 0xF0 ≤ b.toNat) (hhigh : b.toNat < 0xF5)
    (hc : isContinuation c) (hshort : b.toNat = 0xF0 → 0x90 ≤ c.toNat)
    (hlarge : b.toNat = 0xF4 → c.toNat ≤ 0x8F) (hd : isContinuation d) (he : isContinuation e) :
    decode b (c :: d :: e :: rest) =
      ⟨(((b.toNat - 0xF0) * 64 + payload c) * 64 + payload d) * 64 + payload e, 4⟩ := by
  rw [isContinuation_iff] at hc
  have hin : ((if b = 0xF0 then (0x90 : UInt8) else 0x80) ≤ c &&
      c ≤ (if b = 0xF4 then (0x8F : UInt8) else 0xBF) && isContinuation d &&
        isContinuation e) = true := by
    simp only [UInt8.le_iff_toNat_le, ← UInt8.toNat_inj, hd, he, Bool.and_true, Bool.and_eq_true,
      decide_eq_true_eq]
    constructor
    · split_ifs with hb
      · exact hshort hb
      · exact hc.1
    · split_ifs with hb
      · exact hlarge hb
      · exact hc.2
  rw [decode.eq_def]
  simp only [UInt8.lt_iff_toNat_lt]
  rw [if_neg (by simp; omega), if_neg (by simp; omega), if_neg (by simp; omega),
    if_neg (by simp; omega), if_pos (by simpa using hhigh), if_pos hin]

/-! ## Characters -/

private theorem toNat_ofNat {n : Nat} (h : n < 256) : (UInt8.ofNat n).toNat = n := by
  rw [UInt8.toNat_ofNat', Nat.mod_eq_of_lt h]

private theorem isContinuation_ofNat (n : Nat) : isContinuation (UInt8.ofNat (n % 64 + 128)) := by
  have hbounds : 0x80 ≤ n % 64 + 128 ∧ n % 64 + 128 ≤ 0xBF := by omega
  rwa [isContinuation_iff, toNat_ofNat (by omega)]

private theorem payload_ofNat (n : Nat) : payload (UInt8.ofNat (n % 64 + 128)) = n % 64 := by
  have hn := toNat_ofNat (n := n % 64 + 128) (by omega)
  unfold payload
  omega

/-- The encoding of a character is read as this character, whatever follows. -/
theorem decode_of_eq_cons {x : Char} (h : String.utf8EncodeChar x = b :: t) (rest : Bytes) :
    decode b (t ++ rest) = ⟨x.toNat, t.length + 1⟩ := by
  have hvalid : x.toNat < 0xD800 ∨ 0xDFFF < x.toNat ∧ x.toNat < 0x110000 := x.valid
  unfold String.utf8EncodeChar at h
  dsimp only at h
  rw [show x.val.toNat = x.toNat from rfl] at h
  generalize x.toNat = v at h hvalid
  split_ifs at h with h₁ h₂ h₃
  · obtain ⟨rfl, rfl⟩ := List.cons.inj h
    have hb := toNat_ofNat (n := v) (by omega)
    rw [decode_one (by omega), hb]
    rfl
  · obtain ⟨rfl, rfl⟩ := List.cons.inj h
    have hb := toNat_ofNat (n := v / 64 % 32 + 192) (by omega)
    rw [List.singleton_append, decode_two (by omega) (by omega) (isContinuation_ofNat v), hb,
      payload_ofNat, Decoded.mk.injEq]
    exact ⟨by omega, rfl⟩
  · obtain ⟨rfl, rfl⟩ := List.cons.inj h
    have hb := toNat_ofNat (n := v / 4096 % 16 + 224) (by omega)
    have hc := toNat_ofNat (n := v / 64 % 64 + 128) (by omega)
    rw [List.cons_append, List.singleton_append,
      decode_three (by omega) (by omega) (isContinuation_ofNat (v / 64)) (by omega) (by omega)
        (isContinuation_ofNat v), hb, payload_ofNat, payload_ofNat, Decoded.mk.injEq]
    exact ⟨by omega, rfl⟩
  · obtain ⟨rfl, rfl⟩ := List.cons.inj h
    have hb := toNat_ofNat (n := v / 262144 % 8 + 240) (by omega)
    have hc := toNat_ofNat (n := v / 4096 % 64 + 128) (by omega)
    rw [List.cons_append, List.cons_append, List.singleton_append,
      decode_four (by omega) (by omega) (isContinuation_ofNat (v / 4096)) (by omega) (by omega)
        (isContinuation_ofNat (v / 64)) (isContinuation_ofNat v), hb, payload_ofNat, payload_ofNat,
      payload_ofNat, Decoded.mk.injEq]
    exact ⟨by omega, rfl⟩

/-- No encoding is at the front of what is read as a single byte. -/
theorem not_prefix_of_invalid (h : decode b rest = .invalid) (x : Char) :
    ¬ String.utf8EncodeChar x <+: b :: rest := by
  rintro ⟨after, hafter⟩
  obtain ⟨b', t, ht⟩ := List.exists_cons_of_ne_nil (String.utf8EncodeChar_ne_nil (c := x))
  rw [ht, List.cons_append, List.cons.injEq] at hafter
  obtain ⟨rfl, rfl⟩ := hafter
  have hread := decode_of_eq_cons ht after
  rw [h, Decoded.invalid, Decoded.mk.injEq] at hread
  -- the replacement character itself takes three bytes
  have hlength := String.length_utf8EncodeChar x
  rw [ht, List.length_cons, ← hread.2] at hlength
  have hone := Char.utf8Size_eq_one_iff.mp hlength.symm
  have hcode : x.val.toNat = replacement := hread.1.symm
  rw [UInt32.le_iff_toNat_le, hcode] at hone
  exact absurd hone (by decide)

private theorem exists_char {v : Nat} (h : v < 0xD800 ∨ 0xDFFF < v ∧ v < 0x110000) :
    ∃ x : Char, x.toNat = v := ⟨.ofNatAux v h, rfl⟩

private theorem ofNat_eq {n : Nat} (h : n = b.toNat) : UInt8.ofNat n = b := by
  rw [h, UInt8.ofNat_toNat]

private theorem exists_encoding_one (hb : b.toNat < 0x80) :
    ∃ x : Char, x.toNat = b.toNat ∧ String.utf8EncodeChar x = [b] := by
  obtain ⟨x, hx⟩ := exists_char (v := b.toNat) (by omega)
  refine ⟨x, hx, ?_⟩
  have hval : x.val.toNat = b.toNat := hx
  unfold String.utf8EncodeChar
  dsimp only
  rw [hval, if_pos (by omega), UInt8.ofNat_toNat]

private theorem exists_encoding_two (hlow : 0xC2 ≤ b.toNat) (hhigh : b.toNat < 0xE0)
    (hc : isContinuation c) :
    ∃ x : Char, x.toNat = (b.toNat - 0xC0) * 64 + payload c ∧ String.utf8EncodeChar x = [b, c] := by
  rw [isContinuation_iff] at hc
  unfold payload
  obtain ⟨x, hx⟩ := exists_char (v := (b.toNat - 0xC0) * 64 + (c.toNat - 0x80)) (by omega)
  refine ⟨x, hx, ?_⟩
  have hval : x.val.toNat = (b.toNat - 0xC0) * 64 + (c.toNat - 0x80) := hx
  unfold String.utf8EncodeChar
  dsimp only
  rw [hval, if_neg (by omega), if_pos (by omega), ofNat_eq (b := b) (by omega),
    ofNat_eq (b := c) (by omega)]

private theorem exists_encoding_three (hlow : 0xE0 ≤ b.toNat) (hhigh : b.toNat < 0xF0)
    (hc : isContinuation c) (hshort : b.toNat = 0xE0 → 0xA0 ≤ c.toNat)
    (hsurrogate : b.toNat = 0xED → c.toNat ≤ 0x9F) (hd : isContinuation d) :
    ∃ x : Char, x.toNat = ((b.toNat - 0xE0) * 64 + payload c) * 64 + payload d ∧
      String.utf8EncodeChar x = [b, c, d] := by
  rw [isContinuation_iff] at hc hd
  unfold payload
  obtain ⟨x, hx⟩ := exists_char
    (v := ((b.toNat - 0xE0) * 64 + (c.toNat - 0x80)) * 64 + (d.toNat - 0x80)) (by omega)
  refine ⟨x, hx, ?_⟩
  have hval : x.val.toNat =
      ((b.toNat - 0xE0) * 64 + (c.toNat - 0x80)) * 64 + (d.toNat - 0x80) := hx
  unfold String.utf8EncodeChar
  dsimp only
  rw [hval, if_neg (by omega), if_neg (by omega), if_pos (by omega),
    ofNat_eq (b := b) (by omega), ofNat_eq (b := c) (by omega), ofNat_eq (b := d) (by omega)]

private theorem exists_encoding_four (hlow : 0xF0 ≤ b.toNat) (hhigh : b.toNat < 0xF5)
    (hc : isContinuation c) (hshort : b.toNat = 0xF0 → 0x90 ≤ c.toNat)
    (hlarge : b.toNat = 0xF4 → c.toNat ≤ 0x8F) (hd : isContinuation d) (he : isContinuation e) :
    ∃ x : Char,
      x.toNat = (((b.toNat - 0xF0) * 64 + payload c) * 64 + payload d) * 64 + payload e ∧
        String.utf8EncodeChar x = [b, c, d, e] := by
  rw [isContinuation_iff] at hc hd he
  unfold payload
  obtain ⟨x, hx⟩ := exists_char
    (v := (((b.toNat - 0xF0) * 64 + (c.toNat - 0x80)) * 64 + (d.toNat - 0x80)) * 64 +
      (e.toNat - 0x80)) (by omega)
  refine ⟨x, hx, ?_⟩
  have hval : x.val.toNat =
      (((b.toNat - 0xF0) * 64 + (c.toNat - 0x80)) * 64 + (d.toNat - 0x80)) * 64 +
        (e.toNat - 0x80) := hx
  unfold String.utf8EncodeChar
  dsimp only
  rw [hval, if_neg (by omega), if_neg (by omega), if_neg (by omega),
    ofNat_eq (b := b) (by omega), ofNat_eq (b := c) (by omega), ofNat_eq (b := d) (by omega),
    ofNat_eq (b := e) (by omega)]

private theorem exists_read {v : Nat} {w : Bytes}
    (hx : ∃ x : Char, x.toNat = v ∧ String.utf8EncodeChar x = w) (hw : w <+: b :: rest)
    (hread : decode b rest = ⟨v, w.length⟩) :
    ∃ x : Char, String.utf8EncodeChar x <+: b :: rest ∧
      decode b rest = ⟨x.toNat, (String.utf8EncodeChar x).length⟩ := by
  obtain ⟨x, rfl, rfl⟩ := hx
  exact ⟨x, hw, hread⟩

/-- What is not read as a single byte is read as the character whose encoding is at the front. -/
theorem exists_of_decode_ne (h : decode b rest ≠ .invalid) :
    ∃ x : Char, String.utf8EncodeChar x <+: b :: rest ∧
      decode b rest = ⟨x.toNat, (String.utf8EncodeChar x).length⟩ := by
  rw [decode.eq_def] at h
  simp only [UInt8.lt_iff_toNat_lt, UInt8.le_iff_toNat_le, ← UInt8.toNat_inj] at h
  split at h
  · next hb => exact exists_read (exists_encoding_one hb) ⟨rest, rfl⟩ (decode_one hb)
  split at h
  · exact absurd rfl h
  next hlow =>
  replace hlow : 0xC2 ≤ b.toNat := Nat.le_of_not_lt hlow
  split at h
  · next hhigh =>
    split at h
    · split at h
      · next hc =>
        exact exists_read (exists_encoding_two hlow hhigh hc) ⟨_, rfl⟩ (decode_two hlow hhigh hc)
      · exact absurd rfl h
    · exact absurd rfl h
  next hlow =>
  replace hlow : 0xE0 ≤ b.toNat := Nat.le_of_not_lt hlow
  split at h
  · next hhigh =>
    split at h
    · next c d rest =>
      have hin := (ite_ne_right_iff.mp h).1
      simp only [Bool.and_eq_true, decide_eq_true_eq] at hin
      obtain ⟨⟨hc₁, hc₂⟩, hd⟩ := hin
      have hc : isContinuation c := by
        rw [isContinuation_iff]
        split_ifs at hc₁ hc₂ <;> simp at hc₁ hc₂ <;> omega
      have hshort : b.toNat = 0xE0 → 0xA0 ≤ c.toNat := fun hb ↦ by
        simpa [hb] using hc₁
      have hsurrogate : b.toNat = 0xED → c.toNat ≤ 0x9F := fun hb ↦ by
        simpa [hb] using hc₂
      exact exists_read (exists_encoding_three hlow hhigh hc hshort hsurrogate hd) ⟨_, rfl⟩
        (decode_three hlow hhigh hc hshort hsurrogate hd)
    · exact absurd rfl h
  next hlow =>
  replace hlow : 0xF0 ≤ b.toNat := Nat.le_of_not_lt hlow
  split at h
  · next hhigh =>
    split at h
    · next c d e rest =>
      have hin := (ite_ne_right_iff.mp h).1
      simp only [Bool.and_eq_true, decide_eq_true_eq] at hin
      obtain ⟨⟨⟨hc₁, hc₂⟩, hd⟩, he⟩ := hin
      have hc : isContinuation c := by
        rw [isContinuation_iff]
        split_ifs at hc₁ hc₂ <;> simp at hc₁ hc₂ <;> omega
      have hshort : b.toNat = 0xF0 → 0x90 ≤ c.toNat := fun hb ↦ by
        simpa [hb] using hc₁
      have hlarge : b.toNat = 0xF4 → c.toNat ≤ 0x8F := fun hb ↦ by
        simpa [hb] using hc₂
      exact exists_read (exists_encoding_four hlow hhigh hc hshort hlarge hd he) ⟨_, rfl⟩
        (decode_four hlow hhigh hc hshort hlarge hd he)
    · exact absurd rfl h
  · exact absurd rfl h

/-- What is at the front of a byte string: the encoding of a character, which is read as this
character, or else a byte that is read on its own. -/
theorem decode_cases (b : UInt8) (rest : Bytes) :
    (∃ x : Char, String.utf8EncodeChar x <+: b :: rest ∧
      decode b rest = ⟨x.toNat, (String.utf8EncodeChar x).length⟩) ∨
    decode b rest = .invalid ∧ ∀ x : Char, ¬ String.utf8EncodeChar x <+: b :: rest := by
  by_cases h : decode b rest = .invalid
  · exact .inr ⟨h, not_prefix_of_invalid h⟩
  · exact .inl (exists_of_decode_ne h)

/-- The bytes of a character are its encoding. -/
theorem encode_toNat (x : Char) : encode x.toNat = String.utf8EncodeChar x := by
  have hvalid : x.toNat < 0xD800 ∨ 0xDFFF < x.toNat ∧ x.toNat < 0x110000 := x.valid
  unfold String.utf8EncodeChar encode
  dsimp only
  rw [show x.val.toNat = x.toNat from rfl]
  generalize x.toNat = v at hvalid ⊢
  by_cases h₁ : v ≤ 127
  · rw [if_pos (by omega), if_pos h₁]
  rw [if_neg (by omega), if_neg h₁]
  by_cases h₂ : v ≤ 2047
  · rw [if_pos (by omega), if_pos h₂, Nat.mod_eq_of_lt (b := 32) (by omega), Nat.add_comm,
      Nat.add_comm 0x80]
  rw [if_neg (by omega), if_neg h₂, if_neg (by omega)]
  by_cases h₃ : v ≤ 65535
  · rw [if_pos (by omega), if_pos h₃, Nat.mod_eq_of_lt (b := 16) (by omega), Nat.add_comm,
      Nat.add_comm 0x80, Nat.add_comm 0x80]
  · rw [if_neg (by omega), if_neg h₃, Nat.mod_eq_of_lt (b := 8) (by omega), Nat.add_comm,
      Nat.add_comm 0x80, Nat.add_comm 0x80, Nat.add_comm 0x80]

end Lox.Utf8
