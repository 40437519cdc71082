import Lox.Proofs.Token.Respell

/-!
# The lexical grammar

The source texts of tokens, said without a scanner: operators and reserved words are listed, and
names, strings and numbers are described. A scanner takes the longest of them (`Longest`). Texts
that begin alike are of one sort: what begins with a quote is a string, what begins with a digit a
number, and so on, so that the first byte tells how far a token can go.
-/

namespace Lox

/-- The operators and punctuation marks, each with the kind of its token. -/
def Kind.operators : List (Bytes × Kind) :=
  [("(", Kind.leftParen), (")", .rightParen), ("\x7b", .leftBrace), ("\x7d", .rightBrace),
    (",", .comma), (".", .dot), ("-", .minus), ("+", .plus), (";", .semicolon), ("/", .slash),
    ("*", .star), ("!", .bang), ("!=", .bangEqual), ("=", .equal), ("==", .equalEqual),
    (">", .greater), (">=", .greaterEqual), ("<", .less), ("<=", .lessEqual)].map
    fun (text, k) ↦ (Bytes.ofString text, k)

/-- One or more decimal digits. -/
def IsDigits (ds : Bytes) : Prop := ds ≠ [] ∧ ∀ d ∈ ds, Decimal.isDigit d

/-- The source texts of tokens, each with the kind and the literal of its token. -/
inductive Lexeme : Kind → Bytes → Literal → Prop where
  | operator {k : Kind} {w : Bytes} (h : (w, k) ∈ Kind.operators) : Lexeme k w .nil
  | keyword {k : Kind} {w : Bytes} (h : (w, k) ∈ Kind.keywords) : Lexeme k w .nil
  /-- A word that is not reserved. -/
  | identifier {w : Bytes} (hw : Segment.IsWord w) (hfree : ∀ k, (w, k) ∉ Kind.keywords) :
    Lexeme .identifier w .nil
  | string {s : Bytes} (hs : Segment.quote ∉ s) :
    Lexeme .string (Segment.quote :: (s ++ [Segment.quote])) (.text s)
  | integer {ds : Bytes} (hds : IsDigits ds) : Lexeme .number ds (.number (Segment.numberValue ds))
  | fraction {ds fs : Bytes} (hds : IsDigits ds) (hfs : IsDigits fs) :
    Lexeme .number (ds ++ Bytes.ascii '.' :: fs)
      (.number (Segment.numberValue (ds ++ Bytes.ascii '.' :: fs)))

/-- At the front of `w ++ rest`, the text of a token is `w` and no longer one. -/
structure Longest (k : Kind) (w : Bytes) (v : Literal) (rest : Bytes) : Prop where
  lexeme : Lexeme k w v
  length_le : ∀ k' w' v', Lexeme k' w' v' → w' <+: w ++ rest → w'.length ≤ w.length

namespace Lexeme

open Segment

/-! ## Tables -/

private theorem ascii_ofUInt8 (b : UInt8) : Bytes.ascii (Char.ofUInt8 b) = b :=
  UInt8.ofNat_toNat

/-- Every operator of one byte is in the list. -/
theorem mem_operators_of_operator? {b : UInt8} {k : Kind} (h : operator? b = some k) :
    ([b], k) ∈ Kind.operators := by
  unfold operator? at h
  split at h
  case h_16 => cases h
  all_goals
    rename_i hc
    rw [← ascii_ofUInt8 b, hc]
    cases h
    decide

/-- Every operator with an equals sign behind it is in the list. -/
theorem mem_operators_of_withEqual? {b : UInt8} {k k' : Kind} (h : operator? b = some k)
    (h' : withEqual? k = some k') : ([b, Bytes.ascii '='], k') ∈ Kind.operators := by
  unfold operator? at h
  split at h
  case h_16 => cases h
  all_goals
    rename_i hc
    rw [← ascii_ofUInt8 b, hc]
    cases h
    cases h'
  all_goals decide

-- An operator is one byte, or one byte and an equals sign.
private def isOperator : Bytes → Bool
  | [b] => (operator? b).isSome
  | [b, c] => c == Bytes.ascii '=' && ((operator? b).bind withEqual?).isSome
  | _ => false

private theorem isOperator_of_mem : ∀ p ∈ Kind.operators, isOperator p.1 := by decide

/-- Reserved words are words. -/
theorem isWord_of_mem_keywords : ∀ p ∈ Kind.keywords, IsWord p.1 := by decide

/-- A word that is looked up is in the list. -/
theorem mem_keywords_of_lookup {w : Bytes} {k : Kind} (h : Kind.keywords.lookup w = some k) :
    (w, k) ∈ Kind.keywords := by
  obtain ⟨l₁, l₂, heq, -⟩ := List.lookup_eq_some_iff.mp h
  rw [heq]
  simp

/-- A word is a token, of the kind of a reserved word or of a name. -/
theorem of_isWord {w : Bytes} (hw : IsWord w) : Lexeme (Kind.ofWord w) w .nil := by
  unfold Kind.ofWord
  cases h : Kind.keywords.lookup w with
  | some k => exact .keyword (mem_keywords_of_lookup h)
  | none =>
    refine .identifier hw fun k hk ↦ ?_
    have hne := List.lookup_eq_none_iff.mp h (w, k) hk
    simp at hne

-- What begins an operator begins nothing else.
private theorem operator_first {b : UInt8} {k : Kind} (h : operator? b = some k) :
    isBlank b = false ∧ (b == quote) = false ∧ Decimal.isDigit b = false ∧
      isWordStart b = false := by
  unfold operator? at h
  split at h
  case h_16 => cases h
  all_goals
    rename_i hc
    rw [← ascii_ofUInt8 b, hc]
    decide

/-! ## Sorts of tokens -/

/-- The sorts of tokens, by their first byte. -/
inductive Shape : UInt8 → Bytes → Prop where
  | operator {b : UInt8} {k : Kind} (hb : operator? b = some k) : Shape b []
  | withEqual {b : UInt8} {k k' : Kind} (hb : operator? b = some k) (hk : withEqual? k = some k') :
    Shape b [Bytes.ascii '=']
  | word {b : UInt8} {t : Bytes} (hb : isWordStart b) (ht : ∀ c ∈ t, isWordPart c) : Shape b t
  | string {s : Bytes} (hs : quote ∉ s) : Shape quote (s ++ [quote])
  | integer {b : UInt8} {ds : Bytes} (hb : Decimal.isDigit b) (hds : ∀ d ∈ ds, Decimal.isDigit d) :
    Shape b ds
  | fraction {b : UInt8} {ds fs : Bytes} (hb : Decimal.isDigit b)
    (hds : ∀ d ∈ ds, Decimal.isDigit d) (hfs : IsDigits fs) : Shape b (ds ++ Bytes.ascii '.' :: fs)

private theorem shape_of_isOperator {w : Bytes} (h : isOperator w) :
    ∃ b t, w = b :: t ∧ Shape b t := by
  unfold isOperator at h
  split at h
  · rename_i b
    obtain ⟨k, hk⟩ := Option.isSome_iff_exists.mp h
    exact ⟨b, [], rfl, .operator hk⟩
  · rename_i b c
    rw [Bool.and_eq_true, beq_iff_eq] at h
    obtain ⟨rfl, h⟩ := h
    obtain ⟨k', hk'⟩ := Option.isSome_iff_exists.mp h
    obtain ⟨k, hk, hequal⟩ := Option.bind_eq_some_iff.mp hk'
    exact ⟨b, _, rfl, .withEqual hk hequal⟩
  · cases h

private theorem shape_of_isWord {w : Bytes} (h : IsWord w) : ∃ b t, w = b :: t ∧ Shape b t := by
  cases w with
  | nil => exact h.elim
  | cons b t => exact ⟨b, t, rfl, .word h.1 (List.all_eq_true.mp h.2)⟩

/-- The text of a token has a first byte and one of the shapes that begin with it. -/
theorem exists_shape {k : Kind} {w : Bytes} {v : Literal} (h : Lexeme k w v) :
    ∃ b t, w = b :: t ∧ Shape b t := by
  cases h with
  | operator h => exact shape_of_isOperator (isOperator_of_mem _ h)
  | keyword h => exact shape_of_isWord (isWord_of_mem_keywords _ h)
  | identifier hw hfree => exact shape_of_isWord hw
  | string hs => exact ⟨quote, _, rfl, .string hs⟩
  | integer hds =>
    obtain ⟨d, ds, rfl⟩ := List.exists_cons_of_ne_nil hds.1
    obtain ⟨hd, hds⟩ := List.forall_mem_cons.mp hds.2
    exact ⟨d, ds, rfl, .integer hd hds⟩
  | fraction hds hfs =>
    obtain ⟨d, ds, rfl⟩ := List.exists_cons_of_ne_nil hds.1
    obtain ⟨hd, hds⟩ := List.forall_mem_cons.mp hds.2
    exact ⟨d, _, rfl, .fraction hd hds hfs⟩

/-- What is not white space, no quote, no digit, no part of a word and no operator begins no
token. -/
theorem Shape.first {b : UInt8} {t : Bytes} (h : Shape b t) :
    b = quote ∨ Decimal.isDigit b ∨ isWordStart b ∨ (operator? b).isSome := by
  cases h with
  | operator hb => exact .inr (.inr (.inr (hb ▸ rfl)))
  | withEqual hb hk => exact .inr (.inr (.inr (hb ▸ rfl)))
  | word hb ht => exact .inr (.inr (.inl hb))
  | string hs => exact .inl rfl
  | integer hb hds => exact .inr (.inl hb)
  | fraction hb hds hfs => exact .inr (.inl hb)

/-! ## How far a token can go -/

section Extents

variable {p : UInt8 → Bool} {b : UInt8} {k : Kind} {t rest : Bytes}

private theorem le_run (ht : ∀ c ∈ t, p c) (hpre : t <+: rest) : t.length ≤ run p rest := by
  obtain ⟨u, rfl⟩ := hpre
  rw [run, List.takeWhile_append_of_pos ht, List.length_append]
  exact Nat.le_add_right _ _

-- A run ends before a byte that does not belong to it.
private theorem run_eq {c : UInt8} (ht : ∀ d ∈ t, p d) (hc : p c = false)
    (hpre : t ++ [c] <+: rest) :
    run p rest = t.length := by
  obtain ⟨u, rfl⟩ := hpre
  rw [List.append_assoc, List.singleton_append]
  exact run_append_eq_length.mpr ⟨ht, by simpa using hc⟩

/-- A string goes to the next quote, or to the end of the source if there is none. -/
theorem extent_quote (rest : Bytes) :
    extent quote rest = if run (· != quote) rest < rest.length then
      (.quoted, run (· != quote) rest + 1) else (.unclosed, run (· != quote) rest) := rfl

/-- A number goes as far as its digits say. -/
theorem extent_of_isDigit (hb : Decimal.isDigit b) (rest : Bytes) :
    extent b rest = (.number, numberSize rest) := by
  have hblank : isBlank b = false := by
    unfold Decimal.isDigit at hb
    unfold isBlank
    simp [Bytes.ascii, Bytes.newline, UInt8.le_iff_toNat_le, ← UInt8.toNat_inj] at hb ⊢
    omega
  have hquote : (b == quote) = false := by
    unfold Decimal.isDigit at hb
    simp [quote, Bytes.doubleQuote, UInt8.le_iff_toNat_le, ← UInt8.toNat_inj] at hb ⊢
    omega
  simp [extent, hblank, hquote, hb]

/-- After an operator, its kind decides how far it goes. -/
theorem extent_of_operator (hb : operator? b = some k) (rest : Bytes) :
    extent b rest = operatorExtent k rest := by
  obtain ⟨hblank, hquote, hdigit, hword⟩ := operator_first hb
  simp only [extent, hblank, hquote, hdigit, hword, hb, Bool.false_eq_true, if_false]
  rfl

private theorem le_numberSize (ht : ∀ c ∈ t, Decimal.isDigit c) (hpre : t <+: rest) :
    t.length ≤ numberSize rest := by
  have hrun := le_run ht hpre
  rcases numberSize_eq rest with ⟨hsize, -⟩ | ⟨d, rest', -, -, hsize⟩
  all_goals omega

private theorem length_fraction_le {ds fs : Bytes} (hds : ∀ d ∈ ds, Decimal.isDigit d)
    (hfs : IsDigits fs) (hpre : ds ++ Bytes.ascii '.' :: fs <+: rest) :
    (ds ++ Bytes.ascii '.' :: fs).length ≤ numberSize rest := by
  obtain ⟨d, fs, rfl⟩ := List.exists_cons_of_ne_nil hfs.1
  obtain ⟨hd, hfs⟩ := List.forall_mem_cons.mp hfs.2
  obtain ⟨u, rfl⟩ := hpre
  have hrun : run Decimal.isDigit (ds ++ Bytes.ascii '.' :: d :: fs ++ u) = ds.length := by
    rw [List.append_assoc]
    exact run_append_eq_length.mpr ⟨hds, by simp; decide⟩
  have hdrop : (ds ++ Bytes.ascii '.' :: d :: fs ++ u).drop ds.length =
      Bytes.ascii '.' :: d :: (fs ++ u) := by simp
  rcases numberSize_eq (ds ++ Bytes.ascii '.' :: d :: fs ++ u) with
    ⟨-, hpoint⟩ | ⟨d', rest', hdrop', -, hsize⟩
  · rw [hrun, hdrop] at hpoint
    rw [hpoint d rfl rfl] at hd
    cases hd
  · rw [hrun, hdrop] at hdrop'
    obtain ⟨-, rfl⟩ := List.cons.inj (List.cons.inj hdrop').2
    have hfraction := le_run hfs (List.prefix_append fs u)
    rw [hsize, hrun, List.length_append, List.length_cons, List.length_cons]
    omega

/-- A token at the front of a source lies within the first segment. -/
theorem Shape.length_le (h : Shape b t) (hpre : t <+: rest) : t.length ≤ (extent b rest).2 := by
  cases h with
  | operator hb => exact Nat.zero_le _
  | @withEqual _ k k' hb hk =>
    obtain ⟨u, rfl⟩ := hpre
    rw [extent_of_operator hb]
    have hslash : k ≠ .slash := by
      rintro rfl
      cases hk
    simp [operatorExtent, hslash, hk]
  | word hb ht =>
    rw [extent_of_isWordStart hb]
    exact le_run ht hpre
  | @string s hs =>
    have hne : ∀ c ∈ s, (c != quote) = true := fun c hc ↦ bne_iff_ne.mpr fun heq ↦ hs (heq ▸ hc)
    have hrun := run_eq hne (by simp) hpre
    have hlen := hpre.length_le
    rw [List.length_append, List.length_singleton] at hlen ⊢
    have hextent : extent quote rest = (.quoted, s.length + 1) := by
      rw [extent_quote, hrun, if_pos (by omega)]
    exact Nat.le_of_eq (congrArg Prod.snd hextent).symm
  | integer hb hds =>
    rw [extent_of_isDigit hb]
    exact le_numberSize hds hpre
  | fraction hb hds hfs =>
    rw [extent_of_isDigit hb]
    exact length_fraction_le hds hfs hpre

end Extents

end Lexeme
end Lox
