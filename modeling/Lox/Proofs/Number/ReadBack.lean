import Lox.Proofs.Grammar.Yield
import Lox.Proofs.Number.Text
import Lox.Proofs.Token.Spacing
import Lox.Session

/-!
# Printed numbers read back

The text of a finite number is an expression whose value is this number, bit for bit: a number
token, behind a minus sign if the number is negative. This holds for the text of a literal, and for
the text of a value if it has no exponent (`evalSource_numberText`).
-/

namespace Lox

/-! ## A number as a source -/

open Segment

section Sources

variable {w : Bytes} {x : Number}

-- A minus sign makes nothing else with what follows it.
private theorem extent_minus (rest : Bytes) :
    extent (Bytes.ascii '-') rest = (.operator .minus, 0) := by
  rw [Lexeme.extent_of_operator (k := .minus) rfl]
  cases rest with
  | nil => rfl
  | cons c rest =>
    rcases operatorExtent_cons .minus c with hc | ⟨⟨⟩, -⟩ | ⟨⟨⟩, -⟩ | ⟨_, ⟨⟩, -⟩
    exact hc rest

private theorem significant_minus (line : Nat) (rest : Bytes) :
    significant line (Bytes.ascii '-' :: rest) =
      (⟨.operator .minus, [Bytes.ascii '-']⟩, line) :: significant line rest := by
  rw [significant_cons, first_eq, remainder, extent_minus]
  rfl

-- The token of a number without its sign, at the front of a source.
private def numberToken (w : Bytes) (x : Number) : Token :=
  ⟨.number, w, .number (.ofMagnitude false x.magnitude), (1 + w.newlines : Nat)⟩

private def minusToken : Token := ⟨.minus, [Bytes.ascii '-'], .nil, 1⟩

-- A number without its sign is scanned as its token, without errors.
private theorem scan_number (h : Number.WritesMagnitude w x) :
    tokensFrom 1 w = [numberToken w x] ∧ tokenErrorsFrom 1 w = [] := by
  obtain ⟨hlexeme, hread⟩ := h
  have hvalue : numberValue w = .ofMagnitude false x.magnitude := by rw [numberValue, hread]; rfl
  have hrange : ¬ (Decimal.ofText w).Overflows := by
    rw [← Decimal.toNumber?_eq_none_iff, hread]
    exact Option.some_ne_none _
  have htokens := tokensFrom_lexeme 1 hlexeme apart_nil
  have herrors := tokenErrorsFrom_lexeme 1 hlexeme apart_nil
  rw [List.append_nil, hvalue] at htokens
  rw [List.append_nil, Token.rangeError?, if_neg fun hlarge ↦ hrange hlarge.2] at herrors
  exact ⟨htokens.trans (by simp [tokensFrom, numberToken]),
    herrors.trans (by simp [tokenErrorsFrom])⟩

-- A negative number is scanned as a minus sign and the token of the number without it.
private theorem scan_minus_number (h : Number.WritesMagnitude w x) :
    tokensFrom 1 (Bytes.ascii '-' :: w) = [minusToken, numberToken w x] ∧
      tokenErrorsFrom 1 (Bytes.ascii '-' :: w) = [] := by
  obtain ⟨htokens, herrors⟩ := scan_number h
  unfold tokensFrom at htokens ⊢
  unfold tokenErrorsFrom at herrors ⊢
  rw [significant_minus, List.filterMap_cons, List.filterMap_cons, htokens, herrors]
  exact ⟨rfl, rfl⟩

-- The expression that the text of a number is parsed as.
private def numberExpr (w : Bytes) (x : Number) : Expr Unit :=
  let absolute := .literal (numberToken w x) (.number (.ofMagnitude false x.magnitude))
  if x.isNegative then .unary minusToken absolute else absolute

private theorem parseExpr_number (h : Number.WritesMagnitude w x) :
    parseExpr (x.signText ++ w) = ⟨some (numberExpr w x), []⟩ := by
  have habsolute : Grammar.Derives .primary [numberToken w x]
      (.literal (numberToken w x) (.number (.ofMagnitude false x.magnitude))) := .literal rfl
  rw [parseExpr_eq_iff, Number.signText, numberExpr]
  by_cases hsign : x.isNegative
  · obtain ⟨htokens, herrors⟩ := scan_minus_number h
    have hminus : minusToken.kind ∈ Kind.unary := by decide
    rw [if_pos hsign, if_pos hsign, List.singleton_append, htokens]
    exact ⟨herrors,
      (Grammar.Derives.unary hminus (habsolute.loosen (by decide))).loosen (by decide)⟩
  · obtain ⟨htokens, herrors⟩ := scan_number h
    rw [if_neg hsign, if_neg hsign, List.nil_append, htokens]
    exact ⟨herrors, habsolute.loosen (by decide)⟩

end Sources

/-! ## Its value -/

-- A number token behind the sign of `x` is evaluated to `x`.
private theorem evalSource_signed {w : Bytes} {x : Number} (h : Number.WritesMagnitude w x)
    (fuel : Nat) (m : Machine) :
    m.evalSource (fuel + 2) (x.signText ++ w) = (.ok (.number x), m.atTopLevel) := by
  unfold Machine.evalSource
  rw [parseExpr_number h]
  by_cases hsign : x.isNegative
  · have hvalue := Number.negate_ofMagnitude hsign
    rw [numberExpr, if_pos hsign]
    exact congrArg (fun y ↦ (Except.ok (Value.number y), m.atTopLevel)) hvalue
  · have hvalue := Number.ofMagnitude_magnitude (Bool.eq_false_iff.mpr hsign)
    rw [numberExpr, if_neg hsign, hvalue]
    rfl

/-- Printed numbers read back exactly. The literal text of every finite number, and its text as a
value if its absolute value is below `10 ^ 21`, is evaluated without an error, to this number with
the same bits. -/
theorem evalSource_numberText {x : Number} (hx : x.isFinite) (fuel : Nat) (m : Machine) :
    m.evalSource (fuel + 2) x.literalText = (.ok (.number x), m.atTopLevel) ∧
      (x.isBelow Number.positionalLimit →
        m.evalSource (fuel + 2) x.display = (.ok (.number x), m.atTopLevel)) := by
  constructor
  · obtain ⟨w, htext, hw⟩ := Number.exists_literalText hx
    rw [htext, evalSource_signed hw]
  · intro hbelow
    obtain ⟨w, htext, hw⟩ := Number.exists_display hbelow
    rw [htext, evalSource_signed hw]

-- The negative zero.
private def minusZero : Number := ⟨0x8000000000000000⟩

/-- Both texts of the negative zero keep its sign. -/
theorem evalSource_numberText_minusZero :
    minusZero.isFinite ∧ minusZero.isBelow Number.positionalLimit ∧
    minusZero.literalText = Bytes.ofString "-0.0" ∧ minusZero.display = Bytes.ofString "-0" ∧
    (Machine.start none 0).evalSource 2 (Bytes.ofString "-0.0") =
      (.ok (.number minusZero), (Machine.start none 0).atTopLevel) ∧
    (Machine.start none 0).evalSource 2 (Bytes.ofString "-0") =
      (.ok (.number minusZero), (Machine.start none 0).atTopLevel) := by
  have hfinite : minusZero.isFinite := by decide
  have hbelow : minusZero.isBelow Number.positionalLimit := by decide +kernel
  have hliteral : minusZero.literalText = Bytes.ofString "-0.0" := by decide +kernel
  have hdisplay : minusZero.display = Bytes.ofString "-0" := by decide +kernel
  obtain ⟨hreadLiteral, hreadDisplay⟩ := evalSource_numberText hfinite 0 (Machine.start none 0)
  rw [hliteral] at hreadLiteral
  rw [hdisplay] at hreadDisplay
  exact ⟨hfinite, hbelow, hliteral, hdisplay, hreadLiteral, hreadDisplay hbelow⟩

end Lox
