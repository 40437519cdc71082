import Lox.Chunk.Check
import Lox.Proofs.Scope.Violations
import Lox.Proofs.Token.Lines

/-!
# Where static errors are

The scanner puts errors on the lines of the source, the parser and the resolver at tokens of it: the
resolver only looks at the names and keywords of the program, and these were read by the parser. So
static errors are on the lines of the source, and not on those of white space at the front of it
(`line_of_mem_staticErrors`).
-/

namespace Lox

private theorem StaticError.IsAt.mono {e : StaticError} {P Q : Token → Prop} (he : e.IsAt P)
    (h : ∀ t, P t → Q t) : e.IsAt Q := by
  obtain ⟨t, reason, ht, heq⟩ := he
  exact ⟨t, reason, h t ht, heq⟩

/-- An error is on the line of the token that it is at. -/
theorem StaticError.IsAt.line {e : StaticError} {P : Token → Prop} (he : e.IsAt P) :
    ∃ t, P t ∧ e.line = t.line := by
  obtain ⟨t, reason, ht, rfl⟩ := he
  exact ⟨t, ht, rfl⟩

namespace Situation

private theorem isAt_of_mem_redeclaration {scopes : Scopes} {P : Token → Prop} {t : Token}
    (ht : P t) {e : StaticError} (he : e ∈ scopes.redeclaration t) : e.IsAt P := by
  cases scopes with
  | nil => cases he
  | cons s scopes =>
    simp only [Scopes.redeclaration, List.mem_ite_nil_right, List.mem_singleton] at he
    exact ⟨t, _, ht, he.2⟩

-- The errors of a part by itself are at a name or a keyword in it.
private theorem isAt_of_mem_own (σ : Situation) {part : Program.Part Unit} {e : StaticError}
    (he : e ∈ σ.own part) : e.IsAt (· ∈ part.anchors) := by
  cases part with
  | program p => cases he
  | param t => exact isAt_of_mem_redeclaration (List.mem_singleton_self t) he
  | expr x =>
    cases x with
    | «variable» name u =>
      simp only [own, List.mem_ite_nil_right, List.mem_singleton] at he
      exact ⟨name, _, List.mem_singleton_self name, he.2⟩
    | _ => cases he
  | stmt s =>
    cases s with
    | var name init =>
      exact isAt_of_mem_redeclaration (by cases init <;> exact List.mem_cons_self) he
    | function name params body => exact isAt_of_mem_redeclaration List.mem_cons_self he
    | «return» t result =>
      simp only [own, List.mem_ite_nil_left, List.mem_singleton] at he
      exact ⟨t, _, List.mem_append_right _ List.mem_cons_self, he.2⟩
    | branch t =>
      simp only [own, List.mem_ite_nil_left, List.mem_singleton] at he
      exact ⟨t, _, List.mem_append_right _ List.mem_cons_self, he.2⟩
    | _ => cases he

/-- The resolver finds errors at the names and keywords in a part. -/
theorem isAt_of_mem_errors (σ : Situation) {part : Program.Part Unit} {e : StaticError}
    (he : e ∈ σ.errors part) : e.IsAt (· ∈ part.anchors) := by
  induction part using Program.Part.induction generalizing σ with
  | h part ih =>
    rw [σ.errors_eq] at he
    rcases List.mem_append.mp he with he | he
    · exact σ.isAt_of_mem_own he
    · obtain ⟨v, hv, he⟩ := List.mem_flatMap.mp he
      have hchild : v.2 ∈ part.children := by
        rw [← (σ.inside part).map_snd_along part.children]
        exact List.mem_map_of_mem hv
      exact (ih v.2 hchild v.1 he).mono fun t ↦ Program.Part.anchors_of_mem_children hchild

end Situation

section Tokens

variable {ts : List Token} {e : StaticError}

private theorem body_subset (ts : List Token) : Parser.body ts ⊆ ts :=
  (List.takeWhile_sublist _).subset

private theorem ending_mem (hend : ∃ t ∈ ts, t.kind = .eof) : Parser.ending ts ∈ ts := by
  have hsome : (ts.find? (·.kind = .eof)).isSome := by simpa using hend
  obtain ⟨t, ht⟩ := Option.isSome_iff_exists.mp hsome
  rw [Parser.ending, ht]
  exact List.mem_of_find?_eq_some ht

/-- The parser finds errors at the tokens it is given, if one of them is for the end of the
source. -/
theorem isAt_of_mem_parseTokens (hend : ∃ t ∈ ts, t.kind = .eof)
    (he : e ∈ (parseTokens ts).errors) : e.IsAt (· ∈ ts) := by
  apply (parseTokens_errors_isAt ts e he).mono
  rintro t (rfl | ht)
  · exact ending_mem hend
  · exact body_subset ts ht

/-- The resolver finds errors at the tokens that a program is parsed from. -/
theorem isAt_of_mem_resolve {lenient : Bool}
    (he : e ∈ ((parseTokens ts).tree.resolve lenient).errors) : e.IsAt (· ∈ ts) := by
  have hplace : e.IsAt (· ∈ (Program.Part.program (parseTokens ts).tree).anchors) :=
    (Situation.mk (.topLevel lenient) []).isAt_of_mem_errors he
  apply hplace.mono
  intro t ht
  apply body_subset ts
  rcases List.mem_append.mp ht with ht | ht
  · exact Multiset.mem_of_le (parseTokens_built ts).names.le ht
  · exact parseTokens_keywords_mem ts t ht

end Tokens

/-- A static error of a source is an error in its tokens, or at one of them. -/
theorem staticErrors_cases {lenient : Bool} {src : Bytes} {e : StaticError}
    (he : e ∈ staticErrors lenient src) :
    e ∈ (scan src).errors ∨ e.IsAt (· ∈ (scan src).tokens) := by
  have hend : ∃ t ∈ (scan src).tokens, t.kind = .eof :=
    ⟨_, by rw [tokens_scan]; exact List.mem_concat_self, rfl⟩
  unfold staticErrors at he
  dsimp only at he
  split at he
  · exact .inr (isAt_of_mem_resolve he)
  · rcases List.mem_append.mp he with he | he
    · exact .inl he
    · exact .inr (isAt_of_mem_parseTokens hend he)

/-- Static errors are on the lines of the source behind the white space at its front. -/
theorem line_of_mem_staticErrors {blanks src : Bytes} (hblanks : ∀ b ∈ blanks, Segment.isBlank b)
    {lenient : Bool} {e : StaticError} (he : e ∈ staticErrors lenient (blanks ++ src)) :
    (1 + blanks.newlines : Nat) ≤ e.line ∧ e.line ≤ (1 + blanks.newlines + src.newlines : Nat) := by
  rcases staticErrors_cases he with he | he
  · rw [errors_scan, tokenErrorsFrom_blanks hblanks] at he
    exact line_of_mem_tokenErrorsFrom he
  · obtain ⟨t, ht, hline⟩ := he.line
    rw [tokens_scan, tokensFrom_blanks hblanks, Segment.newlines_append] at ht
    rw [hline]
    rcases List.mem_append.mp ht with ht | ht
    · exact line_of_mem_tokensFrom ht
    · rw [List.mem_singleton.mp ht]
      simp only [Token.endOf]
      omega

/-- White space has no static errors. -/
theorem staticErrors_blanks {blanks : Bytes} (hblanks : ∀ b ∈ blanks, Segment.isBlank b)
    (lenient : Bool) : staticErrors lenient blanks = [] := by
  have htokens : tokensFrom 1 blanks = [] := by
    rw [← List.append_nil blanks, tokensFrom_blanks hblanks]
    simp [tokensFrom]
  have herrors : tokenErrorsFrom 1 blanks = [] := by
    rw [← List.append_nil blanks, tokenErrorsFrom_blanks hblanks]
    simp [tokenErrorsFrom]
  rw [staticErrors, parseProgram, tokens_scan, errors_scan, htokens, herrors]
  rfl

end Lox
