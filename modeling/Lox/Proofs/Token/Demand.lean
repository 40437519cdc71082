import Lox.Proofs.Token.Lines

/-!
# Tokens on demand

A scanner reads as much of its source as the next token needs. What it has found and what it will
find, taken together (`Scanner.outlook`), is the same at every point, but for the tokens that it
gave: one step takes the first of them off (`Scanner.next_cases`), and the last one is given again
and again (`Scanner.take_outlook`). So tokens that are asked for one by one are those of the whole
source.
-/

namespace Lox.Scanner

open Segment

/-- The first `n` tokens that a scanner gives, and the scanner behind them. -/
def take : Nat → Scanner → List Token × Scanner
  | 0, s => ([], s)
  | n + 1, s =>
    let (t, s) := s.next
    let (ts, s) := take n s
    (t :: ts, s)

/-- The last line of the source. -/
def lastLine (s : Scanner) : Nat := s.line + s.rest.newlines

/-- The tokens that are still to come, and all errors, those found and those still to be found. -/
def outlook (s : Scanner) : Scanned where
  tokens := tokensFrom s.line s.rest ++ [.endOf s.lastLine]
  errors := s.errors ++ tokenErrorsFrom s.line s.rest

/-- At the start the outlook is what scanning the whole source gives. -/
theorem outlook_ofSource (src : Bytes) : (ofSource src).outlook = scan src := by
  have htokens := tokens_scan src
  have herrors := errors_scan src
  simp only [outlook, ofSource, lastLine, List.nil_append]
  rw [← htokens, ← herrors]

/-! ## One step -/

section Front

variable (b : UInt8) (rest : Bytes) (line : Nat) (errors : List StaticError)

-- A scanner behind the segment at the front of `b :: rest`.
private def behind : Scanner :=
  let line := line + (first b rest).text.newlines
  ⟨remainder b rest, line, errors ++ ((first b rest).error? line).toList⟩

private theorem lastLine_behind :
    (behind b rest line errors).lastLine = (⟨b :: rest, line, errors⟩ : Scanner).lastLine := by
  have htext := congrArg Bytes.newlines (text_first_append_remainder b rest)
  rw [newlines_append] at htext
  simp only [lastLine, behind, ← htext, Nat.add_assoc]

-- Taking a segment off the front takes its token off the outlook, if it is one.
private theorem outlook_behind :
    (⟨b :: rest, line, errors⟩ : Scanner).outlook =
      ⟨((first b rest).token? (line + (first b rest).text.newlines)).toList ++
          (behind b rest line errors).outlook.tokens,
        (behind b rest line errors).outlook.errors⟩ := by
  simp only [outlook, lastLine_behind, tokensFrom_cons, tokenErrorsFrom_cons, ← List.append_assoc]
  rfl

end Front

/-- What one step does: either it gives the first of the tokens to come, which is not the end of the
source, or there is nothing to come and it gives the end. -/
theorem next_cases (s : Scanner) :
    (s.next.1.kind ≠ .eof ∧
      s.outlook = ⟨s.next.1 :: s.next.2.outlook.tokens, s.next.2.outlook.errors⟩ ∧
      s.next.2.lastLine = s.lastLine) ∨
    (s.outlook.tokens = [.endOf s.lastLine] ∧
      s.next = (.endOf s.lastLine, ⟨[], s.lastLine, s.outlook.errors⟩)) := by
  obtain ⟨rest, line, errors⟩ := s
  simp only [next]
  fun_induction next.go line errors rest with
  | case1 line errors =>
    right
    simp [lastLine, outlook, tokensFrom, tokenErrorsFrom, Bytes.newlines]
  | case2 line errors b rest segment line' errors' t ht =>
    left
    have hfirst : (first b rest).token? (line + (first b rest).text.newlines) = some t := ht
    have houtlook := outlook_behind b rest line errors
    rw [hfirst] at houtlook
    have hmem : t ∈ tokensFrom line (b :: rest) := by
      rw [tokensFrom_cons, hfirst]
      exact List.mem_cons_self
    exact ⟨kind_ne_eof_of_mem_tokensFrom t hmem, houtlook, lastLine_behind b rest line errors⟩
  | case3 line errors b rest segment line' errors' ht ih =>
    have hfirst : (first b rest).token? (line + (first b rest).text.newlines) = none := ht
    have hlast := lastLine_behind b rest line errors
    have houtlook := outlook_behind b rest line errors
    rw [hfirst, Option.toList_none, List.nil_append] at houtlook
    rw [houtlook, ← hlast]
    exact ih

/-! ## Many steps -/

/-- Behind the end of the source a scanner stays as it is. -/
theorem take_of_rest_eq_nil {s : Scanner} (h : s.rest = []) (n : Nat) :
    s.take n = (List.replicate n (.endOf s.line), s) := by
  obtain ⟨rest, line, errors⟩ := s
  subst h
  induction n with
  | zero => rfl
  | succ n ih =>
    have hnext : next ⟨[], line, errors⟩ = (.endOf line, ⟨[], line, errors⟩) := by
      simp [next, next.go]
    simp only [take, hnext, ih, List.replicate_succ]

/-- The tokens that a scanner gives are those of its outlook, the last of which never ends. The
errors that it has found then are the first of all errors, and they are all of them when the end of
the source was given. -/
theorem take_outlook (n : Nat) (s : Scanner) :
    (s.take n).1 = (List.range n).map (fun i ↦ s.outlook.tokens.getD i (.endOf s.lastLine)) ∧
    (s.take n).2.errors <+: s.outlook.errors ∧
    ((∃ t ∈ (s.take n).1, t.kind = .eof) →
      (s.take n).2.errors = s.outlook.errors ∧ (s.take n).2.rest = []) := by
  induction n generalizing s with
  | zero =>
    refine ⟨rfl, List.prefix_append _ _, ?_⟩
    rintro ⟨t, ht, -⟩
    cases ht
  | succ n ih =>
    have hstep : s.take (n + 1) = (s.next.1 :: (s.next.2.take n).1, (s.next.2.take n).2) := rfl
    rw [hstep, List.range_succ_eq_map, List.map_cons, List.map_map]
    rcases next_cases s with ⟨hkind, houtlook, hlast⟩ | ⟨htokens, hnext⟩
    · obtain ⟨hmore, hprefix, hend⟩ := ih s.next.2
      rw [houtlook, ← hlast]
      refine ⟨congrArg (s.next.1 :: ·) hmore, hprefix, ?_⟩
      rintro ⟨t, ht, heof⟩
      rcases List.mem_cons.mp ht with rfl | ht
      · exact absurd heof hkind
      · exact hend ⟨t, ht, heof⟩
    · rw [hnext, htokens, take_of_rest_eq_nil rfl]
      refine ⟨?_, List.prefix_refl _, fun _ ↦ ⟨rfl, rfl⟩⟩
      simp [Function.comp_def, List.map_const']

/-- Asking for one token after the other gives the tokens of the whole source, and from the end of
the source on always the token for the end. The errors found on the way are the first ones of the
source. Once the end was given they are all, and no further step changes anything. -/
theorem take_agrees_with_scan (src : Bytes) (n : Nat) :
    let whole := scan src
    let (given, s) := (ofSource src).take n
    (∃ tokens eof, whole.tokens = tokens ++ [eof] ∧ eof.kind = .eof ∧
      (∀ t ∈ tokens, t.kind ≠ .eof) ∧ given = (List.range n).map fun i ↦ whole.tokens.getD i eof) ∧
    s.errors <+: whole.errors ∧
    ((∃ t ∈ given, t.kind = .eof) → s.errors = whole.errors ∧ ∀ k, (s.take k).2 = s) := by
  obtain ⟨hgiven, hprefix, hend⟩ := take_outlook n (ofSource src)
  rw [outlook_ofSource] at hgiven hprefix hend
  refine ⟨⟨_, _, tokens_scan src, rfl, kind_ne_eof_of_mem_tokensFrom, hgiven⟩, hprefix, ?_⟩
  intro heof
  obtain ⟨herrors, hrest⟩ := hend heof
  refine ⟨herrors, fun k ↦ ?_⟩
  rw [take_of_rest_eq_nil hrest]

/-- A byte that is no character, a comment, a name, and a string that does not end. -/
def brokenSource : Bytes := [255, 47, 42, 42, 47, 97, 10, 34]

/-- The string is found to be open only when a token behind the name is asked for. -/
theorem take_agrees_with_scan_broken :
    ((ofSource brokenSource).take 1).2.errors.length = 1 ∧
    (∃ t ∈ ((ofSource brokenSource).take 2).1, t.kind = .eof) ∧
    ((ofSource brokenSource).take 2).2.errors = (scan brokenSource).errors ∧
    ∀ k, (((ofSource brokenSource).take 2).2.take k).2 = ((ofSource brokenSource).take 2).2 := by
  have hone : ((ofSource brokenSource).take 1).2.errors.length = 1 := by decide +kernel
  have hkinds : ((ofSource brokenSource).take 2).1.map Token.kind = [.identifier, .eof] := by
    decide +kernel
  have heof : ∃ t ∈ ((ofSource brokenSource).take 2).1, t.kind = .eof := by
    apply List.mem_map.mp
    rw [hkinds]
    simp
  obtain ⟨-, -, hend⟩ := take_agrees_with_scan brokenSource 2
  obtain ⟨herrors, hstays⟩ := hend heof
  exact ⟨hone, heof, herrors, hstays⟩

end Lox.Scanner
