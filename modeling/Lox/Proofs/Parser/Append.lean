import Lox.Proofs.Parser.Survives

/-!
# Tokens behind a program

A complete statement ends with its last token, and the parser looks past it for an `else` only. So
tokens that form a program, with any tokens behind them that do not begin with an `else`, give its
statements and then whatever the tokens behind it give alone, with the same errors
(`parseTokens_append_eq`). Recovery from an error in the latter never goes back into the program.
-/

namespace Lox.Parser

variable {behind ts : List Token} {k k' n n' : Nat} {eof eof' : Token}

-- A declaration without errors does not depend on what is behind it, nor on bounds.
private theorem declaration_append (eof' : Token) (hbehind : ∀ t ∈ behind.head?, t.kind ≠ .else)
    (hk : ts.length < k) (hk' : ts.length + behind.length < k')
    (h : (declaration k eof ts).errors = []) :
    declaration k' eof' (ts ++ behind) =
      ⟨(declaration k eof ts).value, (declaration k eof ts).rest ++ behind, []⟩ := by
  have htracked := (tracks_statement_declaration .same behind k k').2 eof eof' ts hk hk'
  have hsame := htracked.same (.inr (.inr ⟨rfl, h, hbehind⟩))
  have hid : Option.map (Stmt.relabel .same) = (id : Option (Stmt Unit) → Option (Stmt Unit)) := by
    funext stmt?
    cases stmt? with
    | none => rfl
    | some s => exact congrArg some (Stmt.relabel_same s)
  have htoken : Relabel.same.token = id := funext Relabel.token_same
  have hvalue := hsame.value
  have hrest := hsame.rest
  have herrors := hsame.errors
  rw [htoken, List.map_id] at hvalue herrors
  rw [htoken, List.map_id, List.map_id] at hrest
  rw [hid, Option.map_id, id] at hvalue
  rw [h, List.length_nil, List.length_eq_zero_iff] at herrors
  rw [← hvalue, ← hrest, ← herrors]

-- Declarations behind others that have no errors. The induction is on the bound of the loop that
-- reads the ones in front, and leaves some bound for those behind.
private theorem declarations_behind (hbehind : ∀ t ∈ behind.head?, t.kind ≠ .else)
    (hk : ts.length < k) (hk' : ts.length + behind.length < k') (hn : ts.length < n)
    (hn' : ts.length + behind.length < n')
    (h : (declarations (declaration k) (fun _ ↦ false) n [] [] eof ts).errors = []) :
    ∃ ss m, behind.length < m ∧
      (declarations (declaration k) (fun _ ↦ false) n [] [] eof ts).value = some ss ∧
      declarations (declaration k') (fun _ ↦ false) n' [] [] eof' (ts ++ behind) =
        let R := declarations (declaration k') (fun _ ↦ false) m [] [] eof' behind
        ⟨R.value.map (ss ++ ·), R.rest, R.errors⟩ := by
  induction n generalizing n' ts with
  | zero => omega
  | succ n ih =>
    cases ts with
    | nil =>
      refine ⟨[], n', by simpa using hn', rfl, ?_⟩
      simp only [List.nil_append, Option.map_id']
    | cons t rest =>
      cases n' with
      | zero => omega
      | succ n' =>
        rw [declarations_cons n eof t rest rfl] at h ⊢
        obtain ⟨hone, hmore⟩ := List.append_eq_nil_iff.mp h
        have hadv := advances_declaration_of_pos (Nat.zero_lt_of_lt hk) eof t rest
        have happend := declaration_append eof' hbehind hk hk' hone
        simp only [List.length_cons] at hk hk' hn hn'
        have hbound : (declaration k eof (t :: rest)).rest.length + behind.length < n' := by omega
        obtain ⟨ss, m, hm, hss, hrest⟩ := ih (by omega) (by omega) (by omega) hbound hmore
        refine ⟨declared (declaration k eof (t :: rest)).value ++ ss, m, hm, ?_, ?_⟩
        · exact congrArg (Option.map _) hss
        · rw [List.cons_append] at happend ⊢
          rw [declarations_cons n' eof' t _ rfl, happend]
          dsimp only
          rw [hrest]
          simp only [Option.map_map, Function.comp_def, List.append_assoc, List.nil_append]

-- Tokens behind a program give what they give alone.
private theorem program_behind {m : Nat} (hbehind : ∀ t ∈ behind.head?, t.kind ≠ .else)
    (hends : ∀ t ∈ behind, t.kind ≠ .eof) (he : eof'.kind = .eof) (hn : ts.length < n)
    (hm : behind.length < m) (hn' : ts.length + behind.length < n')
    (h : (program n eof ts).errors = []) :
    (program n' eof' (ts ++ behind)).value.getD [] =
        (program n eof ts).value.getD [] ++ (program m eof' behind).value.getD [] ∧
      (program n' eof' (ts ++ behind)).errors = (program m eof' behind).errors := by
  obtain ⟨ss, m', hm', hss, hall⟩ := declarations_behind hbehind hn hn' hn hn' h
  obtain ⟨hvalue, herrors⟩ := Indexed.program_unique hends he (k := n') (by omega) hm' hm
  obtain ⟨us, hus, -⟩ := Indexed.exists_program hm eof'
  have hprogram : (program n eof ts).value = some ss := hss
  rw [hus] at hvalue
  rw [program, hall]
  dsimp only
  rw [hvalue, herrors, hprogram, hus]
  exact ⟨rfl, rfl⟩

end Lox.Parser

namespace Lox

open Lox.Parser

/-- Tokens that form a program, and any tokens behind them that do not begin with an `else`, give
the statements of the program and then those that the tokens behind it give, and exactly the errors
of the latter. -/
theorem parseTokens_append_eq {ts us : List Token} {eof : Token} (hts : ∀ t ∈ ts, t.kind ≠ .eof)
    (hus : ∀ t ∈ us, t.kind ≠ .eof) (he : eof.kind = .eof)
    (h : (parseTokens (ts ++ [eof])).errors = []) (helse : ∀ t ∈ us.head?, t.kind ≠ .else) :
    (parseTokens (ts ++ us ++ [eof])).tree =
        (parseTokens (ts ++ [eof])).tree ++ (parseTokens (us ++ [eof])).tree ∧
      (parseTokens (ts ++ us ++ [eof])).errors = (parseTokens (us ++ [eof])).errors := by
  have hending : ∀ us : List Token, (∀ t ∈ us, t.kind ≠ .eof) → ending (us ++ [eof]) = eof := by
    intro us hus
    have hfind : us.find? (·.kind = .eof) = none := by simpa using hus
    simp [ending, hfind, he]
  have hboth : ∀ t ∈ ts ++ us, t.kind ≠ .eof := List.forall_mem_append.mpr ⟨hts, hus⟩
  rw [parseTokens_append_end hts he] at h ⊢
  rw [parseTokens_append_end hus he, parseTokens_append_end hboth he]
  rw [hending us hus, hending _ hboth]
  exact program_behind helse hus he (by omega) (by omega) (by simp) h

-- A conditional without an `else`.
private def conditionalTokens : List Token :=
  [⟨.if, [105, 102], .nil, 1⟩, ⟨.leftParen, [40], .nil, 1⟩, ⟨.identifier, [97], .nil, 1⟩,
    ⟨.rightParen, [41], .nil, 1⟩, ⟨.identifier, [98], .nil, 1⟩, ⟨.semicolon, [59], .nil, 1⟩]

-- A parenthesis that nothing opened, a statement, and an `else` that no `if` is before.
private def strayTokens : List Token :=
  [⟨.rightParen, [41], .nil, 2⟩, ⟨.print, [112], .nil, 2⟩, ⟨.identifier, [99], .nil, 2⟩,
    ⟨.semicolon, [59], .nil, 2⟩, ⟨.else, [101], .nil, 2⟩]

private theorem parse_conditionalTokens : parseTokens (conditionalTokens ++ [.endOf 3]) =
    ⟨[.ifElse ⟨.if, [105, 102], .nil, 1⟩ (.variable ⟨.identifier, [97], .nil, 1⟩ ())
      (.expr (.variable ⟨.identifier, [98], .nil, 1⟩ ())) none], []⟩ := by
  cbv

private theorem parse_strayTokens : parseTokens (strayTokens ++ [.endOf 3]) =
    ⟨[.print ⟨.print, [112], .nil, 2⟩ (.variable ⟨.identifier, [99], .nil, 2⟩ ())],
      [⟨2, .lexeme [41], .expectExpression⟩, ⟨2, .lexeme [101], .expectExpression⟩]⟩ := by
  cbv

/-- The tokens behind a conditional have errors at their front and at their end. The conditional and
the statement among them are kept. -/
theorem parseTokens_append_conditional :
    (parseTokens (conditionalTokens ++ [.endOf 3])).errors = [] ∧
    (parseTokens (conditionalTokens ++ strayTokens ++ [.endOf 3])).tree =
      [.ifElse ⟨.if, [105, 102], .nil, 1⟩ (.variable ⟨.identifier, [97], .nil, 1⟩ ())
          (.expr (.variable ⟨.identifier, [98], .nil, 1⟩ ())) none,
        .print ⟨.print, [112], .nil, 2⟩ (.variable ⟨.identifier, [99], .nil, 2⟩ ())] ∧
    (parseTokens (conditionalTokens ++ strayTokens ++ [.endOf 3])).errors =
      [⟨2, .lexeme [41], .expectExpression⟩, ⟨2, .lexeme [101], .expectExpression⟩] := by
  have hclean : (parseTokens (conditionalTokens ++ [.endOf 3])).errors = [] := by
    rw [parse_conditionalTokens]
  have hfront : ∀ t ∈ conditionalTokens, t.kind ≠ .eof := by decide
  have hbehind : ∀ t ∈ strayTokens, t.kind ≠ .eof := by decide
  obtain ⟨htree, herrors⟩ := parseTokens_append_eq hfront hbehind rfl hclean (by decide)
  rw [parse_conditionalTokens, parse_strayTokens] at htree
  rw [parse_strayTokens] at herrors
  exact ⟨hclean, htree, herrors⟩

end Lox
