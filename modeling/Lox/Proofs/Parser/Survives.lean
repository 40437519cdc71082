import Lox.Proofs.Parser.Follows
import Lox.Proofs.Parser.Sequence
import Mathlib.Data.List.TakeWhile

/-!
# The parser survives all tokens

Each part of the grammar on positions follows the same part on the remaining tokens. Loops and
recursions end because the latter has bounds that are large enough whenever there are fewer tokens:
a step reads a token, and a declaration that is given up on drops one. So parsing any tokens
terminates without a look at a token that is not there, or is behind the end of the source
(`parser_survives`).
-/

namespace Lox.Indexed

open Lox.Parser (startsStatement skipFrom)

section Expressions

variable {n m : Nat} {expr : Parser (Expr Unit)}

private theorem follows_operandsFrom {s : Strength} {p : Parser (Expr Unit)}
    (hp : Follows n (Phrase.operand s).read p) (hm : m ≤ n) (x : Expr Unit) :
    Follows m (Phrase.operandsFrom s x).read (Parser.chainFrom p s.operators s.node m x) := by
  induction m generalizing x with
  | zero => exact follows_zero _ _
  | succ m ih =>
    rw [Phrase.read]
    refine follows_accept (follows_pure _ x) fun op _ ↦ follows_previous ?_
    exact follows_bind (hp.mono (Nat.le_of_succ_le hm)) fun y ↦ ih (Nat.le_of_succ_le hm) _

private theorem follows_operands {s : Strength} {p : Parser (Expr Unit)}
    (hp : Follows n (Phrase.operand s).read p) :
    Follows n (Phrase.operands s).read (Parser.chain p s.operators s.node n) := by
  rw [Phrase.read]
  exact follows_bind hp fun x ↦ follows_operandsFrom hp (Nat.le_refl n) x

-- A primary expression reads a token before whole expressions again.
private theorem follows_primary (he : Follows (n - 1) expression expr) :
    Follows n Phrase.primary.read (Parser.primary expr) := by
  intro c ts hlt eof hs
  rw [Phrase.read, bind_of_ok (peek_eq hs)]
  cases ts with
  | nil =>
    simp only [List.headD_nil, hs.ends]
    exact follows_fail n _ c [] hlt eof hs
  | cons t rest =>
    have hnext : ∀ {q : Reader (Expr Unit)} {p : Parser (Expr Unit)},
        Follows (n - 1) q p →
        Agrees c (t :: rest) (p eof rest) ((advance >>= fun _ ↦ q) c) := by
      intro q p h
      rw [bind_of_ok (advance_cons hs)]
      exact (h c.next rest (Nat.lt_sub_of_add_lt hlt) eof hs.next).next
    have hliteral : ∀ v, Agrees c (t :: rest) (Parser.succeed (Expr.literal t v) eof rest)
        ((advance >>= fun _ ↦ (pure (Expr.literal t v) : Reader (Expr Unit))) c) :=
      fun v ↦ hnext (follows_pure _ _)
    change Agrees c (t :: rest) ((Parser.accept? _ >>= _) eof (t :: rest)) _
    by_cases hk : t.kind ∈ [Kind.false, .true, .nil, .number, .string, .identifier, .leftParen]
    · rw [Parser.accept?_bind_of_mem hk]
      simp only [List.mem_cons, List.not_mem_nil, or_false] at hk
      simp only [List.headD_cons]
      rcases hk with hk | hk | hk | hk | hk | hk | hk <;> simp only [hk]
      · exact hliteral _
      · exact hliteral _
      · exact hliteral _
      · exact hliteral _
      · exact hliteral _
      · exact hnext (follows_pure _ _)
      · refine hnext (follows_bind he fun x ↦ follows_expect fun _ _ ↦ ?_)
        exact (follows_pure _ _).after _
    · rw [Parser.accept?_bind_of_not_mem hk]
      simp only [List.headD_cons]
      have hfail : Agrees c (t :: rest) (Parser.fail .expectExpression eof (t :: rest))
          ((fail .expectExpression : Reader (Expr Unit)) c) := follows_fail n _ c _ hlt eof hs
      generalize t.kind = kind at hk
      cases kind <;> first | exact hfail | simp at hk

private theorem follows_arguments (he : Follows n expression expr) (hm : n ≤ m) (count : Nat) :
    Follows n (Phrase.arguments count).read (Parser.arguments expr m count) := by
  induction m generalizing n count with
  | zero =>
    rw [Nat.le_zero.mp hm]
    exact follows_zero _ _
  | succ m ih =>
    rw [Phrase.read]
    apply follows_reportHere_if
    refine follows_bind he fun x ↦ follows_accept (follows_pure n [x]) fun t _ ↦ ?_
    have hargs := ih (he.mono (Nat.sub_le n 1)) (Nat.sub_le_of_le_add hm) (count + 1)
    exact Follows.after (follows_bind hargs fun xs ↦ follows_pure _ (x :: xs)) t

private theorem follows_finishCall (he : Follows n expression expr) (hm : n ≤ m)
    (callee : Expr Unit) :
    Follows n (Phrase.finishCall callee).read (Parser.finishCall expr m callee) := by
  have hend : ∀ args, Follows n
      (do
        let paren ← expect .rightParen .expectParenAfterArguments
        pure (Expr.call callee paren args))
      (do
        let paren ← Parser.expect .rightParen .expectParenAfterArguments
        Parser.succeed (Expr.call callee paren args)) :=
    fun args ↦ follows_expect fun paren _ ↦ (follows_pure _ _).after paren
  rw [Phrase.read]
  refine follows_check fun b ↦ ?_
  cases b with
  | true => exact follows_bind (follows_pure n []) hend
  | false => exact follows_bind (follows_arguments he hm 0) hend

private theorem follows_callsFrom (he : Follows (n - 1) expression expr) (hm : m ≤ n)
    (x : Expr Unit) : Follows m (Phrase.callsFrom x).read (Parser.callsFrom expr m x) := by
  induction m generalizing x with
  | zero => exact follows_zero _ _
  | succ m ih =>
    rw [Phrase.read]
    refine follows_accept (follows_pure _ x) fun t _ ↦ Follows.after ?_ t
    have he' := he.mono (Nat.le_sub_one_of_lt hm)
    exact follows_bind (follows_finishCall he' (Nat.le_succ m) x) fun y ↦
      ih (Nat.le_of_succ_le hm) y

private theorem follows_call (he : Follows (n - 1) expression expr) :
    Follows n Phrase.call.read (Parser.call expr n) := by
  rw [Phrase.read]
  exact follows_bind (follows_primary he) fun x ↦ follows_callsFrom he (Nat.le_refl n) x

private theorem follows_unary (he : Follows (n - 1) expression expr) (hm : m ≤ n) :
    Follows m Phrase.unary.read (Parser.unary expr m) := by
  induction m with
  | zero => exact follows_zero _ _
  | succ m ih =>
    rw [Phrase.read]
    refine follows_accept (follows_call (he.mono (Nat.sub_le_sub_right hm 1))) fun op _ ↦ ?_
    refine follows_previous (follows_bind (ih (Nat.le_of_succ_le hm)) fun x ↦ ?_)
    exact follows_pure _ (Expr.unary op x)

private theorem follows_disjunction (he : Follows (n - 1) expression expr) :
    Follows n (Phrase.operands .or).read (Parser.disjunction expr n) := by
  have hfactor : Follows n (Phrase.operands .factor).read (Parser.factor expr n) := by
    apply follows_operands
    rw [Phrase.read]
    exact follows_unary he (Nat.le_refl n)
  have hterm : Follows n (Phrase.operands .term).read (Parser.term expr n) := by
    apply follows_operands
    rw [Phrase.read]
    exact hfactor
  have hcomparison : Follows n (Phrase.operands .comparison).read (Parser.comparison expr n) := by
    apply follows_operands
    rw [Phrase.read]
    exact hterm
  have hequality : Follows n (Phrase.operands .equality).read (Parser.equality expr n) := by
    apply follows_operands
    rw [Phrase.read]
    exact hcomparison
  have hconjunction : Follows n (Phrase.operands .and).read (Parser.conjunction expr n) := by
    apply follows_operands
    rw [Phrase.read]
    exact hequality
  apply follows_operands
  rw [Phrase.read]
  exact hconjunction

private theorem follows_expression (n : Nat) : Follows n expression (Parser.expression n) := by
  induction n with
  | zero => exact follows_zero _ _
  | succ n ih =>
    rw [expression, Phrase.read]
    refine follows_bind (follows_disjunction ih) fun x ↦ ?_
    refine follows_accept (follows_pure _ x) fun equals _ ↦ follows_previous ?_
    refine follows_bind ih fun value ↦ ?_
    cases x with
    | «variable» name u => exact follows_pure _ (Expr.assign name () value)
    | _ => exact follows_bind (follows_report _ _ _) fun _ ↦ follows_pure _ _

private theorem follows_wholeExpression (n : Nat) :
    Follows n wholeExpression (Parser.wholeExpression n) := by
  refine follows_bind (follows_expression n) fun x ↦ follows_atEnd fun b ↦ ?_
  cases b with
  | true => exact follows_pure n x
  | false => exact follows_bind (follows_reportHere n _) fun _ ↦ follows_pure n x

end Expressions

/-! ## Statements -/

section Statements

variable {n m : Nat}

-- An expression, wherever fewer tokens are left than its bound says.
private theorem follows_expression_of_le (hm : n ≤ m) :
    Follows n expression (Parser.expression m) :=
  (follows_expression m).mono hm

private theorem follows_parameters (hm : n ≤ m) (count : Nat) :
    Follows n (parameters count) (Parser.parameters m count) := by
  induction m generalizing n count with
  | zero =>
    rw [Nat.le_zero.mp hm]
    exact follows_zero _ _
  | succ m ih =>
    rw [parameters, Phrase.read]
    apply follows_reportHere_if
    refine follows_expect fun p _ ↦ Follows.after ?_ p
    refine follows_accept (follows_pure _ [p]) fun t _ ↦ Follows.after ?_ t
    have hps : Follows (n - 1 - 1) (parameters (count + 1)) (Parser.parameters m (count + 1)) :=
      ih (by omega) (count + 1)
    exact follows_bind hps fun ps ↦ follows_pure _ (p :: ps)

private theorem follows_varDeclaration (hm : n ≤ m) :
    Follows n varDeclaration (Parser.varDeclaration m) := by
  refine follows_expect fun name _ ↦ Follows.after ?_ name
  have hend : ∀ (k : Nat) (init : Option (Expr Unit)), Follows k
      (do
        let _ ← expect .semicolon .expectSemicolonAfterVariable
        pure (Stmt.var name init))
      (do
        let _ ← Parser.expect .semicolon .expectSemicolonAfterVariable
        Parser.succeed (Stmt.var name init)) :=
    fun k init ↦ follows_expect fun t _ ↦ (follows_pure _ _).after t
  refine follows_accept (hend _ none) fun t _ ↦ Follows.after ?_ t
  simp only [if_true, bind_map_left]
  exact follows_bind (follows_expression_of_le (by omega)) fun e ↦ hend _ (some e)

private theorem follows_expressionStatement (hm : n ≤ m) :
    Follows n expressionStatement (Parser.expressionStatement m) :=
  follows_bind (follows_expression_of_le hm) fun e ↦ follows_expect fun t _ ↦
    (follows_pure _ (Stmt.expr e)).after t

private theorem follows_expressionUnless (k : Kind) (hm : n ≤ m) :
    Follows n (expressionUnless k) (Parser.expressionUnless k m) := by
  refine follows_check fun b ↦ ?_
  cases b with
  | true => exact follows_pure n none
  | false => exact follows_map (follows_expression_of_le hm) some

private theorem follows_printStatement (hm : n ≤ m) (t : Token) :
    FollowsAfter t n printStatement (Parser.printStatement m t) :=
  follows_previous <| follows_bind (follows_expression_of_le hm) fun e ↦
    follows_expect fun t' _ ↦ (follows_pure _ (Stmt.print t e)).after t'

private theorem follows_returnStatement (hm : n ≤ m) (t : Token) :
    FollowsAfter t n returnStatement (Parser.returnStatement m t) :=
  follows_previous <| follows_bind (follows_expressionUnless .semicolon hm) fun e? ↦
    follows_expect fun t' _ ↦ (follows_pure _ (Stmt.return t e?)).after t'

private theorem follows_branchStatement (n : Nat) (t : Token) :
    FollowsAfter t n branchStatement (Parser.branchStatement t) :=
  follows_previous <| follows_expect fun t' _ ↦ (follows_pure _ (Stmt.branch t)).after t'

private theorem follows_initializer (hm : n ≤ m) :
    Follows n initializer (Parser.initializer m) := by
  refine follows_accept_first (follows_accept ?_ fun t hk ↦ Follows.after ?_ t)
    fun t hk ↦ Follows.after ?_ t
  · exact follows_map (follows_expressionStatement hm) some
  · simp only [List.mem_singleton.mp hk, reduceCtorEq, if_false]
    exact follows_map (follows_varDeclaration (by omega)) some
  · simp only [List.mem_singleton.mp hk, if_true]
    exact follows_pure _ none

variable {p : Parser (Stmt Unit)}

private theorem follows_forStatement (hs : Follows n Sentence.statement.read p) (hm : n ≤ m)
    (t : Token) : FollowsAfter t n Sentence.forStatement.read (Parser.forStatement p m t) := by
  rw [Sentence.read]
  refine follows_previous (follows_expect fun _ _ ↦ Follows.after ?_ _)
  refine follows_bind (follows_initializer (by omega)) fun init ↦ ?_
  refine follows_bind (follows_expressionUnless .semicolon (by omega)) fun test ↦ ?_
  refine follows_expect fun _ _ ↦ Follows.after ?_ _
  refine follows_bind (follows_expressionUnless .rightParen (by omega)) fun increment ↦ ?_
  refine follows_expect fun _ _ ↦ Follows.after ?_ _
  exact follows_bind (hs.mono (by omega)) fun body ↦ follows_pure _ _

private theorem follows_ifStatement (hs : Follows n Sentence.statement.read p) (hm : n ≤ m)
    (t : Token) : FollowsAfter t n Sentence.ifStatement.read (Parser.ifStatement p m t) := by
  rw [Sentence.read]
  refine follows_previous (follows_expect fun _ _ ↦ Follows.after ?_ _)
  refine follows_bind (follows_expression_of_le (by omega)) fun test ↦ ?_
  refine follows_expect fun _ _ ↦ Follows.after ?_ _
  refine follows_bind (hs.mono (by omega)) fun yes ↦ ?_
  refine follows_accept (follows_pure _ (Stmt.ifElse t test yes none)) fun _ _ ↦ Follows.after ?_ _
  exact follows_bind (hs.mono (by omega)) fun no ↦ follows_pure _ (Stmt.ifElse t test yes (some no))

private theorem follows_whileStatement (hs : Follows n Sentence.statement.read p) (hm : n ≤ m)
    (t : Token) : FollowsAfter t n Sentence.whileStatement.read (Parser.whileStatement p m t) := by
  rw [Sentence.read]
  refine follows_previous (follows_expect fun _ _ ↦ Follows.after ?_ _)
  refine follows_bind (follows_expression_of_le (by omega)) fun test ↦ ?_
  refine follows_expect fun _ _ ↦ Follows.after ?_ _
  exact follows_bind (hs.mono (by omega)) fun body ↦ follows_pure _ (Stmt.while t test body)

/-! ### Declarations one after the other -/

-- A declaration always comes back, with or without a statement.
private theorem exists_value_declaration (hn : 0 < n) (eof : Token) (ts : List Token) :
    ∃ stmt?, (Parser.declaration n eof ts).value = some stmt? := by
  obtain ⟨k, rfl⟩ := Nat.exists_eq_add_one_of_ne_zero (Nat.pos_iff_ne_zero.mp hn)
  rw [Parser.declaration]
  unfold Parser.declarationWith Parser.recovering
  split
  · exact ⟨_, rfl⟩
  · exact ⟨_, rfl⟩

-- A loop that calls for declarations wherever there is a token that does not close them.
private theorem followsAt_declarations {closes : Kind → Bool} {q : Reader (List (Stmt Unit))}
    (hd : FollowsToken n declaration (Parser.declaration n))
    (hstop : ∀ c eof ts, c.Stands eof ts → (∀ t ∈ ts.head?, closes t.kind = true) →
      q c = some (.ok [], c))
    (hstep : ∀ c eof t rest, c.Stands eof (t :: rest) → closes t.kind = false →
      q c = (do
        let stmt? ← declaration
        let stmts ← q
        pure (stmt?.toList ++ stmts) : Reader _) c)
    {c : Cursor} {ts : List Token} (hlt : ts.length < n) (hm : ts.length < m) :
    FollowsAt c ts q (Parser.declarations (Parser.declaration n) closes m [] []) := by
  induction m generalizing c ts with
  | zero => omega
  | succ m ih =>
    intro eof hs
    cases ts with
    | nil => exact ⟨c, hstop c eof [] hs nofun, .refl⟩
    | cons t rest =>
      cases hc : closes t.kind with
      | true =>
        simp only [Parser.declarations, hc, if_true]
        exact ⟨c, hstop c eof _ hs (fun t' ht' ↦ Option.some.inj ht' ▸ hc), .refl⟩
      | false =>
        obtain ⟨c', hone, hc'⟩ := hd c t rest hlt eof hs
        obtain ⟨stmt?, hvalue⟩ := exists_value_declaration (Nat.zero_lt_of_lt hlt) eof (t :: rest)
        have hshort := Parser.advances_declaration_of_pos (Nat.zero_lt_of_lt hlt) eof t rest
        rw [Parser.declarations_cons m eof t rest hc, hstep c eof t rest hs hc]
        rw [hvalue] at hone
        rw [bind_of_ok hone]
        simp only [List.length_cons] at hlt hm
        obtain ⟨c'', hmore, hc''⟩ := ih (by omega) (by omega) eof (hs.reaches hc')
        have hboth := hc'.trans hc''
        dsimp only
        rw [hvalue]
        rcases hR : (Parser.declarations (Parser.declaration n) closes m [] [] eof
          (Parser.declaration n eof (t :: rest)).rest).value with _ | stmts <;> rw [hR] at hmore
        · exact ⟨c'', bind_of_error hmore, hboth.read, hboth.tokens, hboth.errors, hboth.calls⟩
        · exact ⟨c'', bind_of_ok hmore, hboth.read, hboth.tokens, hboth.errors, hboth.calls⟩

-- Declarations up to a closing brace.
private theorem follows_declarations (hd : FollowsToken n declaration (Parser.declaration n))
    (hm : n ≤ m) : Follows n Sentence.declarations.read
      (Parser.declarations (Parser.declaration n) (· == .rightBrace) m [] []) := by
  refine fun c ts hlt ↦ followsAt_declarations hd ?_ ?_ hlt (Nat.lt_of_lt_of_le hlt hm)
  · intro c eof ts hs hcloses
    rw [Sentence.read]
    cases ts with
    | nil =>
      rw [bind_of_ok (check_nil hs)]
      exact bind_of_ok (atEnd_eq hs)
    | cons t rest =>
      have hc := hcloses t rfl
      rw [bind_of_ok (check_cons hs), hc]
      rfl
  · intro c eof t rest hs hcloses
    conv_lhs => rw [Sentence.read, bind_of_ok (check_cons hs), hcloses]
    exact bind_of_ok (atEnd_eq hs)

-- Declarations up to the end of the source, with any bounds that are large enough.
private theorem followsAt_program (hd : FollowsToken n declaration (Parser.declaration n))
    {c : Cursor} {ts : List Token} (hlt : ts.length < n) (hm : ts.length < m) :
    FollowsAt c ts program
      (Parser.declarations (Parser.declaration n) (fun _ ↦ false) m [] []) := by
  refine followsAt_declarations hd ?_ ?_ hlt hm
  · intro c eof ts hs hcloses
    rw [program_eq, bind_of_ok (atEnd_eq hs)]
    cases ts with
    | nil => rfl
    | cons t rest => cases hcloses t rfl
  · intro c eof t rest hs _
    conv_lhs => rw [program_eq, bind_of_ok (atEnd_eq hs)]
    rfl

private theorem follows_program (hd : FollowsToken n declaration (Parser.declaration n)) :
    Follows n program (Parser.program n) :=
  fun _ _ hlt ↦ followsAt_program hd hlt hlt

private theorem follows_block (hd : FollowsToken n declaration (Parser.declaration n))
    (hm : n ≤ m) : Follows n Sentence.block.read (Parser.block (Parser.declaration n) m) := by
  rw [Sentence.read]
  exact follows_bind (follows_declarations hd hm) fun body ↦ follows_expect fun t _ ↦
    (follows_pure _ body).after t

private theorem follows_funDeclaration (hd : FollowsToken n declaration (Parser.declaration n))
    (hm : n ≤ m) :
    Follows n Sentence.funDeclaration.read (Parser.funDeclaration (Parser.declaration n) m) := by
  rw [Sentence.read]
  refine follows_expect fun name _ ↦ Follows.after ?_ name
  refine follows_expect fun t _ ↦ Follows.after ?_ t
  -- the parameters are followed by a parenthesis, whether there are any or not
  have hend : ∀ params, Follows (n - 1 - 1)
      (do
        let _ ← expect .rightParen .expectParenAfterParameters
        let _ ← expect .leftBrace .expectBraceBeforeBody
        let body ← Sentence.block.read
        pure (Stmt.function name params body))
      (do
        let _ ← Parser.expect .rightParen .expectParenAfterParameters
        let _ ← Parser.expect .leftBrace .expectBraceBeforeBody
        let body ← Parser.block (Parser.declaration n) m
        Parser.succeed (Stmt.function name params body)) := by
    intro params
    refine follows_expect fun t _ ↦ Follows.after ?_ t
    refine follows_expect fun t _ ↦ Follows.after ?_ t
    have hblock := (follows_block hd hm).mono (by omega : n - 1 - 1 - 1 - 1 ≤ n)
    exact follows_bind hblock fun body ↦ follows_pure _ (Stmt.function name params body)
  refine follows_check fun b ↦ ?_
  cases b with
  | true => exact follows_bind (follows_pure _ []) hend
  | false => exact follows_bind (follows_parameters (by omega) 0) hend

private theorem follows_statement_succ (hs : Follows n Sentence.statement.read (Parser.statement n))
    (hd : FollowsToken n declaration (Parser.declaration n)) :
    Follows (n + 1) Sentence.statement.read (Parser.statement (n + 1)) := by
  rw [Sentence.read, Parser.statement]
  have hm := Nat.le_succ n
  -- each kind of statement is met by its keyword, before the others are asked for
  refine follows_accept_first (follows_accept_first (follows_accept_first (follows_accept_first
    (follows_accept_first (follows_accept_first (follows_accept ?_ ?_) ?_) ?_) ?_) ?_) ?_) ?_
  · exact follows_expressionStatement (Nat.le_refl _)
  · intro t hk
    simp only [List.mem_singleton.mp hk]
    exact follows_previous (follows_bind (follows_block hd hm) fun body ↦
      follows_pure _ (Stmt.block t body))
  · intro t hk
    rcases List.mem_pair.mp hk with hk | hk
    · simp only [hk]
      exact follows_branchStatement n t
    · simp only [hk]
      exact follows_branchStatement n t
  · intro t hk
    simp only [List.mem_singleton.mp hk]
    exact follows_whileStatement hs hm t
  · intro t hk
    simp only [List.mem_singleton.mp hk]
    exact follows_returnStatement hm t
  · intro t hk
    simp only [List.mem_singleton.mp hk]
    exact follows_printStatement hm t
  · intro t hk
    simp only [List.mem_singleton.mp hk]
    exact follows_ifStatement hs hm t
  · intro t hk
    simp only [List.mem_singleton.mp hk]
    exact follows_forStatement hs hm t

private theorem follows_unrecovered
    (hs : Follows (n + 1) Sentence.statement.read (Parser.statement (n + 1)))
    (hd : FollowsToken n declaration (Parser.declaration n)) :
    Follows (n + 1) Sentence.unrecovered.read
      (do
        match ← Parser.accept? [.fun, .var] with
        | none => Parser.statement (n + 1)
        | some t =>
          if t.kind = .fun then Parser.funDeclaration (Parser.declaration n) (n + 1)
          else Parser.varDeclaration (n + 1)) := by
  have hm := Nat.le_succ n
  rw [Sentence.read]
  refine follows_accept_first (follows_accept hs ?_) ?_
  · intro t hk
    simp only [List.mem_singleton.mp hk, reduceCtorEq, if_false]
    exact (follows_varDeclaration hm).after t
  · intro t hk
    simp only [List.mem_singleton.mp hk, if_true]
    exact (follows_funDeclaration hd hm).after t

/-! ### Recovery -/

private theorem agrees_skip {c : Cursor} {eof last : Token} {ts : List Token}
    (hs : c.Stands eof ts) (hp : c.Passed last) :
    Agrees c ts ⟨some (), skipFrom last ts, []⟩ (skip c) := by
  induction ts generalizing c last with
  | nil =>
    rw [skip_eq, bind_of_ok (atEnd_eq hs)]
    exact ⟨c, rfl, .refl⟩
  | cons t rest ih =>
    have hstay : Agrees c (t :: rest) ⟨some (), t :: rest, []⟩ ((pure () : Reader Unit) c) :=
      ⟨c, rfl, .refl⟩
    rw [skip_eq, bind_of_ok (atEnd_eq hs)]
    simp only [List.isEmpty_cons, Bool.false_eq_true, if_false]
    rw [bind_of_ok (previous_eq hs hp)]
    by_cases hlast : last.kind = .semicolon
    · rwa [if_pos hlast, skipFrom, if_pos (by simp [hlast])]
    · rw [if_neg hlast, bind_of_ok (peek_eq hs)]
      by_cases hstart : startsStatement t.kind = true
      · rwa [List.headD_cons, if_pos hstart, skipFrom, if_pos (by simp [hstart])]
      · rw [List.headD_cons, if_neg hstart, bind_of_ok (advance_cons hs), skipFrom,
          if_neg (by simp [hlast, hstart])]
        exact (ih hs.next hs.passed_next).next

-- After an error, some token was passed or is dropped.
private theorem agrees_synchronize {c : Cursor} {eof : Token} {ts : List Token}
    (hs : c.Stands eof ts) (hne : ts ≠ [] ∨ ∃ t, c.Passed t) :
    Agrees c ts ⟨some (), Parser.synchronize ts, []⟩ (synchronize c) := by
  rw [synchronize]
  cases ts with
  | nil =>
    obtain ⟨t, hp⟩ := hne.resolve_left (fun h ↦ h rfl)
    rw [bind_of_ok (advance_nil hs hp)]
    exact agrees_skip hs hp
  | cons t rest =>
    rw [bind_of_ok (advance_cons hs)]
    exact (agrees_skip hs.next hs.passed_next).next

private theorem recovered_of_ok {c c' : Cursor} {s : Stmt Unit}
    (h : Sentence.unrecovered.read c = some (.ok s, c')) :
    Sentence.recovered.read c = some (.ok (some s), c') := by
  rw [Sentence.read]
  change (Sentence.unrecovered.read c).bind _ = _
  rw [h]
  rfl

private theorem recovered_of_gaveUp {c c' : Cursor}
    (h : Sentence.unrecovered.read c = some (.error .gaveUp, c')) :
    Sentence.recovered.read c = (synchronize >>= fun _ ↦ pure none) c' := by
  rw [Sentence.read]
  change (Sentence.unrecovered.read c).bind _ = _
  rw [h]
  rfl

-- Where the parser gives up, it goes on at the probable start of the next statement.
private theorem followsToken_recovered {p : Parser (Stmt Unit)}
    (hp : Follows n Sentence.unrecovered.read p) :
    FollowsToken n Sentence.recovered.read (Parser.recovering p) := by
  intro c t rest hlt eof hs
  obtain ⟨c', hq, hc⟩ := hp c (t :: rest) hlt eof hs
  unfold Parser.recovering
  rcases hR : p eof (t :: rest) with ⟨_ | s, left, errors⟩ <;> rw [hR] at hq hc
  · have hs' := hs.reaches hc
    have hne : left ≠ [] ∨ ∃ t, c'.Passed t := by
      refine or_iff_not_imp_left.mpr fun hleft ↦ hs'.exists_passed ?_
      obtain ⟨read, hread, hcurrent⟩ := hc.read
      -- all tokens were read, and there was one
      have hall : read = t :: rest := by
        rw [hread, not_not.mp hleft, List.append_nil]
      rw [hcurrent, hall, List.length_cons]
      omega
    obtain ⟨c'', hsync, hc''⟩ := agrees_synchronize hs' hne
    have hboth := hc.trans hc''
    rw [List.append_nil] at hboth
    refine ⟨c'', ?_, hboth.read, hboth.tokens, hboth.errors, hboth.calls⟩
    rw [recovered_of_gaveUp hq, bind_of_ok hsync]
    rfl
  · exact ⟨c', recovered_of_ok hq, hc.read, hc.tokens, hc.errors, hc.calls⟩

-- A call for a declaration leaves its record in front of those of the calls within it.
private theorem declaration_eq {c c' : Cursor} {stmt? : Option (Stmt Unit)}
    (h : Sentence.recovered.read c = some (.ok stmt?, c')) :
    declaration c = some (.ok stmt?,
      { c' with calls := .between c c' stmt?.isNone :: c'.calls }) := by
  rw [declaration, Sentence.read]
  exact (bind_of_ok rfl).trans (bind_of_ok h)

-- The record that a declaration leaves is of a sound call.
private theorem sound_between {c c' : Cursor} {eof t : Token} {rest : List Token}
    {stmt? : Option (Stmt Unit)} (hlt : (t :: rest).length < n)
    (hvalue : (Parser.declaration n eof (t :: rest)).value = some stmt?)
    (hc : c.Reaches (t :: rest) (Parser.declaration n eof (t :: rest)) c') :
    (Call.between c c' stmt?.isNone).Sound := by
  constructor
  · have hshort := Parser.advances_declaration_of_pos (Nat.zero_lt_of_lt hlt) eof t rest
    obtain ⟨read, hread, hcurrent⟩ := hc.read
    have hlength := congrArg List.length hread
    rw [List.length_append, List.length_cons] at hlength
    change c.current < c'.current
    omega
  · intro hnone
    change c'.errors.drop c.errors.length ≠ []
    rw [hc.errors, List.drop_left]
    exact Parser.errors_declaration_of_dropped hlt
      (hvalue.trans (by simpa [Call.between] using hnone))

private theorem followsToken_declaration
    (hr : FollowsToken n Sentence.recovered.read (Parser.declaration n)) :
    FollowsToken n declaration (Parser.declaration n) := by
  intro c t rest hlt eof hs
  obtain ⟨c', hq, hc⟩ := hr c t rest hlt eof hs
  obtain ⟨stmt?, hvalue⟩ := exists_value_declaration (Nat.zero_lt_of_lt hlt) eof (t :: rest)
  rw [hvalue] at hq
  obtain ⟨calls, hcalls, hall⟩ := hc.calls
  refine ⟨{ c' with calls := .between c c' stmt?.isNone :: c'.calls }, ?_, hc.read, hc.tokens,
    hc.errors, _ :: calls, congrArg (List.cons _) hcalls,
    List.forall_mem_cons.mpr ⟨sound_between hlt hvalue hc, hall⟩⟩
  rw [hvalue]
  exact declaration_eq hq

/-- Statements and declarations on positions are those on the remaining tokens. -/
theorem follows_statement_declaration (n : Nat) :
    Follows n Sentence.statement.read (Parser.statement n) ∧
      FollowsToken n declaration (Parser.declaration n) := by
  induction n with
  | zero => exact ⟨follows_zero _ _, fun _ _ _ hlt ↦ absurd hlt (Nat.not_lt_zero _)⟩
  | succ n ih =>
    have hs := follows_statement_succ ih.1 ih.2
    refine ⟨hs, followsToken_declaration ?_⟩
    exact followsToken_recovered (follows_unrecovered hs ih.2)

-- Where there is a token, a call for a declaration comes back and leaves a sound record.
private theorem exists_declaration {c : Cursor} {eof t : Token} {rest : List Token}
    (hs : c.Stands eof (t :: rest)) :
    ∃ stmt? c' within, declaration c = some (.ok stmt?, c') ∧
      c'.calls = .between c c' stmt?.isNone :: (within ++ c.calls) ∧
      (Call.between c c' stmt?.isNone).Sound := by
  have hlt : (t :: rest).length < (t :: rest).length + 1 := Nat.lt_succ_self _
  have hrecovered : FollowsToken ((t :: rest).length + 1) Sentence.recovered.read
      (Parser.declaration ((t :: rest).length + 1)) :=
    followsToken_recovered (follows_unrecovered (follows_statement_declaration _).1
      (follows_statement_declaration _).2)
  obtain ⟨c', hq, hc⟩ := hrecovered c t rest hlt eof hs
  obtain ⟨stmt?, hvalue⟩ := exists_value_declaration (Nat.zero_lt_of_lt hlt) eof (t :: rest)
  rw [hvalue] at hq
  obtain ⟨within, hcalls, -⟩ := hc.calls
  have hsound := sound_between hlt hvalue hc
  exact ⟨stmt?, _, within, declaration_eq hq, congrArg (List.cons _) hcalls, hsound⟩

end Statements

/-! ## Whole token lists -/

section Lists

variable {n m : Nat} {c : Cursor} {eof : Token} {ts tokens : List Token}

-- A program goes on to the end of the source, whatever errors there are.
private theorem exists_declarations (ts : List Token) (hlt : ts.length < n) (hm : ts.length < m)
    (eof : Token) :
    ∃ ss,
      (Parser.declarations (Parser.declaration n) (fun _ ↦ false) m [] [] eof ts).value = some ss ∧
      (Parser.declarations (Parser.declaration n) (fun _ ↦ false) m [] [] eof ts).rest = [] := by
  induction m generalizing ts with
  | zero => omega
  | succ m ih =>
    cases ts with
    | nil => exact ⟨[], rfl, rfl⟩
    | cons t rest =>
      have hshort := Parser.advances_declaration_of_pos (Nat.zero_lt_of_lt hlt) eof t rest
      simp only [List.length_cons] at hlt hm
      obtain ⟨ss, hvalue, hrest⟩ := ih (Parser.declaration n eof (t :: rest)).rest
        (by omega) (by omega)
      rw [Parser.declarations_cons m eof t rest rfl]
      exact ⟨_, congrArg (Option.map _) hvalue, hrest⟩

/-- A program is always found, and its tokens are all read, with enough fuel. -/
theorem exists_program (hlt : ts.length < n) (eof : Token) :
    ∃ ss, (Parser.program n eof ts).value = some ss ∧ (Parser.program n eof ts).rest = [] :=
  exists_declarations ts hlt hlt eof

-- What is behind an end of the source does not matter.
private theorem body_ending_append (before after : List Token) (he : eof.kind = .eof) :
    Parser.body (before ++ eof :: after) = Parser.body (before ++ [eof]) ∧
      Parser.ending (before ++ eof :: after) = Parser.ending (before ++ [eof]) := by
  constructor
  · simp [Parser.body, List.takeWhile_append, he]
  · simp [Parser.ending, he]

-- Tokens without an end of the source get one behind them.
private theorem terminated_of_forall_ne (h : ∀ t ∈ tokens, t.kind ≠ .eof) :
    terminated tokens = Parser.body tokens ++ [Parser.ending tokens] ∧
      (Parser.ending tokens).kind = .eof := by
  have hfind : tokens.find? (·.kind = .eof) = none := by
    simpa using h
  have hbody : Parser.body tokens = tokens :=
    List.takeWhile_eq_self_iff.mpr (by simpa using h)
  have hlast : tokens.getLast?.any (·.kind == .eof) = false := by
    cases hlast : tokens.getLast? with
    | none => rfl
    | some t => simpa using h t (List.mem_of_getLast? hlast)
  rw [Parser.ending, hfind, hbody, terminated, hlast]
  exact ⟨rfl, rfl⟩

private theorem begins_terminated (tokens : List Token) : tokens <+: terminated tokens := by
  unfold terminated
  split
  · exact List.prefix_refl _
  · exact List.prefix_append _ _

-- At the start all tokens before the first end of the source are ahead.
private theorem stands_start (tokens : List Token) :
    (⟨terminated tokens, 0, [], []⟩ : Cursor).Stands (Parser.ending tokens)
      (Parser.body tokens) := by
  have hleft : ∀ t ∈ Parser.body tokens, t.kind ≠ .eof := fun t ht ↦ by
    simpa using List.mem_takeWhile_imp ht
  have hahead : Parser.body tokens ++ [Parser.ending tokens] <+: terminated tokens ∧
      (Parser.ending tokens).kind = .eof := by
    cases hfind : tokens.find? (·.kind = .eof) with
    | none =>
      have hnone : ∀ t ∈ tokens, t.kind ≠ .eof := by
        simpa using hfind
      obtain ⟨hterminated, hends⟩ := terminated_of_forall_ne hnone
      exact ⟨hterminated ▸ List.prefix_refl _, hends⟩
    | some e =>
      obtain ⟨he, before, after, rfl, hbefore⟩ := List.find?_eq_some_iff_append.mp hfind
      simp only [decide_eq_true_eq] at he
      have hbody : Parser.body (before ++ e :: after) = before := by
        rw [(body_ending_append before after he).1,
          Parser.body_append_end (by simpa using hbefore) he]
      rw [Parser.ending, hfind, hbody]
      refine ⟨.trans ⟨after, ?_⟩ (begins_terminated _), he⟩
      rw [List.append_assoc]
      rfl
  exact ⟨hahead.1, List.forall_mem_nil _, hleft, hahead.2⟩

private theorem outcome_injective {α : Type} :
    Function.Injective (outcome : Option α → Except Halt α) := by
  intro a b h
  cases a <;> cases b <;> cases h <;> rfl

-- Two parsers that do what one on positions does give the same reply, but for the tokens left.
private theorem reply_unique {α : Type} {q : Reader α} {p p' : Parser α} (h : FollowsAt c ts q p)
    (h' : FollowsAt c ts q p') (hs : c.Stands eof ts) :
    (p eof ts).value = (p' eof ts).value ∧ (p eof ts).errors = (p' eof ts).errors := by
  obtain ⟨c₁, hq₁, hc₁⟩ := h eof hs
  obtain ⟨c₂, hq₂, hc₂⟩ := h' eof hs
  rw [hq₁] at hq₂
  simp only [Option.some.injEq, Prod.mk.injEq] at hq₂
  obtain ⟨hvalue, rfl⟩ := hq₂
  exact ⟨outcome_injective hvalue, List.append_cancel_left (hc₁.errors.symm.trans hc₂.errors)⟩

/-- The bounds of a program do not matter if they are large enough. -/
theorem program_unique {k k' m : Nat} (hts : ∀ t ∈ ts, t.kind ≠ .eof) (he : eof.kind = .eof)
    (hk : ts.length < k) (hm : ts.length < m) (hk' : ts.length < k') :
    (Parser.declarations (Parser.declaration k) (fun _ ↦ false) m [] [] eof ts).value =
        (Parser.program k' eof ts).value ∧
      (Parser.declarations (Parser.declaration k) (fun _ ↦ false) m [] [] eof ts).errors =
        (Parser.program k' eof ts).errors := by
  have hs : (⟨ts ++ [eof], 0, [], []⟩ : Cursor).Stands eof ts :=
    ⟨List.prefix_refl _, List.forall_mem_nil _, hts, he⟩
  exact reply_unique (followsAt_program (follows_statement_declaration k).2 hk hm)
    (follows_program (follows_statement_declaration k').2 _ _ hk') hs

private theorem attempt_eq {α : Type} {q : Reader α} {c c' : Cursor} {value : Option α}
    (h : q c = some (outcome value, c')) : attempt q c = some (.ok value, c') := by
  change (q c).bind _ = _
  rw [h]
  cases value <;> rfl

-- A program is parsed up to the first end of the source.
private theorem exists_parse (tokens : List Token) :
    ∃ c, parse tokens = some (.ok (parseTokens tokens).tree, c) ∧
      c.errors = (parseTokens tokens).errors ∧ c.current = (Parser.body tokens).length ∧
      ∀ call ∈ c.calls, call.Sound := by
  have hlt := Parser.length_body_lt_bound tokens
  have hprogram := follows_program (follows_statement_declaration (Parser.bound tokens)).2
  obtain ⟨c, hq, hc⟩ := hprogram _ _ hlt _ (stands_start tokens)
  obtain ⟨ss, hvalue, hrest⟩ := exists_program hlt (Parser.ending tokens)
  obtain ⟨read, hread, hcurrent⟩ := hc.read
  obtain ⟨calls, hcalls, hsound⟩ := hc.calls
  have htree : (parseTokens tokens).tree = ss := congrArg (Option.getD · []) hvalue
  refine ⟨c, hq.trans ?_, hc.errors, ?_, ?_⟩
  · rw [htree, hvalue]
    rfl
  · rw [hread, hrest, List.append_nil, hcurrent, Nat.zero_add]
  · rwa [hcalls, List.append_nil]

-- An expression is parsed as far as possible before the first end of the source.
private theorem exists_parseExpr (tokens : List Token) :
    ∃ c, parseExpr tokens = some (.ok (parseExprTokens tokens).tree, c) ∧
      c.errors = (parseExprTokens tokens).errors ∧ c.current ≤ (Parser.body tokens).length := by
  have hlt := Parser.length_body_lt_bound tokens
  have hwhole := follows_wholeExpression (Parser.bound tokens)
  obtain ⟨c, hq, hc⟩ := hwhole _ _ hlt _ (stands_start tokens)
  obtain ⟨read, hread, hcurrent⟩ := hc.read
  refine ⟨c, attempt_eq hq, hc.errors, ?_⟩
  rw [hread, hcurrent, List.length_append, Nat.zero_add]
  exact Nat.le_add_right _ _

-- What is parsed from tokens does not depend on those behind an end of the source.
private theorem parse_append {before after : List Token} (he : eof.kind = .eof) :
    parseTokens (before ++ eof :: after) = parseTokens (before ++ [eof]) ∧
      parseExprTokens (before ++ eof :: after) = parseExprTokens (before ++ [eof]) := by
  have hlt := Parser.length_body_lt_bound (before ++ eof :: after)
  have hlt' := Parser.length_body_lt_bound (before ++ [eof])
  obtain ⟨hbody, hending⟩ := body_ending_append before after he
  have hs := stands_start (before ++ [eof])
  rw [hbody] at hlt
  unfold parseTokens parseExprTokens Parser.run
  rw [hbody, hending]
  constructor
  · obtain ⟨hvalue, herrors⟩ := reply_unique
      (follows_program (follows_statement_declaration _).2 _ _ hlt)
      (follows_program (follows_statement_declaration _).2 _ _ hlt') hs
    dsimp only
    rw [hvalue, herrors]
  · obtain ⟨hvalue, herrors⟩ := reply_unique (follows_wholeExpression _ _ _ hlt)
      (follows_wholeExpression _ _ _ hlt') hs
    dsimp only
    rw [hvalue, herrors]

end Lists

/-- The parser survives all lists of tokens, wherever there are ends of the source in them: parsing
a program and parsing an expression terminate, and no token is looked up before the first or behind
the last one, nor behind the first end of the source. The results and the errors are those of the
parser on the remaining tokens, so that what is behind an end of the source does not matter. Each
call for a declaration, at top level or in blocks, goes on by a token at least, and if it comes back
without a declaration then it has found errors. So it is wherever there is a token to call for a
declaration at, and the call leaves its record. -/
theorem parser_survives (tokens : List Token) :
    (∃ c, parse tokens = some (.ok (parseTokens tokens).tree, c) ∧
      c.errors = (parseTokens tokens).errors ∧ c.current = (Parser.body tokens).length ∧
      ∀ call ∈ c.calls, call.start < call.stop ∧ (call.dropped = true → call.errors ≠ [])) ∧
    (∃ c, parseExpr tokens = some (.ok (parseExprTokens tokens).tree, c) ∧
      c.errors = (parseExprTokens tokens).errors ∧ c.current ≤ (Parser.body tokens).length) ∧
    (∀ (before after : List Token) (eof : Token), eof.kind = .eof →
      parseTokens (before ++ eof :: after) = parseTokens (before ++ [eof]) ∧
      parseExprTokens (before ++ eof :: after) = parseExprTokens (before ++ [eof])) ∧
    ∀ (c : Cursor) (eof t : Token) (rest : List Token), c.Stands eof (t :: rest) →
      ∃ stmt? c' within, declaration c = some (.ok stmt?, c') ∧ c.current < c'.current ∧
        (stmt? = none → c'.errors.drop c.errors.length ≠ []) ∧
        c'.calls = .between c c' stmt?.isNone :: (within ++ c.calls) := by
  obtain ⟨c, hparse, herrors, hcurrent, hcalls⟩ := exists_parse tokens
  refine ⟨⟨c, hparse, herrors, hcurrent, fun call hcall ↦ ?_⟩, exists_parseExpr tokens,
    fun before after eof he ↦ parse_append he, fun c eof t rest hs ↦ ?_⟩
  · exact ⟨(hcalls call hcall).advances, (hcalls call hcall).reports⟩
  · obtain ⟨stmt?, c', within, hdeclaration, hrecord, hsound⟩ := exists_declaration hs
    refine ⟨stmt?, c', within, hdeclaration, hsound.advances, fun hnone ↦ ?_, hrecord⟩
    exact hsound.reports (by rw [hnone]; rfl)

-- The tokens of two blocks that are not closed before the first end of the source, with a
-- parenthesis in the inner one and a statement behind.
private def unclosedTokens : List Token :=
  [⟨.leftBrace, [123], .nil, 1⟩, ⟨.leftBrace, [123], .nil, 1⟩, ⟨.rightParen, [41], .nil, 1⟩,
    .endOf 2, ⟨.break, [98], .nil, 3⟩, ⟨.semicolon, [59], .nil, 3⟩]

private theorem parse_unclosedTokens : parseTokens unclosedTokens =
    ⟨[], [⟨1, .lexeme [41], .expectExpression⟩, ⟨2, .end, .expectBraceAfterBlock⟩,
      ⟨2, .end, .expectBraceAfterBlock⟩]⟩ := by
  cbv

-- Behind the two braces.
private def withinBlocks : Cursor := ⟨unclosedTokens, 2, [], []⟩

private theorem stands_withinBlocks :
    withinBlocks.Stands (.endOf 2) [⟨.rightParen, [41], .nil, 1⟩] :=
  ⟨⟨[⟨.break, [98], .nil, 3⟩, ⟨.semicolon, [59], .nil, 3⟩], rfl⟩, by decide, by decide, rfl⟩

/-- Both blocks fail at the end of the source, and the statement behind it is not seen. The
declaration within the blocks goes on all the same. -/
theorem parser_survives_unclosed :
    (∃ c, parse unclosedTokens = some (.ok [], c) ∧ c.current = 3 ∧
      c.errors = [⟨1, .lexeme [41], .expectExpression⟩, ⟨2, .end, .expectBraceAfterBlock⟩,
        ⟨2, .end, .expectBraceAfterBlock⟩]) ∧
    parseTokens unclosedTokens = parseTokens (unclosedTokens.take 4) ∧
    ∃ stmt? c', declaration withinBlocks = some (.ok stmt?, c') ∧ 2 < c'.current := by
  obtain ⟨⟨c, hparse, herrors, hcurrent, -⟩, -, hbehind, hdeclaration⟩ :=
    parser_survives unclosedTokens
  rw [parse_unclosedTokens] at hparse herrors
  refine ⟨⟨c, hparse, hcurrent, herrors⟩, ?_, ?_⟩
  · exact (hbehind (unclosedTokens.take 3) (unclosedTokens.drop 4) (.endOf 2) rfl).1
  · obtain ⟨stmt?, c', -, hcall, hfurther, -⟩ := hdeclaration _ _ _ _ stands_withinBlocks
    exact ⟨stmt?, c', hcall, hfurther⟩

end Lox.Indexed
