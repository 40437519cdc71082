import Lox.Proofs.Parser.Makes

/-!
# Places in programs

Errors are found at the token that comes next, or at one that was read, and if there is no next one
at the end of the source. The keyword of a `return`, `break` or `continue` in a program is also a
token that was read. `Parser.Stays P p Q` says both of a parser, for tokens of which `P` holds: each
way of putting parsers together has a rule, and `P` stays true of all tokens that come next.

So whatever the tokens, and however the program was put together, the errors and the keywords are at
tokens that are there (`parseTokens_errors_isAt`, `parseTokens_keywords_mem`).
-/

namespace Lox

mutual

/-- The keywords `return`, `break` and `continue` in a statement. -/
def Stmt.keywords {β : Type} : Stmt β → List Token
  | .block _ body => Stmt.keywordsAll body
  | .ifElse _ _ yes none => yes.keywords
  | .ifElse _ _ yes (some no) => yes.keywords ++ no.keywords
  | .while _ _ body => body.keywords
  | .function _ _ body => Stmt.keywordsAll body
  | .return t _ => [t]
  | .branch t => [t]
  | _ => []

/-- The keywords `return`, `break` and `continue` in several statements. -/
def Stmt.keywordsAll {β : Type} : List (Stmt β) → List Token
  | [] => []
  | s :: ss => s.keywords ++ Stmt.keywordsAll ss

end

private theorem Stmt.mem_keywordsAll {β : Type} {ss : List (Stmt β)} {t : Token} :
    t ∈ Stmt.keywordsAll ss ↔ ∃ s ∈ ss, t ∈ s.keywords := by
  induction ss with
  | nil => simp [Stmt.keywordsAll]
  | cons s ss ih => simp [Stmt.keywordsAll, ih]

/-- The error is at a token with `P`. -/
def StaticError.IsAt (e : StaticError) (P : Token → Prop) : Prop :=
  ∃ t reason, P t ∧ e = .ofToken t reason

namespace Parser

section Rules

variable {α β : Type} {P : Token → Prop} {Q : α → Prop} {Q' : β → Prop} {eof : Token}
  {ts : List Token}

/-- The tokens left have `P`, errors are at tokens with `P` or at the end of the source, and the
value has `Q`. -/
structure Among (P : Token → Prop) (eof : Token) (Q : α → Prop) (R : Reply α) : Prop where
  rest : ∀ t ∈ R.rest, P t
  errors : ∀ e ∈ R.errors, e.IsAt fun t ↦ t = eof ∨ P t
  value : ∀ a, R.value = some a → Q a

/-- On tokens with `P` a parser leaves such tokens and finds errors at such tokens, or at the end of
the source, and what it yields has `Q`. -/
def Stays (P : Token → Prop) (p : Parser α) (Q : α → Prop) : Prop :=
  ∀ eof ts, (∀ t ∈ ts, P t) → Among P eof Q (p eof ts)

private theorem stays_succeed {a : α} (h : Q a) : Stays P (succeed a) Q := by
  intro eof ts hts
  refine ⟨hts, List.forall_mem_nil _, fun b hb ↦ ?_⟩
  cases hb
  exact h

private theorem stays_giveUp : Stays P (giveUp : Parser α) Q :=
  fun _ _ hts ↦ ⟨hts, List.forall_mem_nil _, nofun⟩

-- What comes next is a place for errors.
private theorem isAt_headD (hts : ∀ t ∈ ts, P t) (reason : StaticError.Reason) :
    ∀ e ∈ [StaticError.ofToken (ts.headD eof) reason], e.IsAt fun t ↦ t = eof ∨ P t := by
  intro e he
  rw [List.mem_singleton.mp he]
  cases ts with
  | nil => exact ⟨eof, reason, .inl rfl, rfl⟩
  | cons t rest => exact ⟨t, reason, .inr (hts t List.mem_cons_self), rfl⟩

private theorem stays_fail (reason : StaticError.Reason) : Stays P (fail reason : Parser α) Q :=
  fun _ _ hts ↦ ⟨hts, isAt_headD hts reason, nofun⟩

private theorem stays_bind {p : Parser α} {f : α → Parser β} (hp : Stays P p Q)
    (hf : ∀ a, Q a → Stays P (f a) Q') : Stays P (p >>= f) Q' := by
  intro eof ts hts
  obtain ⟨hrest, herrors, hvalue⟩ := hp eof ts hts
  change Among P eof Q' (andThen p f eof ts)
  unfold andThen
  rcases ho : p eof ts with ⟨_ | a, rest, errors⟩ <;> rw [ho] at hrest herrors hvalue
  · exact ⟨hrest, herrors, nofun⟩
  · have hthen := hf a (hvalue a rfl) eof rest hrest
    exact ⟨hthen.rest, List.forall_mem_append.mpr ⟨herrors, hthen.errors⟩, hthen.value⟩

/-- What a parser yields may not matter for the next one. -/
theorem stays_then {p : Parser α} {f : α → Parser β} (hp : Stays P p fun _ ↦ True)
    (hf : ∀ a, Stays P (f a) Q') : Stays P (p >>= f) Q' :=
  stays_bind hp fun a _ ↦ hf a

private theorem stays_accept? {kinds : List Kind} {f : Option Token → Parser β}
    (hnone : Stays P (f none) Q') (hsome : ∀ t, P t → Stays P (f (some t)) Q') :
    Stays P (accept? kinds >>= f) Q' := by
  apply stays_bind (Q := fun t? : Option Token ↦ ∀ t, t? = some t → P t)
  · intro eof ts hts
    unfold accept?
    cases ts with
    | nil => exact ⟨hts, List.forall_mem_nil _, by simp⟩
    | cons t rest =>
      obtain ⟨ht, hrest⟩ := List.forall_mem_cons.mp hts
      by_cases hk : t.kind ∈ kinds
      · simp only [hk, if_true]
        exact ⟨hrest, List.forall_mem_nil _, by simpa using ht⟩
      · simp only [hk, if_false]
        exact ⟨hts, List.forall_mem_nil _, by simp⟩
  · intro t? ht
    cases t? with
    | none => exact hnone
    | some t => exact hsome t (ht t rfl)

private theorem stays_expect {k : Kind} {reason : StaticError.Reason} :
    Stays P (expect k reason) fun _ ↦ True := by
  intro eof ts hts
  unfold expect
  cases ts with
  | nil => exact stays_fail reason eof [] hts
  | cons t rest =>
    by_cases hk : t.kind = k
    · simp only [hk, if_true]
      exact ⟨(List.forall_mem_cons.mp hts).2, List.forall_mem_nil _, fun _ _ ↦ trivial⟩
    · simp only [hk, if_false]
      exact stays_fail reason eof (t :: rest) hts

private theorem stays_next {k : Kind} : Stays P (next k) fun _ ↦ True :=
  fun _ _ hts ↦ ⟨hts, List.forall_mem_nil _, fun _ _ ↦ trivial⟩

private theorem stays_report {t : Token} (ht : P t) (reason : StaticError.Reason) :
    Stays P (report t reason) fun _ ↦ True :=
  fun _ _ hts ↦
    ⟨hts, List.forall_mem_singleton.mpr ⟨t, reason, .inr ht, rfl⟩, fun _ _ ↦ trivial⟩

private theorem stays_reportHere (reason : StaticError.Reason) :
    Stays P (reportHere reason) fun _ ↦ True :=
  fun _ _ hts ↦ ⟨hts, isAt_headD hts reason, fun _ _ ↦ trivial⟩

/-- An error may be reported before. -/
theorem stays_reportHere_if {c : Prop} [Decidable c] {reason : StaticError.Reason} {p : Parser α}
    (hp : Stays P p Q) : Stays P (if c then reportHere reason >>= fun _ ↦ p else p) Q := by
  split
  · exact stays_then (stays_reportHere reason) fun _ ↦ hp
  · exact hp

end Rules

/-! ## Expressions -/

section Expressions

variable {P : Token → Prop} {expr : Parser (Expr Unit)}

private theorem stays_chainFrom {operand : Parser (Expr Unit)} (h : Stays P operand fun _ ↦ True)
    (ops : List Kind) (node : Expr Unit → Token → Expr Unit → Expr Unit) (n : Nat) (x : Expr Unit) :
    Stays P (chainFrom operand ops node n x) fun _ ↦ True := by
  induction n generalizing x with
  | zero => exact stays_giveUp
  | succ n ih =>
    apply stays_accept?
    · exact stays_succeed trivial
    · intro op _
      exact stays_then h fun y ↦ ih (node x op y)

private theorem stays_chain {operand : Parser (Expr Unit)} (h : Stays P operand fun _ ↦ True)
    (ops : List Kind) (node : Expr Unit → Token → Expr Unit → Expr Unit) (n : Nat) :
    Stays P (chain operand ops node n) fun _ ↦ True :=
  stays_then h fun x ↦ stays_chainFrom h ops node n x

private theorem stays_primary (he : Stays P expr fun _ ↦ True) :
    Stays P (primary expr) fun _ ↦ True := by
  apply stays_accept?
  · exact stays_fail _
  · intro t _
    dsimp only
    split
    case h_5 => exact stays_then he fun _ ↦ stays_then stays_expect fun _ ↦ stays_succeed trivial
    all_goals exact stays_succeed trivial

private theorem stays_arguments (he : Stays P expr fun _ ↦ True) (n count : Nat) :
    Stays P (arguments expr n count) fun _ ↦ True := by
  induction n generalizing count with
  | zero => exact stays_giveUp
  | succ n ih =>
    apply stays_reportHere_if
    apply stays_then he
    intro x
    apply stays_accept?
    · exact stays_succeed trivial
    · intro t _
      exact stays_then (ih (count + 1)) fun _ ↦ stays_succeed trivial

private theorem stays_finishCall (he : Stays P expr fun _ ↦ True) (n : Nat) (callee : Expr Unit) :
    Stays P (finishCall expr n callee) fun _ ↦ True := by
  have hend : ∀ args, Stays P (do
      let paren ← expect .rightParen .expectParenAfterArguments
      succeed (Expr.call callee paren args)) fun _ ↦ True :=
    fun args ↦ stays_then stays_expect fun _ ↦ stays_succeed trivial
  apply stays_then stays_next
  intro b
  cases b with
  | true => exact stays_then (stays_succeed trivial) hend
  | false => exact stays_then (stays_arguments he n 0) hend

private theorem stays_callsFrom (he : Stays P expr fun _ ↦ True) (n : Nat) (x : Expr Unit) :
    Stays P (callsFrom expr n x) fun _ ↦ True := by
  induction n generalizing x with
  | zero => exact stays_giveUp
  | succ n ih =>
    apply stays_accept?
    · exact stays_succeed trivial
    · intro t _
      exact stays_then (stays_finishCall he (n + 1) x) ih

private theorem stays_unary (he : Stays P expr fun _ ↦ True) (n : Nat) :
    Stays P (unary expr n) fun _ ↦ True := by
  induction n with
  | zero => exact stays_giveUp
  | succ n ih =>
    apply stays_accept?
    · exact stays_then (stays_primary he) fun x ↦ stays_callsFrom he (n + 1) x
    · intro op _
      exact stays_then ih fun _ ↦ stays_succeed trivial

private theorem stays_disjunction (he : Stays P expr fun _ ↦ True) (n : Nat) :
    Stays P (disjunction expr n) fun _ ↦ True := by
  have hfactor : Stays P (factor expr n) fun _ ↦ True := stays_chain (stays_unary he n) _ _ n
  have hterm : Stays P (term expr n) fun _ ↦ True := stays_chain hfactor _ _ n
  have hcomparison : Stays P (comparison expr n) fun _ ↦ True := stays_chain hterm _ _ n
  have hequality : Stays P (equality expr n) fun _ ↦ True := stays_chain hcomparison _ _ n
  exact stays_chain (stays_chain hequality _ _ n) _ _ n

private theorem stays_expression (n : Nat) : Stays P (expression n) fun _ ↦ True := by
  induction n with
  | zero => exact stays_giveUp
  | succ n ih =>
    apply stays_then (stays_disjunction ih (n + 1))
    intro x
    apply stays_accept?
    · exact stays_succeed trivial
    · intro equals hequals
      apply stays_then ih
      intro value
      split
      · exact stays_succeed trivial
      · exact stays_then (stays_report hequals _) fun _ ↦ stays_succeed trivial

private theorem stays_expressionUnless (k : Kind) (n : Nat) :
    Stays P (expressionUnless k n) fun _ ↦ True := by
  apply stays_then stays_next
  intro b
  split
  · exact stays_succeed trivial
  · exact stays_then (stays_expression n) fun _ ↦ stays_succeed trivial

end Expressions

/-! ## Statements -/

/-- The keywords in a statement have `P`. -/
def Keyed (P : Token → Prop) (s : Stmt Unit) : Prop := ∀ t ∈ s.keywords, P t

/-- The keywords in several statements have `P`. -/
def AllKeyed (P : Token → Prop) (ss : List (Stmt Unit)) : Prop := ∀ s ∈ ss, Keyed P s

/-- The keywords in a statement, if there is one, have `P`. -/
def OptKeyed (P : Token → Prop) (s? : Option (Stmt Unit)) : Prop := ∀ s, s? = some s → Keyed P s

section Statements

variable {P : Token → Prop} {statement : Parser (Stmt Unit)}
  {declaration : Parser (Option (Stmt Unit))}

private theorem AllKeyed.keywords {ss : List (Stmt Unit)} (h : AllKeyed P ss) :
    ∀ t ∈ Stmt.keywordsAll ss, P t := by
  intro t ht
  obtain ⟨s, hs, ht⟩ := Stmt.mem_keywordsAll.mp ht
  exact h s hs t ht

-- A statement without keywords in it.
private theorem keyed_of_keywords {s : Stmt Unit} (h : s.keywords = []) : Keyed P s := by
  intro t ht
  rw [h] at ht
  cases ht

private theorem optKeyed_some {s : Stmt Unit} (h : Keyed P s) : OptKeyed P (some s) := by
  intro s' heq
  cases heq
  exact h

private theorem stays_declarations (hd : Stays P declaration (OptKeyed P)) (closes : Kind → Bool)
    (n : Nat) {stmts : List (Stmt Unit)} {errors : List StaticError} (hs : AllKeyed P stmts)
    {eof : Token} (he : ∀ e ∈ errors, e.IsAt fun t ↦ t = eof ∨ P t) {ts : List Token}
    (hts : ∀ t ∈ ts, P t) :
    Among P eof (AllKeyed P) (declarations declaration closes n stmts errors eof ts) := by
  have herrors : ∀ e ∈ errors.reverse, e.IsAt fun t ↦ t = eof ∨ P t :=
    fun e h ↦ he e (List.mem_reverse.mp h)
  induction n generalizing stmts errors ts with
  | zero => exact ⟨hts, herrors, nofun⟩
  | succ n ih =>
    have hstop : ∀ ss, some stmts.reverse = some ss → AllKeyed P ss := by
      intro ss heq
      cases heq
      exact fun s h ↦ hs s (List.mem_reverse.mp h)
    cases ts with
    | nil => exact ⟨hts, herrors, hstop⟩
    | cons t rest =>
      by_cases hc : closes t.kind
      · simp only [declarations, hc, if_true]
        exact ⟨hts, herrors, hstop⟩
      · simp only [declarations, hc, Bool.false_eq_true, if_false]
        obtain ⟨hrest, hfound, hvalue⟩ := hd eof (t :: rest) hts
        rcases ho : declaration eof (t :: rest) with ⟨s?, rest', es⟩
        rw [ho] at hrest hfound hvalue
        have he' : ∀ e ∈ es.reverse ++ errors, e.IsAt fun t ↦ t = eof ∨ P t :=
          List.forall_mem_append.mpr ⟨fun e h ↦ hfound e (List.mem_reverse.mp h), he⟩
        have herrors' : ∀ e ∈ (es.reverse ++ errors).reverse, e.IsAt fun t ↦ t = eof ∨ P t :=
          fun e h ↦ he' e (List.mem_reverse.mp h)
        rcases s? with _ | _ | s
        · exact ih hs he' hrest herrors'
        · exact ih hs he' hrest herrors'
        · exact ih (List.forall_mem_cons.mpr ⟨hvalue _ rfl s rfl, hs⟩) he' hrest herrors'

private theorem stays_block (hd : Stays P declaration (OptKeyed P)) (n : Nat) :
    Stays P (block declaration n) (AllKeyed P) := by
  apply stays_bind (Q := AllKeyed P)
  · intro eof ts hts
    exact stays_declarations hd _ n (List.forall_mem_nil _) (List.forall_mem_nil _) hts
  · intro body hbody
    exact stays_then stays_expect fun _ ↦ stays_succeed hbody

private theorem stays_varDeclaration (n : Nat) : Stays P (varDeclaration n) (Keyed P) := by
  apply stays_then stays_expect
  intro name
  apply stays_accept?
  · exact stays_then stays_expect fun _ ↦ stays_succeed (keyed_of_keywords rfl)
  · intro _ _
    apply stays_then (stays_expression n)
    intro init
    exact stays_then stays_expect fun _ ↦ stays_succeed (keyed_of_keywords rfl)

private theorem stays_expressionStatement (n : Nat) :
    Stays P (expressionStatement n) (Keyed P) :=
  stays_then (stays_expression n) fun _ ↦ stays_then stays_expect fun _ ↦
    stays_succeed (keyed_of_keywords rfl)

private theorem stays_initializer (n : Nat) : Stays P (initializer n) (OptKeyed P) := by
  apply stays_accept?
  · exact stays_bind (stays_expressionStatement n) fun s hs ↦ stays_succeed (optKeyed_some hs)
  · intro t _
    dsimp only
    split
    · exact stays_succeed nofun
    · exact stays_bind (stays_varDeclaration n) fun s hs ↦ stays_succeed (optKeyed_some hs)

private theorem keyed_forLoop (keyword : Token) {init : Option (Stmt Unit)}
    (hinit : OptKeyed P init) (test increment : Option (Expr Unit)) {body : Stmt Unit}
    (hbody : Keyed P body) : Keyed P (forLoop keyword init test increment body) := by
  cases init <;> cases increment <;>
    simp_all [forLoop, OptKeyed, Keyed, Stmt.keywords, Stmt.keywordsAll, or_imp]

private theorem stays_statementWith (hs : Stays P statement (Keyed P))
    (hd : Stays P declaration (OptKeyed P)) (n : Nat) :
    Stays P (statementWith statement declaration n) (Keyed P) := by
  apply stays_accept? (stays_expressionStatement n)
  intro t ht
  have hkeyword : ∀ s : Stmt Unit, s.keywords = [t] → Keyed P s := by
    intro s hkeywords t' ht'
    rw [hkeywords] at ht'
    rw [List.mem_singleton.mp ht']
    exact ht
  dsimp only
  split
  · apply stays_then stays_expect
    intro _
    apply stays_bind (stays_initializer n)
    intro init hinit
    apply stays_then (stays_expressionUnless _ n)
    intro test
    apply stays_then stays_expect
    intro _
    apply stays_then (stays_expressionUnless _ n)
    intro increment
    exact stays_then stays_expect fun _ ↦ stays_bind hs fun body hbody ↦
      stays_succeed (keyed_forLoop t hinit test increment hbody)
  · apply stays_then stays_expect
    intro _
    apply stays_then (stays_expression n)
    intro test
    apply stays_then stays_expect
    intro _
    apply stays_bind hs
    intro yes hyes
    apply stays_accept?
    · exact stays_succeed hyes
    · intro _ _
      exact stays_bind hs fun no hno ↦ stays_succeed (List.forall_mem_append.mpr ⟨hyes, hno⟩)
  · exact stays_then (stays_expression n) fun _ ↦ stays_then stays_expect fun _ ↦
      stays_succeed (keyed_of_keywords rfl)
  · exact stays_then (stays_expressionUnless _ n) fun _ ↦ stays_then stays_expect fun _ ↦
      stays_succeed (hkeyword _ rfl)
  · apply stays_then stays_expect
    intro _
    apply stays_then (stays_expression n)
    intro test
    exact stays_then stays_expect fun _ ↦ stays_bind hs fun body hbody ↦ stays_succeed hbody
  · exact stays_bind (stays_block hd n) fun body hbody ↦ stays_succeed hbody.keywords
  · exact stays_then stays_expect fun _ ↦ stays_succeed (hkeyword _ rfl)

private theorem stays_parameters (n count : Nat) :
    Stays P (parameters n count) fun _ ↦ True := by
  induction n generalizing count with
  | zero => exact stays_giveUp
  | succ n ih =>
    apply stays_reportHere_if
    apply stays_then stays_expect
    intro p
    apply stays_accept?
    · exact stays_succeed trivial
    · intro _ _
      exact stays_then (ih (count + 1)) fun _ ↦ stays_succeed trivial

private theorem stays_funDeclaration (hd : Stays P declaration (OptKeyed P)) (n : Nat) :
    Stays P (funDeclaration declaration n) (Keyed P) := by
  have hend : ∀ (name : Token) (params : List Token), Stays P (do
      let _ ← expect .rightParen .expectParenAfterParameters
      let _ ← expect .leftBrace .expectBraceBeforeBody
      let body ← block declaration n
      succeed (.function name params body)) (Keyed P) :=
    fun name params ↦ stays_then stays_expect fun _ ↦ stays_then stays_expect fun _ ↦
      stays_bind (stays_block hd n) fun body hbody ↦ stays_succeed hbody.keywords
  apply stays_then stays_expect
  intro name
  apply stays_then stays_expect
  intro _
  apply stays_then stays_next
  intro b
  cases b with
  | true => exact stays_then (stays_succeed trivial) (hend name)
  | false => exact stays_then (stays_parameters n 0) (hend name)

private theorem stays_recovering {p : Parser (Stmt Unit)} (hp : Stays P p (Keyed P)) :
    Stays P (recovering p) (OptKeyed P) := by
  intro eof ts hts
  obtain ⟨hrest, herrors, hvalue⟩ := hp eof ts hts
  unfold recovering
  rcases ho : p eof ts with ⟨_ | s, rest, errors⟩ <;> rw [ho] at hrest herrors hvalue
  · refine ⟨fun t ht ↦ hrest t ((synchronize_suffix rest).mem ht), herrors, fun s? hs? ↦ ?_⟩
    cases hs?
    exact nofun
  · refine ⟨hrest, herrors, fun s? hs? ↦ ?_⟩
    cases hs?
    exact optKeyed_some (hvalue s rfl)

private theorem stays_declarationWith (hs : Stays P statement (Keyed P))
    (hd : Stays P declaration (OptKeyed P)) (n : Nat) :
    Stays P (declarationWith statement declaration n) (OptKeyed P) := by
  apply stays_recovering
  apply stays_accept? hs
  intro t _
  dsimp only
  split
  · exact stays_funDeclaration hd n
  · exact stays_varDeclaration n

private theorem stays_statement_declaration (n : Nat) :
    Stays P (Parser.statement n) (Keyed P) ∧ Stays P (Parser.declaration n) (OptKeyed P) := by
  induction n with
  | zero => exact ⟨stays_giveUp, stays_giveUp⟩
  | succ n ih =>
    have hs := stays_statementWith ih.1 ih.2 (n + 1)
    exact ⟨hs, stays_declarationWith hs ih.2 (n + 1)⟩

private theorem stays_program (n : Nat) : Stays P (program n) (AllKeyed P) :=
  fun _ _ hts ↦ stays_declarations (stays_statement_declaration n).2 _ n (List.forall_mem_nil _)
    (List.forall_mem_nil _) hts

end Statements

end Parser

private theorem among_program (ts : List Token) :
    Parser.Among (· ∈ Parser.body ts) (Parser.ending ts) (Parser.AllKeyed (· ∈ Parser.body ts))
      (Parser.program (Parser.bound ts) (Parser.ending ts) (Parser.body ts)) :=
  Parser.stays_program (Parser.bound ts) (Parser.ending ts) (Parser.body ts) fun _ ht ↦ ht

/-- Whatever the tokens, errors are at one of them that is before the end of the source, or
there. -/
theorem parseTokens_errors_isAt (ts : List Token) :
    ∀ e ∈ (parseTokens ts).errors, e.IsAt fun t ↦ t = Parser.ending ts ∨ t ∈ Parser.body ts :=
  (among_program ts).errors

/-- Whatever the tokens, the keywords in the statements that are parsed from them are tokens before
the end of the source. -/
theorem parseTokens_keywords_mem (ts : List Token) :
    ∀ t ∈ Stmt.keywordsAll (parseTokens ts).tree, t ∈ Parser.body ts := by
  have htree : (parseTokens ts).tree = ((Parser.program (Parser.bound ts))
      (Parser.ending ts) (Parser.body ts)).value.getD [] := rfl
  rw [htree]
  cases ho : (Parser.program (Parser.bound ts) (Parser.ending ts) (Parser.body ts)).value with
  | none => exact List.forall_mem_nil _
  | some tree => exact ((among_program ts).value tree ho).keywords

/-- Whatever the tokens, no keyword in the statements that are parsed from them is the end of the
source. -/
theorem parseTokens_keywords (ts : List Token) :
    ∀ t ∈ Stmt.keywordsAll (parseTokens ts).tree, t.kind ≠ .eof := by
  intro t ht
  simpa using List.all_eq_true.mp List.all_takeWhile t (parseTokens_keywords_mem ts t ht)

end Lox
