import Lox.Syntax.Parse
import Lox.Proofs.Syntax.Formed
import Mathlib.Algebra.Order.Group.Multiset

/-!
# What parsers make of the tokens they read

A parser reads tokens off the front of its list, in order, and what it yields is made of these:
`Parser.Makes p Q` says that `Q` holds of the tokens read and the value yielded. Each way of
putting parsers together has a rule. The result is that every expression and every statement is
formed as the grammar says, that at least one token was read for it, and that the names in it are
names among the tokens read, none of them used twice.
-/

namespace Lox.Parser

/-- A parser takes the tokens it reads off the front, and `Q` holds of them and of its value. -/
def Makes {α : Type} (p : Parser α) (Q : List Token → α → Prop) : Prop :=
  ∀ eof ts, ∃ read, ts = read ++ (p eof ts).rest ∧ ∀ a, (p eof ts).value = some a → Q read a

section Rules

variable {α β : Type}

private theorem makes_succeed {a : α} {Q : List Token → α → Prop} (h : Q [] a) :
    Makes (succeed a) Q := by
  intro eof ts
  refine ⟨[], rfl, fun b hb ↦ ?_⟩
  cases hb
  exact h

private theorem makes_giveUp (Q : List Token → α → Prop) : Makes (giveUp : Parser α) Q :=
  fun _ _ ↦ ⟨[], rfl, fun _ hb ↦ nomatch hb⟩

private theorem makes_fail (reason : StaticError.Reason) (Q : List Token → α → Prop) :
    Makes (fail reason : Parser α) Q :=
  fun _ _ ↦ ⟨[], rfl, fun _ hb ↦ nomatch hb⟩

/-- Parsers one after the other read what they read one after the other. -/
theorem makes_bind {p : Parser α} {f : α → Parser β} {Q : List Token → α → Prop}
    {Q' : List Token → β → Prop} (hp : Makes p Q)
    (hf : ∀ r a, Q r a → Makes (f a) fun r' b ↦ Q' (r ++ r') b) : Makes (p >>= f) Q' := by
  intro eof ts
  obtain ⟨r, hr, hQ⟩ := hp eof ts
  change ∃ read, ts = read ++ (andThen p f eof ts).rest ∧
    ∀ b, (andThen p f eof ts).value = some b → Q' read b
  unfold andThen
  rcases ho : p eof ts with ⟨_ | a, rest, errors⟩
  · rw [ho] at hr
    exact ⟨r, hr, fun _ hb ↦ nomatch hb⟩
  · rw [ho] at hr hQ
    obtain ⟨r', hr', hQ'⟩ := hf r a (hQ a rfl) eof rest
    refine ⟨r ++ r', ?_, hQ'⟩
    rw [hr, List.append_assoc]
    exact congrArg (r ++ ·) hr'

private theorem makes_mono {p : Parser α} {Q Q' : List Token → α → Prop} (hp : Makes p Q)
    (h : ∀ r a, Q r a → Q' r a) : Makes p Q' := by
  intro eof ts
  obtain ⟨r, hr, hQ⟩ := hp eof ts
  exact ⟨r, hr, fun a ha ↦ h r a (hQ a ha)⟩

private theorem makes_ite {p p' : Parser α} {Q : List Token → α → Prop} {c : Prop} [Decidable c]
    (h : Makes p Q) (h' : Makes p' Q) : Makes (if c then p else p') Q := by
  split
  · exact h
  · exact h'

/-- Asking for a token of some kinds reads it if it is there, and nothing if not. -/
theorem makes_accept? {kinds : List Kind} {f : Option Token → Parser α} {Q : List Token → α → Prop}
    (hnone : Makes (f none) Q)
    (hsome : ∀ t, t.kind ∈ kinds → Makes (f (some t)) fun r a ↦ Q (t :: r) a) :
    Makes (accept? kinds >>= f) Q := by
  apply makes_bind (Q := fun r t? ↦
    (r = [] ∧ t? = none) ∨ ∃ t, t.kind ∈ kinds ∧ r = [t] ∧ t? = some t)
  · intro eof ts
    unfold accept?
    cases ts with
    | nil =>
      refine ⟨[], rfl, fun a ha ↦ ?_⟩
      cases ha
      exact .inl ⟨rfl, rfl⟩
    | cons t rest =>
      by_cases hk : t.kind ∈ kinds
      · simp only [hk, if_true]
        refine ⟨[t], rfl, fun a ha ↦ ?_⟩
        cases ha
        exact .inr ⟨t, hk, rfl, rfl⟩
      · simp only [hk, if_false]
        refine ⟨[], rfl, fun a ha ↦ ?_⟩
        cases ha
        exact .inl ⟨rfl, rfl⟩
  · rintro r t? (⟨rfl, rfl⟩ | ⟨t, hk, rfl, rfl⟩)
    · exact hnone
    · exact hsome t hk

/-- Demanding a token of a kind reads it. -/
theorem makes_expect {k : Kind} {reason : StaticError.Reason} {f : Token → Parser α}
    {Q : List Token → α → Prop}
    (h : ∀ t, t.kind = k → Makes (f t) fun r a ↦ Q (t :: r) a) :
    Makes (expect k reason >>= f) Q := by
  apply makes_bind (Q := fun r t ↦ t.kind = k ∧ r = [t])
  · intro eof ts
    unfold expect
    cases ts with
    | nil => exact ⟨[], rfl, fun _ ha ↦ nomatch ha⟩
    | cons t rest =>
      by_cases hk : t.kind = k
      · simp only [hk, if_true]
        refine ⟨[t], rfl, fun a ha ↦ ?_⟩
        cases ha
        exact ⟨hk, rfl⟩
      · simp only [hk, if_false]
        exact ⟨[], rfl, fun _ ha ↦ nomatch ha⟩
  · rintro r t ⟨hk, rfl⟩
    exact h t hk

/-- Looking at the next token reads nothing. -/
theorem makes_next {k : Kind} {f : Bool → Parser α} {Q : List Token → α → Prop}
    (h : ∀ b, Makes (f b) Q) : Makes (next k >>= f) Q :=
  makes_bind (Q := fun r _ ↦ r = []) (fun _ _ ↦ ⟨[], rfl, fun _ _ ↦ rfl⟩) fun r b hr ↦ by
    subst hr
    exact h b

private theorem makes_atEnd {f : Bool → Parser α} {Q : List Token → α → Prop}
    (h : ∀ b, Makes (f b) Q) : Makes (atEnd >>= f) Q :=
  makes_bind (Q := fun r _ ↦ r = []) (fun _ _ ↦ ⟨[], rfl, fun _ _ ↦ rfl⟩) fun r b hr ↦ by
    subst hr
    exact h b

/-- Recording an error reads nothing. -/
theorem makes_report {t : Token} {reason : StaticError.Reason} {f : Unit → Parser α}
    {Q : List Token → α → Prop} (h : Makes (f ()) Q) : Makes (report t reason >>= f) Q :=
  makes_bind (Q := fun r _ ↦ r = []) (fun _ _ ↦ ⟨[], rfl, fun _ _ ↦ rfl⟩) fun r _ hr ↦ by
    subst hr
    exact h

private theorem makes_reportHere {reason : StaticError.Reason} {f : Unit → Parser α}
    {Q : List Token → α → Prop} (h : Makes (f ()) Q) : Makes (reportHere reason >>= f) Q :=
  makes_bind (Q := fun r _ ↦ r = []) (fun _ _ ↦ ⟨[], rfl, fun _ _ ↦ rfl⟩) fun r _ hr ↦ by
    subst hr
    exact h

/-- An error may be reported before. -/
theorem makes_reportHere_if {c : Prop} [Decidable c] {reason : StaticError.Reason} {p : Parser α}
    {Q : List Token → α → Prop} (h : Makes p Q) :
    Makes (if c then reportHere reason >>= fun _ ↦ p else p) Q := by
  split
  · exact makes_reportHere h
  · exact h

end Rules

/-! ## Expressions -/

/-- Names are among the tokens read, each as often as it occurs. -/
structure Within (names read : List Token) : Prop where
  le : (names : Multiset Token) ≤ read
  kind : ∀ t ∈ names, t.kind = .identifier

private theorem within_nil (r : List Token) : Within [] r :=
  ⟨Multiset.zero_le _, List.forall_mem_nil _⟩

private theorem within_singleton {t : Token} (ht : t.kind = .identifier) : Within [t] [t] :=
  ⟨le_refl _, List.forall_mem_singleton.mpr ht⟩

private theorem Within.append {a b r r' : List Token} (ha : Within a r) (hb : Within b r') :
    Within (a ++ b) (r ++ r') := by
  refine ⟨?_, List.forall_mem_append.mpr ⟨ha.kind, hb.kind⟩⟩
  rw [← Multiset.coe_add, ← Multiset.coe_add]
  exact add_le_add ha.le hb.le

private theorem Within.append_right {a r : List Token} (ha : Within a r) (r' : List Token) :
    Within a (r ++ r') := by
  have h := ha.append (within_nil r')
  rwa [List.append_nil] at h

private theorem Within.cons {a r : List Token} (ha : Within a r) (t : Token) : Within a (t :: r) :=
  (within_nil [t]).append ha

private theorem Within.perm {a b r : List Token} (hb : Within b r) (h : a.Perm b) : Within a r :=
  ⟨(Multiset.coe_eq_coe.mpr h).trans_le hb.le, fun t ht ↦ hb.kind t (h.mem_iff.mp ht)⟩

private theorem Within.cons_cons {a r : List Token} (ha : Within a r) {t : Token}
    (ht : t.kind = .identifier) : Within (t :: a) (t :: r) :=
  (within_singleton ht).append ha

/-- An expression is formed, was made of at least one token, and has its names from the tokens. -/
structure Built (read : List Token) (e : Expr Unit) : Prop where
  formed : e.Formed
  nonempty : read ≠ []
  names : Within e.names read

/-- A node between two operands, for an operator of one of the kinds. -/
structure Joins (ops : List Kind) (node : Expr Unit → Token → Expr Unit → Expr Unit) : Prop where
  formed : ∀ x op y, x.Formed → op.kind ∈ ops → y.Formed → (node x op y).Formed
  names : ∀ x op y, (node x op y).names = x.names ++ y.names

private theorem joins_binary {ops : List Kind} (h : ∀ k ∈ ops, k ∈ Kind.binary) :
    Joins ops .binary where
  formed _ _ _ hx hop hy := ⟨hx, h _ hop, hy⟩
  names _ _ _ := rfl

private theorem joins_logical (ops : List Kind) : Joins ops .logical where
  formed _ _ _ hx _ hy := ⟨hx, hy⟩
  names _ _ _ := rfl

private theorem makes_chainFrom {operand : Parser (Expr Unit)} {ops : List Kind}
    {node : Expr Unit → Token → Expr Unit → Expr Unit} (hop : Makes operand Built)
    (hnode : Joins ops node) (n : Nat) {r : List Token} {x : Expr Unit} (hx : Built r x) :
    Makes (chainFrom operand ops node n x) fun r' e ↦ Built (r ++ r') e := by
  induction n generalizing r x with
  | zero => exact makes_giveUp _
  | succ n ih =>
    apply makes_accept?
    · exact makes_succeed (by simpa using hx)
    · intro op hk
      apply makes_bind hop
      intro r₁ y hy
      have hxy : Built (r ++ op :: r₁) (node x op y) := by
        refine ⟨hnode.formed x op y hx.formed hk hy.formed, by simp, ?_⟩
        rw [hnode.names]
        exact hx.names.append (hy.names.cons op)
      simpa using ih hxy

private theorem makes_chain {operand : Parser (Expr Unit)} {ops : List Kind}
    {node : Expr Unit → Token → Expr Unit → Expr Unit} (hop : Makes operand Built)
    (hnode : Joins ops node) (n : Nat) : Makes (chain operand ops node n) Built :=
  makes_bind hop fun _ _ hx ↦ makes_chainFrom hop hnode n hx

private theorem built_literal (t : Token) (v : Literal) : Built [t] (.literal t v) :=
  ⟨trivial, by simp, within_nil _⟩

private theorem makes_primary {expr : Parser (Expr Unit)} (he : Makes expr Built) :
    Makes (primary expr) Built := by
  apply makes_accept?
  · exact makes_fail _ _
  · intro t hk
    dsimp only
    split
    · exact makes_succeed (built_literal t _)
    · exact makes_succeed (built_literal t _)
    · exact makes_succeed (built_literal t _)
    · next ht => exact makes_succeed ⟨trivial, by simp, within_singleton ht⟩
    · apply makes_bind he
      intro r x hx
      apply makes_expect
      intro t' _
      apply makes_succeed
      refine ⟨hx.formed, by simp, ?_⟩
      exact (hx.names.append_right [t']).cons t
    · exact makes_succeed (built_literal t _)

/-- Several expressions are formed and have their names from the tokens. -/
structure BuiltAll (read : List Token) (es : List (Expr Unit)) : Prop where
  formed : Expr.AllFormed es
  names : Within (Expr.namesAll es) read

private theorem makes_arguments {expr : Parser (Expr Unit)} (he : Makes expr Built)
    (n count : Nat) : Makes (arguments expr n count) BuiltAll := by
  induction n generalizing count with
  | zero => exact makes_giveUp _
  | succ n ih =>
    apply makes_reportHere_if
    apply makes_bind he
    intro r x hx
    apply makes_accept?
    · apply makes_succeed
      exact ⟨⟨hx.formed, trivial⟩, hx.names.append (within_nil [])⟩
    · intro t _
      apply makes_bind (ih (count + 1))
      intro r' xs hxs
      apply makes_succeed
      refine ⟨⟨hx.formed, hxs.formed⟩, ?_⟩
      exact hx.names.append ((hxs.names.append_right []).cons t)

private theorem makes_finishCall {expr : Parser (Expr Unit)} (he : Makes expr Built) (n : Nat)
    {r : List Token} {callee : Expr Unit} (hc : Built r callee) :
    Makes (finishCall expr n callee) fun r' e ↦ Built (r ++ r') e := by
  have hend : ∀ r₁ args, BuiltAll r₁ args → Makes (do
      let paren ← expect .rightParen .expectParenAfterArguments
      succeed (.call callee paren args)) fun r' e ↦ Built (r ++ (r₁ ++ r')) e := by
    intro r₁ args ha
    apply makes_expect
    intro t _
    apply makes_succeed
    refine ⟨⟨hc.formed, ha.formed⟩, by simp, ?_⟩
    exact hc.names.append (ha.names.append_right [t])
  apply makes_next
  intro b
  cases b with
  | true => exact makes_bind (makes_succeed ⟨trivial, within_nil _⟩) hend
  | false => exact makes_bind (makes_arguments he n 0) hend

private theorem makes_callsFrom {expr : Parser (Expr Unit)} (he : Makes expr Built) (n : Nat)
    {r : List Token} {x : Expr Unit} (hx : Built r x) :
    Makes (callsFrom expr n x) fun r' e ↦ Built (r ++ r') e := by
  induction n generalizing r x with
  | zero => exact makes_giveUp _
  | succ n ih =>
    apply makes_accept?
    · exact makes_succeed (by simpa using hx)
    · intro t _
      have hx' : Built (r ++ [t]) x := ⟨hx.formed, by simp, hx.names.append_right [t]⟩
      apply makes_bind (makes_finishCall he (n + 1) hx')
      intro r₁ y hy
      simpa using ih hy

private theorem makes_call {expr : Parser (Expr Unit)} (he : Makes expr Built) (n : Nat) :
    Makes (call expr n) Built :=
  makes_bind (makes_primary he) fun _ _ hx ↦ makes_callsFrom he n hx

private theorem makes_unary {expr : Parser (Expr Unit)} (he : Makes expr Built) (n : Nat) :
    Makes (unary expr n) Built := by
  induction n with
  | zero => exact makes_giveUp _
  | succ n ih =>
    apply makes_accept?
    · exact makes_call he (n + 1)
    · intro op hk
      apply makes_bind ih
      intro r x hx
      apply makes_succeed
      exact ⟨⟨hk, hx.formed⟩, by simp, (hx.names.append_right []).cons op⟩

private theorem makes_disjunction {expr : Parser (Expr Unit)} (he : Makes expr Built) (n : Nat) :
    Makes (disjunction expr n) Built := by
  have hfactor : Makes (factor expr n) Built :=
    makes_chain (makes_unary he n) (joins_binary (by decide)) n
  have hterm : Makes (term expr n) Built := makes_chain hfactor (joins_binary (by decide)) n
  have hcomparison : Makes (comparison expr n) Built :=
    makes_chain hterm (joins_binary (by decide)) n
  have hequality : Makes (equality expr n) Built :=
    makes_chain hcomparison (joins_binary (by decide)) n
  exact makes_chain (makes_chain hequality (joins_logical _) n) (joins_logical _) n

/-- What an expression is made of. -/
theorem makes_expression (n : Nat) : Makes (expression n) Built := by
  induction n with
  | zero => exact makes_giveUp _
  | succ n ih =>
    apply makes_bind (makes_disjunction ih (n + 1))
    intro r x hx
    apply makes_accept?
    · exact makes_succeed (by simpa using hx)
    · intro t _
      apply makes_bind ih
      intro r' value hv
      have hkeep : Built (r ++ t :: (r' ++ [])) x :=
        ⟨hx.formed, by simp, hx.names.append_right _⟩
      cases x with
      | «variable» name u =>
        apply makes_succeed
        refine ⟨hv.formed, by simp, ?_⟩
        exact hx.names.append ((hv.names.append_right []).cons t)
      | _ => exact makes_report (makes_succeed hkeep)

/-! ## Statements -/

/-- A statement is formed, was made of at least one token, and has its names from the tokens. -/
structure BuiltStmt (read : List Token) (s : Stmt Unit) : Prop where
  formed : s.Formed
  nonempty : read ≠ []
  names : Within s.names read

/-- Statements are formed and have their names from the tokens. -/
structure BuiltBody (read : List Token) (ss : List (Stmt Unit)) : Prop where
  formed : Stmt.AllFormed ss
  names : Within (Stmt.namesAll ss) read

/-- A statement that is no declaration. -/
structure BuiltPlain (read : List Token) (s : Stmt Unit) : Prop extends BuiltStmt read s where
  plain : s.isDeclaration = false

private theorem BuiltBody.snoc {r r' : List Token} {stmts : List (Stmt Unit)} {s : Stmt Unit}
    (hb : BuiltBody r stmts.reverse) (hs : BuiltStmt r' s) :
    BuiltBody (r ++ r') (s :: stmts).reverse := by
  rw [List.reverse_cons]
  constructor
  · have hf := (Stmt.allFormed_iff _).mp hb.formed
    rw [Stmt.allFormed_iff]
    intro s' hs'
    rcases List.mem_append.mp hs' with h | h
    · exact hf s' h
    · rw [List.mem_singleton.mp h]
      exact hs.formed
  · rw [Stmt.namesAll_append]
    have hn : Stmt.namesAll [s] = s.names := List.append_nil _
    rw [hn]
    exact hb.names.append hs.names

/-- What is made of the tokens of a declaration, if anything is. -/
def BuiltDeclaration (read : List Token) (s? : Option (Stmt Unit)) : Prop :=
  ∀ s, s? = some s → BuiltStmt read s

private theorem makes_declarations {declaration : Parser (Option (Stmt Unit))}
    (hd : Makes declaration BuiltDeclaration) (closes : Kind → Bool) (n : Nat) {r : List Token}
    {stmts : List (Stmt Unit)} (errors : List StaticError) (hb : BuiltBody r stmts.reverse) :
    Makes (declarations declaration closes n stmts errors) fun r' ss ↦ BuiltBody (r ++ r') ss := by
  induction n generalizing r stmts errors with
  | zero => exact fun _ _ ↦ ⟨[], rfl, fun _ ha ↦ nomatch ha⟩
  | succ n ih =>
    intro eof ts
    have hstop : ∀ ss, some stmts.reverse = some ss → BuiltBody (r ++ []) ss := by
      intro ss hss
      cases hss
      simpa using hb
    cases ts with
    | nil => exact ⟨[], rfl, hstop⟩
    | cons t rest =>
      by_cases hc : closes t.kind
      · simp only [declarations, hc, if_true]
        exact ⟨[], rfl, hstop⟩
      · simp only [declarations, hc, Bool.false_eq_true, if_false]
        obtain ⟨r₁, hr₁, hQ⟩ := hd eof (t :: rest)
        rcases ho : declaration eof (t :: rest) with ⟨value, rest', es⟩
        rw [ho] at hr₁ hQ
        -- the statements so far, with the new one if there is one
        have hnext : ∀ stmts', BuiltBody (r ++ r₁) stmts'.reverse →
            ∃ read, t :: rest = read ++ (declarations declaration closes n stmts'
              (es.reverse ++ errors) eof rest').rest ∧
              ∀ ss, (declarations declaration closes n stmts' (es.reverse ++ errors) eof
                rest').value = some ss → BuiltBody (r ++ read) ss := by
          intro stmts' hb'
          obtain ⟨r₂, hr₂, hQ₂⟩ := ih (es.reverse ++ errors) hb' eof rest'
          refine ⟨r₁ ++ r₂, ?_, fun ss hss ↦ ?_⟩
          · rw [hr₁, List.append_assoc]
            exact congrArg (r₁ ++ ·) hr₂
          · rw [← List.append_assoc]
            exact hQ₂ ss hss
        have hkeep : BuiltBody (r ++ r₁) stmts.reverse := ⟨hb.formed, hb.names.append_right r₁⟩
        match value, hQ with
        | some (some s), hQ => exact hnext (s :: stmts) (hb.snoc (hQ (some s) rfl s rfl))
        | some none, _ => exact hnext stmts hkeep
        | none, _ => exact hnext stmts hkeep

private theorem makes_block {declaration : Parser (Option (Stmt Unit))}
    (hd : Makes declaration BuiltDeclaration) (n : Nat) :
    Makes (block declaration n) fun r ss ↦ BuiltBody r ss ∧ r ≠ [] := by
  have hstart : BuiltBody [] ([] : List (Stmt Unit)).reverse := ⟨trivial, within_nil _⟩
  apply makes_bind (makes_declarations hd (· == .rightBrace) n [] hstart)
  intro r ss hss
  apply makes_expect
  intro t _
  apply makes_succeed
  exact ⟨⟨hss.formed, hss.names.append_right [t]⟩, by simp⟩

private theorem makes_parameters (n count : Nat) :
    Makes (parameters n count) fun r ps ↦ Within ps r := by
  induction n generalizing count with
  | zero => exact makes_giveUp _
  | succ n ih =>
    apply makes_reportHere_if
    apply makes_expect
    intro p hp
    apply makes_accept?
    · exact makes_succeed ((within_nil _).cons_cons hp)
    · intro t _
      apply makes_bind (ih (count + 1))
      intro r ps hps
      exact makes_succeed (((hps.append_right []).cons t).cons_cons hp)

private theorem makes_funDeclaration {declaration : Parser (Option (Stmt Unit))}
    (hd : Makes declaration BuiltDeclaration) (n : Nat) :
    Makes (funDeclaration declaration n) BuiltStmt := by
  apply makes_expect
  intro name hname
  apply makes_expect
  intro t _
  have hend : ∀ r params, Within params r → Makes (do
      let _ ← expect .rightParen .expectParenAfterParameters
      let _ ← expect .leftBrace .expectBraceBeforeBody
      let body ← block declaration n
      succeed (.function name params body)) fun r' s ↦ BuiltStmt (name :: t :: (r ++ r')) s := by
    intro r params hp
    apply makes_expect
    intro t₁ _
    apply makes_expect
    intro t₂ _
    apply makes_bind (makes_block hd n)
    rintro r' body ⟨hb, -⟩
    apply makes_succeed
    refine ⟨hb.formed, by simp, ?_⟩
    have hbody := ((hb.names.append_right []).cons t₂).cons t₁
    exact ((hp.append hbody).cons t).cons_cons hname
  apply makes_next
  intro b
  cases b with
  | true => exact makes_bind (Q := fun r ps ↦ Within ps r) (makes_succeed (within_nil _)) hend
  | false => exact makes_bind (makes_parameters n 0) hend

private theorem makes_varDeclaration (n : Nat) : Makes (varDeclaration n) BuiltStmt := by
  apply makes_expect
  intro name hname
  apply makes_accept?
  · apply makes_expect
    intro t _
    apply makes_succeed
    exact ⟨trivial, by simp, (within_nil [t]).cons_cons hname⟩
  · intro t _
    apply makes_bind (makes_expression n)
    intro r e he
    apply makes_expect
    intro t' _
    apply makes_succeed
    exact ⟨he.formed, by simp, ((he.names.append_right [t']).cons t).cons_cons hname⟩

private theorem makes_expressionStatement (n : Nat) :
    Makes (expressionStatement n) BuiltPlain := by
  apply makes_bind (makes_expression n)
  intro r e he
  apply makes_expect
  intro t _
  apply makes_succeed
  exact ⟨⟨he.formed, by simp, he.names.append_right [t]⟩, rfl⟩

/-- An expression that may be missing is formed and has its names from the tokens. -/
structure BuiltOption (read : List Token) (e? : Option (Expr Unit)) : Prop where
  formed : ∀ e, e? = some e → e.Formed
  names : Within (e?.elim [] Expr.names) read

private theorem makes_expressionUnless (k : Kind) (n : Nat) :
    Makes (expressionUnless k n) BuiltOption := by
  apply makes_next
  intro b
  cases b with
  | true => exact makes_succeed ⟨fun _ h ↦ (nomatch h), within_nil _⟩
  | false =>
    apply makes_bind (makes_expression n)
    intro r e he
    apply makes_succeed
    refine ⟨fun e' h ↦ ?_, he.names.append_right []⟩
    cases h
    exact he.formed

private theorem makes_printStatement (n : Nat) (keyword : Token) :
    Makes (printStatement n keyword) BuiltPlain := by
  apply makes_bind (makes_expression n)
  intro r e he
  apply makes_expect
  intro t _
  apply makes_succeed
  exact ⟨⟨he.formed, by simp, he.names.append_right [t]⟩, rfl⟩

private theorem makes_returnStatement (n : Nat) (keyword : Token) :
    Makes (returnStatement n keyword) BuiltPlain := by
  apply makes_bind (makes_expressionUnless .semicolon n)
  intro r e? he
  apply makes_expect
  intro t _
  apply makes_succeed
  cases e? with
  | none => exact ⟨⟨trivial, by simp, within_nil _⟩, rfl⟩
  | some e => exact ⟨⟨he.formed e rfl, by simp, he.names.append_right [t]⟩, rfl⟩

private theorem makes_branchStatement (keyword : Token) :
    Makes (branchStatement keyword) BuiltPlain := by
  apply makes_expect
  intro t _
  exact makes_succeed ⟨⟨trivial, by simp, within_nil _⟩, rfl⟩

/-- The first clause of a loop, which may be missing, is formed and has its names from the
tokens. -/
structure BuiltClause (read : List Token) (s? : Option (Stmt Unit)) : Prop where
  formed : ∀ s, s? = some s → s.Formed
  names : Within (s?.elim [] Stmt.names) read

private theorem BuiltStmt.clause {r : List Token} {s : Stmt Unit} (hs : BuiltStmt r s) :
    BuiltClause r (some s) where
  formed s' h := by
    cases h
    exact hs.formed
  names := hs.names

private theorem makes_initializer (n : Nat) : Makes (initializer n) BuiltClause := by
  apply makes_accept?
  · apply makes_bind (makes_expressionStatement n)
    intro r s hs
    apply makes_succeed
    rw [List.append_nil]
    exact hs.clause
  · intro t _
    apply makes_ite
    · exact makes_succeed ⟨fun _ h ↦ (nomatch h), within_nil _⟩
    · apply makes_bind (makes_varDeclaration n)
      intro r s hs
      apply makes_succeed
      rw [List.append_nil]
      exact ⟨hs.clause.formed, hs.names.cons t⟩

-- The names of a loop are those of its clauses and of its body.
private theorem names_forLoop (keyword : Token) (init : Option (Stmt Unit))
    (test increment : Option (Expr Unit)) (body : Stmt Unit) :
    (forLoop keyword init test increment body).names.Perm
      (init.elim [] Stmt.names ++ (test.elim [] Expr.names ++
        (increment.elim [] Expr.names ++ body.names))) := by
  -- only the increment is out of place: it is read before the body, and stands behind it
  have hbody : ∀ (a : List Token) (e : Expr Unit),
      (a ++ (body.names ++ e.names)).Perm (a ++ (e.names ++ body.names)) :=
    fun a e ↦ (List.Perm.refl a).append List.perm_append_comm
  cases init <;> cases test <;> cases increment <;>
    simp [forLoop, Stmt.names, Stmt.namesAll, Expr.names, List.perm_append_comm, hbody,
      List.perm_append_left_iff]

private theorem formed_forLoop (keyword : Token) {init : Option (Stmt Unit)}
    {test increment : Option (Expr Unit)} {body : Stmt Unit}
    (hinit : ∀ s, init = some s → s.Formed) (htest : ∀ e, test = some e → e.Formed)
    (hincrement : ∀ e, increment = some e → e.Formed) (hbody : body.Formed)
    (hplain : body.isDeclaration = false) :
    (forLoop keyword init test increment body).Formed ∧
      (forLoop keyword init test increment body).isDeclaration = false := by
  cases init <;> cases test <;> cases increment <;>
    simp_all [forLoop, Stmt.Formed, Stmt.AllFormed, Expr.Formed, Stmt.isDeclaration]

private theorem makes_forStatement {statement : Parser (Stmt Unit)}
    (hs : Makes statement BuiltPlain) (n : Nat) (keyword : Token) :
    Makes (forStatement statement n keyword) BuiltPlain := by
  apply makes_expect
  intro t₁ _
  apply makes_bind (makes_initializer n)
  intro r₁ init hinit
  apply makes_bind (makes_expressionUnless .semicolon n)
  intro r₂ test htest
  apply makes_expect
  intro t₂ _
  apply makes_bind (makes_expressionUnless .rightParen n)
  intro r₃ increment hincrement
  apply makes_expect
  intro t₃ _
  apply makes_bind hs
  intro r₄ body hbody
  apply makes_succeed
  obtain ⟨hformed, hplain⟩ := formed_forLoop keyword hinit.formed htest.formed
    hincrement.formed hbody.formed hbody.plain
  refine ⟨⟨hformed, by simp, ?_⟩, hplain⟩
  have hread := hinit.names.append (htest.names.append
    ((hincrement.names.append ((hbody.names.append_right []).cons t₃)).cons t₂))
  exact (hread.cons t₁).perm (names_forLoop keyword init test increment body)

private theorem makes_ifStatement {statement : Parser (Stmt Unit)}
    (hs : Makes statement BuiltPlain) (n : Nat) (keyword : Token) :
    Makes (ifStatement statement n keyword) BuiltPlain := by
  apply makes_expect
  intro t₁ _
  apply makes_bind (makes_expression n)
  intro r₁ test htest
  apply makes_expect
  intro t₂ _
  apply makes_bind hs
  intro r₂ yes hyes
  apply makes_accept?
  · apply makes_succeed
    refine ⟨⟨⟨htest.formed, hyes.formed, hyes.plain⟩, by simp, ?_⟩, rfl⟩
    exact (htest.names.append ((hyes.names.append_right []).cons t₂)).cons t₁
  · intro t₃ _
    apply makes_bind hs
    intro r₃ no hno
    apply makes_succeed
    refine ⟨⟨⟨htest.formed, ⟨hyes.formed, hyes.plain⟩, hno.formed, hno.plain⟩, by simp, ?_⟩, rfl⟩
    have hbranches := hyes.names.append ((hno.names.append_right []).cons t₃)
    exact (htest.names.append (hbranches.cons t₂)).cons t₁

private theorem makes_whileStatement {statement : Parser (Stmt Unit)}
    (hs : Makes statement BuiltPlain) (n : Nat) (keyword : Token) :
    Makes (whileStatement statement n keyword) BuiltPlain := by
  apply makes_expect
  intro t₁ _
  apply makes_bind (makes_expression n)
  intro r₁ test htest
  apply makes_expect
  intro t₂ _
  apply makes_bind hs
  intro r₂ body hbody
  apply makes_succeed
  refine ⟨⟨⟨htest.formed, hbody.formed, hbody.plain⟩, by simp, ?_⟩, rfl⟩
  exact (htest.names.append ((hbody.names.append_right []).cons t₂)).cons t₁

private theorem BuiltPlain.cons {r : List Token} {s : Stmt Unit} (hs : BuiltPlain r s)
    (t : Token) : BuiltPlain (t :: r) s :=
  ⟨⟨hs.formed, by simp, hs.names.cons t⟩, hs.plain⟩

private theorem makes_statementWith {statement : Parser (Stmt Unit)}
    {declaration : Parser (Option (Stmt Unit))} (hs : Makes statement BuiltPlain)
    (hd : Makes declaration BuiltDeclaration) (n : Nat) :
    Makes (statementWith statement declaration n) BuiltPlain := by
  apply makes_accept?
  · exact makes_expressionStatement n
  · intro t _
    have hkeyword : ∀ {p : Parser (Stmt Unit)}, Makes p BuiltPlain →
        Makes p fun r s ↦ BuiltPlain (t :: r) s :=
      fun hp ↦ makes_mono hp fun _ _ hb ↦ hb.cons t
    dsimp only
    split
    · exact hkeyword (makes_forStatement hs n t)
    · exact hkeyword (makes_ifStatement hs n t)
    · exact hkeyword (makes_printStatement n t)
    · exact hkeyword (makes_returnStatement n t)
    · exact hkeyword (makes_whileStatement hs n t)
    · apply makes_bind (makes_block hd n)
      rintro r body ⟨hb, -⟩
      apply makes_succeed
      exact ⟨⟨hb.formed, by simp, (hb.names.append_right []).cons t⟩, rfl⟩
    · exact hkeyword (makes_branchStatement t)

private theorem skipFrom_suffix (last : Token) (ts : List Token) : skipFrom last ts <:+ ts := by
  induction ts generalizing last with
  | nil => exact List.suffix_refl _
  | cons t rest ih =>
    unfold skipFrom
    split
    · exact List.suffix_refl _
    · exact (ih t).trans (List.suffix_cons t rest)

private theorem synchronize_suffix_tail (t : Token) (ts : List Token) :
    synchronize (t :: ts) <:+ ts :=
  skipFrom_suffix t ts

/-- Synchronizing drops tokens at the front only. -/
theorem synchronize_suffix (ts : List Token) : synchronize ts <:+ ts := by
  cases ts with
  | nil => exact List.suffix_refl _
  | cons t rest => exact (synchronize_suffix_tail t rest).trans (List.suffix_cons t rest)

private theorem makes_recovering {p : Parser (Stmt Unit)} (hp : Makes p BuiltStmt) :
    Makes (recovering p) BuiltDeclaration := by
  intro eof ts
  obtain ⟨r, hr, hQ⟩ := hp eof ts
  unfold recovering
  rcases ho : p eof ts with ⟨_ | s, rest, errors⟩
  · obtain ⟨dropped, hd⟩ := synchronize_suffix rest
    rw [ho] at hr
    refine ⟨r ++ dropped, ?_, fun s? hs s h ↦ ?_⟩
    · rw [List.append_assoc, hd]
      exact hr
    · cases hs
      cases h
  · rw [ho] at hr hQ
    refine ⟨r, hr, fun s? hs s' h ↦ ?_⟩
    cases hs
    cases h
    exact hQ s rfl

/-- A declaration, where there is a token, reads one. -/
def Advances (declaration : Parser (Option (Stmt Unit))) : Prop :=
  ∀ eof t rest, (declaration eof (t :: rest)).rest.length ≤ rest.length

-- After an error at least one token is dropped.
private theorem advances_recovering {p : Parser (Stmt Unit)} (hp : Makes p BuiltStmt) :
    Advances (recovering p) := by
  intro eof t rest
  obtain ⟨r, hr, hQ⟩ := hp eof (t :: rest)
  unfold recovering
  rcases ho : p eof (t :: rest) with ⟨_ | s, left, errors⟩
  · dsimp only
    rw [ho] at hr
    have hlen := congrArg List.length hr
    cases left with
    | nil => exact Nat.zero_le _
    | cons t' left =>
      have hdrop := (synchronize_suffix_tail t' left).length_le
      simp only [List.length_append, List.length_cons] at hlen
      omega
  · dsimp only
    rw [ho] at hr hQ
    have hread := List.length_pos_iff.mpr (hQ s rfl).nonempty
    have hlen := congrArg List.length hr
    simp only [List.length_append, List.length_cons] at hlen
    omega

private theorem makes_declarationWith {statement : Parser (Stmt Unit)}
    {declaration : Parser (Option (Stmt Unit))} (hs : Makes statement BuiltPlain)
    (hd : Makes declaration BuiltDeclaration) (n : Nat) :
    Makes (declarationWith statement declaration n) BuiltDeclaration ∧
      Advances (declarationWith statement declaration n) := by
  suffices hp : Makes _ BuiltStmt from ⟨makes_recovering hp, advances_recovering hp⟩
  apply makes_accept?
  · exact makes_mono hs fun _ _ hb ↦ hb.toBuiltStmt
  · intro t _
    have hkeyword : ∀ {p : Parser (Stmt Unit)}, Makes p BuiltStmt →
        Makes p fun r s ↦ BuiltStmt (t :: r) s :=
      fun hp ↦ makes_mono hp fun _ _ hb ↦ ⟨hb.formed, by simp, hb.names.cons t⟩
    apply makes_ite
    · exact hkeyword (makes_funDeclaration hd n)
    · exact hkeyword (makes_varDeclaration n)

/-- What statements and declarations are made of. -/
theorem makes_statement_declaration (n : Nat) :
    Makes (statement n) BuiltPlain ∧ Makes (declaration n) BuiltDeclaration := by
  induction n with
  | zero => exact ⟨makes_giveUp _, makes_giveUp _⟩
  | succ n ih =>
    have hs := makes_statementWith ih.1 ih.2 (n + 1)
    exact ⟨hs, (makes_declarationWith hs ih.2 (n + 1)).1⟩

/-- A declaration reads a token, if the bound lets it read any. -/
theorem advances_declaration (n : Nat) : Advances (declaration (n + 1)) :=
  (makes_declarationWith (makes_statement_declaration (n + 1)).1
    (makes_statement_declaration n).2 (n + 1)).2

/-- What a program is made of. -/
theorem makes_program (n : Nat) : Makes (program n) BuiltBody := by
  have hstart : BuiltBody [] ([] : List (Stmt Unit)).reverse := ⟨trivial, within_nil _⟩
  exact makes_declarations (makes_statement_declaration n).2 (fun _ ↦ false) n [] hstart

end Lox.Parser

namespace Lox

/-- Whatever the tokens, the statements that are parsed from them are formed, and have their names
from the tokens. -/
theorem parseTokens_built (ts : List Token) :
    Parser.BuiltBody (Parser.body ts) (parseTokens ts).tree := by
  obtain ⟨read, hread, hQ⟩ :=
    Parser.makes_program (Parser.bound ts) (Parser.ending ts) (Parser.body ts)
  unfold parseTokens Parser.run
  rcases ho : Parser.program (Parser.bound ts) (Parser.ending ts) (Parser.body ts) with
    ⟨_ | tree, rest, errors⟩
  · exact ⟨trivial, Parser.within_nil _⟩
  · rw [ho] at hread hQ
    have hbuilt := hQ tree rfl
    rw [hread]
    exact ⟨hbuilt.formed, hbuilt.names.append_right _⟩

/-- Whatever the tokens, the expression that is parsed from them is formed. -/
theorem parseExprTokens_formed {ts : List Token} {e : Expr Unit}
    (h : (parseExprTokens ts).tree = some e) : e.Formed := by
  have hwhole : Parser.Makes (Parser.wholeExpression (Parser.bound ts)) fun _ e ↦ e.Formed := by
    apply Parser.makes_bind (Parser.makes_expression _)
    intro r e he
    apply Parser.makes_atEnd
    intro b
    cases b with
    | true => exact Parser.makes_succeed he.formed
    | false => exact Parser.makes_reportHere (Parser.makes_succeed he.formed)
  obtain ⟨_, _, hQ⟩ := hwhole (Parser.ending ts) (Parser.body ts)
  exact hQ e h

end Lox
