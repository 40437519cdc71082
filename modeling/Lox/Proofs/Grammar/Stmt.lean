import Lox.Proofs.Grammar.Expr

/-!
# The grammar of statements

Which tokens form which statement, as rules and apart from any parser. A `for` loop forms the blocks
and the `while` loop that it stands for. The grammar does not say which `if` an `else` belongs to,
when there are several that it could belong to: `DerivesStmt nearest` is the grammar as it is if
`nearest` is false, and if it is true, an `else` belongs to the nearest `if` before it that has none
yet. Both accept the same tokens (`derivesProgram_nearest`).
-/

namespace Lox.Grammar

/-- An expression, or nothing in its place. -/
inductive Optional : List Token → Option (Expr Unit) → Prop
  | none : Optional [] none
  | some {ts : List Token} {e : Expr Unit} (h : Derives .assignment ts e) : Optional ts (some e)

/-- The declaration of a variable. -/
inductive VarDeclaration : List Token → Stmt Unit → Prop
  | plain {keyword name semicolon : Token} (hkeyword : keyword.kind = .var)
    (hname : name.kind = .identifier) (hsemicolon : semicolon.kind = .semicolon) :
    VarDeclaration [keyword, name, semicolon] (.var name none)
  | initialized {keyword name equals semicolon : Token} {ts : List Token} {init : Expr Unit}
    (hkeyword : keyword.kind = .var) (hname : name.kind = .identifier)
    (hequals : equals.kind = .equal) (hinit : Derives .assignment ts init)
    (hsemicolon : semicolon.kind = .semicolon) :
    VarDeclaration (keyword :: name :: equals :: (ts ++ [semicolon])) (.var name (some init))

/-- An expression as a statement. -/
inductive ExprStatement : List Token → Stmt Unit → Prop
  | intro {semicolon : Token} {ts : List Token} {e : Expr Unit} (he : Derives .assignment ts e)
    (hsemicolon : semicolon.kind = .semicolon) : ExprStatement (ts ++ [semicolon]) (.expr e)

/-- The first clause of a `for` loop, with its semicolon. -/
inductive Initializer : List Token → Option (Stmt Unit) → Prop
  | none {semicolon : Token} (hsemicolon : semicolon.kind = .semicolon) :
    Initializer [semicolon] none
  | var {ts : List Token} {s : Stmt Unit} (h : VarDeclaration ts s) : Initializer ts (some s)
  | expr {ts : List Token} {s : Stmt Unit} (h : ExprStatement ts s) : Initializer ts (some s)

/-- The parameters of a function, at most 255 of them. -/
structure Parameters (ts : List Token) (params : List Token) : Prop where
  names : ∀ p ∈ params, p.kind = .identifier
  listed : Listed (params.map ([·])) ts
  count : params.length ≤ 255

/-- A statement with others before it and behind it; if there are any, in a block. -/
def enclosed (keyword : Token) (before : List (Stmt Unit)) (s : Stmt Unit)
    (behind : List (Stmt Unit)) : Stmt Unit :=
  if before.isEmpty && behind.isEmpty then s else .block keyword (before ++ s :: behind)

/-- The `while` loop that a `for` loop stands for: its increment comes behind the body, a missing
condition is true, and its initializer comes before the loop. -/
def whileForm (keyword : Token) (init : Option (Stmt Unit)) (test increment : Option (Expr Unit))
    (body : Stmt Unit) : Stmt Unit :=
  let test := test.getD
    (.literal ⟨.true, Bytes.ofString "true", .nil, keyword.line⟩ (.bool true))
  let body := enclosed keyword [] body (increment.toList.map .expr)
  enclosed keyword init.toList (.while keyword test body) []

/-- Where a statement stands: declarations do not stand in conditionals and loops. -/
inductive Place where
  | declaration | statement

/-- Some tokens and the statement that they form. -/
structure Part where
  tokens : List Token
  stmt : Stmt Unit
  /-- Whether it ends with a conditional that has no `else`. -/
  isOpen : Bool

/-- Tokens that form a statement, by the grammar. The truth value says whether it ends with a
conditional that has no `else`, so that an `else` behind it could belong to that. -/
inductive DerivesStmt (nearest : Prop) : Place → Bool → List Token → Stmt Unit → Prop
  | statement {isOpen : Bool} {ts : List Token} {s : Stmt Unit}
    (h : DerivesStmt nearest .statement isOpen ts s) : DerivesStmt nearest .declaration isOpen ts s
  | var {ts : List Token} {s : Stmt Unit} (h : VarDeclaration ts s) :
    DerivesStmt nearest .declaration false ts s
  | function {keyword name left right opening closing : Token} {ts params : List Token}
    {body : List Part} (hkeyword : keyword.kind = .fun) (hname : name.kind = .identifier)
    (hleft : left.kind = .leftParen) (hparams : Parameters ts params)
    (hright : right.kind = .rightParen) (hopening : opening.kind = .leftBrace)
    (hbody : ∀ d ∈ body, DerivesStmt nearest .declaration d.isOpen d.tokens d.stmt)
    (hclosing : closing.kind = .rightBrace) :
    DerivesStmt nearest .declaration false
      (keyword :: name :: left ::
        (ts ++ right :: opening :: (body.flatMap Part.tokens ++ [closing])))
      (.function name params (body.map Part.stmt))
  | expr {ts : List Token} {s : Stmt Unit} (h : ExprStatement ts s) :
    DerivesStmt nearest .statement false ts s
  | print {keyword semicolon : Token} {ts : List Token} {e : Expr Unit}
    (hkeyword : keyword.kind = .print) (he : Derives .assignment ts e)
    (hsemicolon : semicolon.kind = .semicolon) :
    DerivesStmt nearest .statement false (keyword :: (ts ++ [semicolon])) (.print keyword e)
  | return {keyword semicolon : Token} {ts : List Token} {result : Option (Expr Unit)}
    (hkeyword : keyword.kind = .return) (hresult : Optional ts result)
    (hsemicolon : semicolon.kind = .semicolon) :
    DerivesStmt nearest .statement false (keyword :: (ts ++ [semicolon])) (.return keyword result)
  | branch {keyword semicolon : Token} (hkeyword : keyword.kind ∈ [Kind.break, Kind.continue])
    (hsemicolon : semicolon.kind = .semicolon) :
    DerivesStmt nearest .statement false [keyword, semicolon] (.branch keyword)
  | block {opening closing : Token} {body : List Part} (hopening : opening.kind = .leftBrace)
    (hbody : ∀ d ∈ body, DerivesStmt nearest .declaration d.isOpen d.tokens d.stmt)
    (hclosing : closing.kind = .rightBrace) :
    DerivesStmt nearest .statement false (opening :: (body.flatMap Part.tokens ++ [closing]))
      (.block opening (body.map Part.stmt))
  | if {keyword left right : Token} {ts us : List Token} {test : Expr Unit} {yes : Stmt Unit}
    {isOpen : Bool} (hkeyword : keyword.kind = .if) (hleft : left.kind = .leftParen)
    (htest : Derives .assignment ts test) (hright : right.kind = .rightParen)
    (hyes : DerivesStmt nearest .statement isOpen us yes) :
    DerivesStmt nearest .statement true (keyword :: left :: (ts ++ right :: us))
      (.ifElse keyword test yes none)
  | ifElse {keyword left right els : Token} {ts us vs : List Token} {test : Expr Unit}
    {yes no : Stmt Unit} {isOpen isOpen' : Bool} (hkeyword : keyword.kind = .if)
    (hleft : left.kind = .leftParen) (htest : Derives .assignment ts test)
    (hright : right.kind = .rightParen) (hyes : DerivesStmt nearest .statement isOpen us yes)
    (hels : els.kind = .else) (hno : DerivesStmt nearest .statement isOpen' vs no)
    (hnearest : nearest → isOpen = false) :
    DerivesStmt nearest .statement isOpen' (keyword :: left :: (ts ++ right :: (us ++ els :: vs)))
      (.ifElse keyword test yes (some no))
  | while {keyword left right : Token} {ts us : List Token} {test : Expr Unit} {body : Stmt Unit}
    {isOpen : Bool} (hkeyword : keyword.kind = .while) (hleft : left.kind = .leftParen)
    (htest : Derives .assignment ts test) (hright : right.kind = .rightParen)
    (hbody : DerivesStmt nearest .statement isOpen us body) :
    DerivesStmt nearest .statement isOpen (keyword :: left :: (ts ++ right :: us))
      (.while keyword test body)
  | for {keyword left semicolon right : Token} {ts us vs ws : List Token}
    {init : Option (Stmt Unit)} {test increment : Option (Expr Unit)} {body : Stmt Unit}
    {isOpen : Bool} (hkeyword : keyword.kind = .for) (hleft : left.kind = .leftParen)
    (hinit : Initializer ts init) (htest : Optional us test)
    (hsemicolon : semicolon.kind = .semicolon) (hincrement : Optional vs increment)
    (hright : right.kind = .rightParen) (hbody : DerivesStmt nearest .statement isOpen ws body) :
    DerivesStmt nearest .statement isOpen
      (keyword :: left :: (ts ++ (us ++ semicolon :: (vs ++ right :: ws))))
      (whileForm keyword init test increment body)

/-- Tokens that form a program, by the grammar. -/
def DerivesProgram (nearest : Prop) (ts : List Token) (p : Program Unit) : Prop :=
  ∃ parts : List Part,
    (∀ d ∈ parts, DerivesStmt nearest .declaration d.isOpen d.tokens d.stmt) ∧
      ts = parts.flatMap Part.tokens ∧ p = parts.map Part.stmt

/-- The kinds of the tokens that begin a statement, where no declaration may stand. -/
def statementBeginnings : List Kind :=
  [.for, .if, .print, .return, .while, .break, .continue, .leftBrace] ++
    (Kind.primary ++ Kind.unary)

/-- The kinds of the tokens that a statement can begin with. -/
def beginnings : Place → List Kind
  | .declaration => .fun :: .var :: statementBeginnings
  | .statement => statementBeginnings

section Beginnings

/-- An expression statement begins as an expression does. -/
theorem ExprStatement.begins {ts : List Token} {s : Stmt Unit} (h : ExprStatement ts s) :
    ∃ t us, ts = t :: us ∧ t.kind ∈ Kind.primary ++ Kind.unary := by
  obtain ⟨he, -⟩ := h
  obtain ⟨t, us, rfl, ht⟩ := he.exists_cons
  exact ⟨t, _, rfl, ht⟩

/-- A statement has a first token, which is one that statements can begin with where it stands. -/
theorem DerivesStmt.begins {nearest : Prop} {place : Place} {isOpen : Bool} {ts : List Token}
    {s : Stmt Unit} (h : DerivesStmt nearest place isOpen ts s) :
    ∃ t us, ts = t :: us ∧ t.kind ∈ beginnings place := by
  have hkeyword : ∀ {place : Place} {k : Kind} {t : Token} {us : List Token}, t.kind = k →
      k ∈ beginnings place → ∃ t' us', t :: us = t' :: us' ∧ t'.kind ∈ beginnings place :=
    fun ht hk ↦ ⟨_, _, rfl, ht ▸ hk⟩
  induction h with
  | statement _ ih =>
    obtain ⟨t, us, rfl, ht⟩ := ih
    exact ⟨t, us, rfl, List.mem_cons_of_mem _ (List.mem_cons_of_mem _ ht)⟩
  | var h =>
    cases h with
    | plain h => exact hkeyword h (by decide)
    | initialized h => exact hkeyword h (by decide)
  | expr h =>
    obtain ⟨t, us, rfl, ht⟩ := h.begins
    exact ⟨t, us, rfl, List.mem_append_right _ ht⟩
  | branch h =>
    have hsubset : ∀ k ∈ [Kind.break, Kind.continue], k ∈ beginnings .statement := by decide
    exact hkeyword rfl (hsubset _ h)
  | function h | print h | «return» h | block h | «if» h | ifElse h | «while» h | «for» h =>
    exact hkeyword h (by decide)

end Beginnings

/-! ## The nearest conditional -/

section Nearest

/-- An `else` behind a statement that ends with a conditional without one can belong to that. -/
theorem exists_derivesStmt_else {ts us : List Token} {s s' : Stmt Unit} {isOpen : Bool}
    {els : Token} (h : DerivesStmt True .statement true ts s) (hels : els.kind = .else)
    (h' : DerivesStmt True .statement isOpen us s') :
    ∃ isOpen' s'', DerivesStmt True .statement isOpen' (ts ++ els :: us) s'' := by
  generalize hplace : Place.statement = place at h
  generalize hopen : true = isOpen' at h
  induction h with
  | @«if» _ _ _ _ _ _ _ isYesOpen hkeyword hleft htest hright hyes ih =>
    cases isYesOpen with
    | false =>
      have h := DerivesStmt.ifElse hkeyword hleft htest hright hyes hels h' fun _ ↦ rfl
      exact ⟨isOpen, _, by simpa using h⟩
    | true =>
      obtain ⟨_, s'', h⟩ := ih rfl rfl
      have h := DerivesStmt.if hkeyword hleft htest hright h
      exact ⟨true, _, by simpa using h⟩
  | ifElse hkeyword hleft htest hright hyes hels' hno hnearest _ ih =>
    obtain ⟨isOpen', s'', h⟩ := ih rfl hopen
    have h := DerivesStmt.ifElse hkeyword hleft htest hright hyes hels' h hnearest
    exact ⟨isOpen', _, by simpa using h⟩
  | «while» hkeyword hleft htest hright _ ih =>
    obtain ⟨isOpen', s'', h⟩ := ih rfl hopen
    have h := DerivesStmt.while hkeyword hleft htest hright h
    exact ⟨isOpen', _, by simpa using h⟩
  | «for» hkeyword hleft hinit htest hsemicolon hincrement hright _ ih =>
    obtain ⟨isOpen', s'', h⟩ := ih rfl hopen
    have h := DerivesStmt.for hkeyword hleft hinit htest hsemicolon hincrement hright h
    exact ⟨isOpen', _, by simpa using h⟩
  | statement | var | function => cases hplace
  | expr | print | «return» | branch | block => cases hopen

-- Declarations one after the other can be derived one by one.
private theorem exists_parts {body : List Part}
    (h : ∀ d ∈ body, ∃ isOpen s, DerivesStmt True .declaration isOpen d.tokens s) :
    ∃ body' : List Part, body'.flatMap Part.tokens = body.flatMap Part.tokens ∧
      ∀ d ∈ body', DerivesStmt True .declaration d.isOpen d.tokens d.stmt := by
  induction body with
  | nil => exact ⟨[], rfl, by simp⟩
  | cons d body ih =>
    obtain ⟨⟨isOpen, s, hd⟩, h⟩ := List.forall_mem_cons.mp h
    obtain ⟨body', htokens, hbody'⟩ := ih h
    exact ⟨⟨d.tokens, s, isOpen⟩ :: body', by simp [htokens],
      List.forall_mem_cons.mpr ⟨hd, hbody'⟩⟩

/-- What the grammar accepts, it accepts with every `else` at the nearest conditional. -/
theorem DerivesStmt.exists_nearest {nearest : Prop} {place : Place} {isOpen : Bool}
    {ts : List Token} {s : Stmt Unit} (h : DerivesStmt nearest place isOpen ts s) :
    ∃ isOpen' s', DerivesStmt True place isOpen' ts s' := by
  induction h with
  | statement _ ih =>
    obtain ⟨isOpen', s', h⟩ := ih
    exact ⟨isOpen', s', .statement h⟩
  | var h => exact ⟨_, _, .var h⟩
  | function hkeyword hname hleft hparams hright hopening _ hclosing ih =>
    obtain ⟨body', htokens, hbody'⟩ := exists_parts ih
    rw [← htokens]
    exact ⟨_, _, .function hkeyword hname hleft hparams hright hopening hbody' hclosing⟩
  | expr h => exact ⟨_, _, .expr h⟩
  | print hkeyword he hsemicolon => exact ⟨_, _, .print hkeyword he hsemicolon⟩
  | «return» hkeyword hresult hsemicolon => exact ⟨_, _, .return hkeyword hresult hsemicolon⟩
  | branch hkeyword hsemicolon => exact ⟨_, _, .branch hkeyword hsemicolon⟩
  | block hopening _ hclosing ih =>
    obtain ⟨body', htokens, hbody'⟩ := exists_parts ih
    rw [← htokens]
    exact ⟨_, _, .block hopening hbody' hclosing⟩
  | «if» hkeyword hleft htest hright _ ih =>
    obtain ⟨_, _, h⟩ := ih
    exact ⟨_, _, .if hkeyword hleft htest hright h⟩
  | ifElse hkeyword hleft htest hright _ hels _ _ ihyes ihno =>
    obtain ⟨isOpen', _, hyes⟩ := ihyes
    obtain ⟨_, _, hno⟩ := ihno
    cases isOpen' with
    | false => exact ⟨_, _, .ifElse hkeyword hleft htest hright hyes hels hno fun _ ↦ rfl⟩
    | true =>
      obtain ⟨_, _, h⟩ := exists_derivesStmt_else hyes hels hno
      exact ⟨_, _, .if hkeyword hleft htest hright h⟩
  | «while» hkeyword hleft htest hright _ ih =>
    obtain ⟨_, _, h⟩ := ih
    exact ⟨_, _, .while hkeyword hleft htest hright h⟩
  | «for» hkeyword hleft hinit htest hsemicolon hincrement hright _ ih =>
    obtain ⟨_, _, h⟩ := ih
    exact ⟨_, _, .for hkeyword hleft hinit htest hsemicolon hincrement hright h⟩

/-- A derivation with every `else` at the nearest conditional is one of the grammar. -/
theorem DerivesStmt.of_nearest {nearest : Prop} {place : Place} {isOpen : Bool} {ts : List Token}
    {s : Stmt Unit} (h : DerivesStmt True place isOpen ts s) :
    DerivesStmt nearest place isOpen ts s := by
  induction h with
  | statement _ ih => exact .statement ih
  | var h => exact .var h
  | function hkeyword hname hleft hparams hright hopening _ hclosing ih =>
    exact .function hkeyword hname hleft hparams hright hopening ih hclosing
  | expr h => exact .expr h
  | print hkeyword he hsemicolon => exact .print hkeyword he hsemicolon
  | «return» hkeyword hresult hsemicolon => exact .return hkeyword hresult hsemicolon
  | branch hkeyword hsemicolon => exact .branch hkeyword hsemicolon
  | block hopening _ hclosing ih => exact .block hopening ih hclosing
  | «if» hkeyword hleft htest hright _ ih => exact .if hkeyword hleft htest hright ih
  | ifElse hkeyword hleft htest hright _ hels _ hnearest ihyes ihno =>
    exact .ifElse hkeyword hleft htest hright ihyes hels ihno fun _ ↦ hnearest trivial
  | «while» hkeyword hleft htest hright _ ih => exact .while hkeyword hleft htest hright ih
  | «for» hkeyword hleft hinit htest hsemicolon hincrement hright _ ih =>
    exact .for hkeyword hleft hinit htest hsemicolon hincrement hright ih

/-- Whether an `else` has to belong to the nearest conditional has no part in which tokens form a
program. -/
theorem derivesProgram_nearest {ts : List Token} :
    (∃ p, DerivesProgram False ts p) ↔ ∃ p, DerivesProgram True ts p := by
  constructor
  · rintro ⟨p, parts, hparts, rfl, rfl⟩
    obtain ⟨parts', htokens, hparts'⟩ := exists_parts fun d hd ↦ (hparts d hd).exists_nearest
    exact ⟨_, parts', hparts', htokens.symm, rfl⟩
  · rintro ⟨p, parts, hparts, rfl, rfl⟩
    exact ⟨_, parts, fun d hd ↦ (hparts d hd).of_nearest, rfl, rfl⟩

end Nearest

end Lox.Grammar
