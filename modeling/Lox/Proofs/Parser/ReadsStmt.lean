import Lox.Proofs.Grammar.Stmt
import Lox.Proofs.Parser.Reads
import Lox.Proofs.Parser.Sequence

/-!
# The statements that parsers read without errors

The parser of statements reads the statements of the grammar, with every `else` at the nearest `if`:
it takes an `else` wherever there is one, so that a statement which ends with a conditional without
`else` is read only where none is behind it. It follows that tokens form a program without errors
exactly if the grammar derives one, and which one (`parseTokens_iff_derives`).
-/

namespace Lox.Parser

open Grammar

variable {eof : Token} {ts rest : List Token} {n m : Nat}

/-! ## Expressions and what closes them -/

section Clauses

variable {β : Type} {b : β} {k : Kind} {reason : StaticError.Reason}

/-- An expression, and a token that cannot extend it. -/
theorem succeeds_expression_expect (hk : k.level? = none) (hlt : ts.length < m)
    {f : Expr Unit → Token → Parser β} :
    Succeeds (expression m >>= fun e ↦ expect k reason >>= f e) eof ts b rest ↔
      ∃ us e t mid, ts = us ++ t :: mid ∧ Derives .assignment us e ∧ t.kind = k ∧
        Succeeds (f e t) eof mid b rest := by
  rw [succeeds_bind]
  constructor
  · rintro ⟨e, mid, he, h⟩
    obtain ⟨t, mid', rfl, ht, h⟩ := succeeds_expect_bind.mp h
    obtain ⟨us, rfl, he, -⟩ := (reads_expression m _ _ _ _ hlt).mp he
    exact ⟨us, e, t, mid', rfl, he, ht, h⟩
  · rintro ⟨us, e, t, mid, rfl, he, rfl, h⟩
    refine ⟨e, t :: mid, ?_, succeeds_expect_bind.mpr ⟨t, mid, rfl, rfl, h⟩⟩
    exact (reads_expression m _ _ _ _ hlt).mpr ⟨us, rfl, he, ends_of_level?_eq_none hk⟩

/-- An expression or nothing, and a token that cannot begin or extend one. -/
theorem succeeds_expressionUnless_expect (hk : k.level? = none)
    (hk' : k ∉ Kind.primary ++ Kind.unary) (hlt : ts.length < m)
    {f : Option (Expr Unit) → Token → Parser β} :
    Succeeds (expressionUnless k m >>= fun e? ↦ expect k reason >>= f e?) eof ts b rest ↔
      ∃ us e? t mid, ts = us ++ t :: mid ∧ Optional us e? ∧ t.kind = k ∧
        Succeeds (f e? t) eof mid b rest := by
  rw [succeeds_bind]
  constructor
  · rintro ⟨e?, mid, he, h⟩
    obtain ⟨t, mid', rfl, ht, h⟩ := succeeds_expect_bind.mp h
    rcases succeeds_next_bind.mp he with ⟨t', mid'', rfl, -, he⟩ | ⟨-, he⟩
    · obtain ⟨rfl, heq⟩ := succeeds_succeed.mp he
      exact ⟨[], none, t, mid', heq.symm, .none, ht, h⟩
    · obtain ⟨e, left, he, hsome⟩ := succeeds_bind.mp he
      obtain ⟨rfl, rfl⟩ := succeeds_succeed.mp hsome
      obtain ⟨us, rfl, he, -⟩ := (reads_expression m _ _ _ _ hlt).mp he
      exact ⟨us, some e, t, mid', rfl, .some he, ht, h⟩
  · rintro ⟨us, e?, t, mid, rfl, he, ht, h⟩
    refine ⟨e?, t :: mid, ?_, succeeds_expect_bind.mpr ⟨t, mid, rfl, ht, h⟩⟩
    cases he with
    | none => exact succeeds_next_bind.mpr (.inl ⟨t, mid, rfl, ht, succeeds_succeed.mpr ⟨rfl, rfl⟩⟩)
    | some he =>
      refine succeeds_next_bind.mpr (.inr ⟨avoids_of_derives hk' he, succeeds_bind.mpr
        ⟨_, t :: mid, ?_, succeeds_succeed.mpr ⟨rfl, rfl⟩⟩⟩)
      exact (reads_expression m _ _ _ _ hlt).mpr
        ⟨us, rfl, he, ends_of_level?_eq_none (by rw [ht]; exact hk)⟩

end Clauses

/-! ## Statements without others in them -/

section Plain

variable {s : Stmt Unit}

private theorem succeeds_expressionStatement (hlt : ts.length < m) :
    Succeeds (expressionStatement m) eof ts s rest ↔
      ∃ used, ts = used ++ rest ∧ ExprStatement used s := by
  rw [expressionStatement, succeeds_expression_expect rfl hlt]
  constructor
  · rintro ⟨us, e, t, mid, rfl, he, ht, h⟩
    obtain ⟨rfl, rfl⟩ := succeeds_succeed.mp h
    exact ⟨us ++ [t], by simp, .intro he ht⟩
  · rintro ⟨used, rfl, he, ht⟩
    exact ⟨_, _, _, rest, by simp, he, ht, succeeds_succeed.mpr ⟨rfl, rfl⟩⟩

private theorem succeeds_printStatement (hlt : ts.length < m) {keyword : Token} :
    Succeeds (printStatement m keyword) eof ts s rest ↔
      ∃ us e t, ts = us ++ t :: rest ∧ Derives .assignment us e ∧ t.kind = .semicolon ∧
        s = .print keyword e := by
  rw [printStatement, succeeds_expression_expect rfl hlt]
  simp only [succeeds_succeed]
  constructor
  · rintro ⟨us, e, t, mid, rfl, he, ht, rfl, rfl⟩
    exact ⟨us, e, t, rfl, he, ht, rfl⟩
  · rintro ⟨us, e, t, rfl, he, ht, rfl⟩
    exact ⟨us, e, t, rest, rfl, he, ht, rfl, rfl⟩

private theorem succeeds_returnStatement (hlt : ts.length < m) {keyword : Token} :
    Succeeds (returnStatement m keyword) eof ts s rest ↔
      ∃ us e? t, ts = us ++ t :: rest ∧ Optional us e? ∧ t.kind = .semicolon ∧
        s = .return keyword e? := by
  rw [returnStatement, succeeds_expressionUnless_expect rfl (by decide) hlt]
  simp only [succeeds_succeed]
  constructor
  · rintro ⟨us, e?, t, mid, rfl, he, ht, rfl, rfl⟩
    exact ⟨us, e?, t, rfl, he, ht, rfl⟩
  · rintro ⟨us, e?, t, rfl, he, ht, rfl⟩
    exact ⟨us, e?, t, rest, rfl, he, ht, rfl, rfl⟩

private theorem succeeds_branchStatement {keyword : Token} :
    Succeeds (branchStatement keyword) eof ts s rest ↔
      ∃ t, ts = t :: rest ∧ t.kind = .semicolon ∧ s = .branch keyword := by
  rw [branchStatement, succeeds_expect_bind]
  simp only [succeeds_succeed]
  constructor
  · rintro ⟨t, mid, rfl, ht, rfl, rfl⟩
    exact ⟨t, rfl, ht, rfl⟩
  · rintro ⟨t, rfl, ht, rfl⟩
    exact ⟨t, rest, rfl, ht, rfl, rfl⟩

/-- The declaration of a variable, after its keyword. -/
theorem succeeds_varDeclaration (hlt : ts.length < m) {keyword : Token}
    (hkeyword : keyword.kind = .var) :
    Succeeds (varDeclaration m) eof ts s rest ↔
      ∃ used, ts = used ++ rest ∧ VarDeclaration (keyword :: used) s := by
  rw [varDeclaration, succeeds_expect_bind]
  constructor
  · rintro ⟨name, mid, rfl, hname, h⟩
    rcases succeeds_accept?_bind.mp h with ⟨equals, mid', rfl, hequals, h⟩ | ⟨-, h⟩
    · simp only [List.length_cons] at hlt
      obtain ⟨us, e, t, mid'', rfl, he, ht, h⟩ :=
        (succeeds_expression_expect rfl (by omega)).mp h
      obtain ⟨rfl, rfl⟩ := succeeds_succeed.mp h
      exact ⟨name :: equals :: (us ++ [t]), by simp,
        .initialized hkeyword hname (List.mem_singleton.mp hequals) he ht⟩
    · obtain ⟨t, mid', rfl, ht, h⟩ := succeeds_expect_bind.mp h
      obtain ⟨rfl, rfl⟩ := succeeds_succeed.mp h
      exact ⟨[name, t], rfl, .plain hkeyword hname ht⟩
  · rintro ⟨used, rfl, h⟩
    cases h with
    | plain _ hname ht =>
      refine ⟨_, _, rfl, hname, succeeds_accept?_bind.mpr (.inr ⟨by simp [ht], ?_⟩)⟩
      exact succeeds_expect_bind.mpr ⟨_, rest, rfl, ht, succeeds_succeed.mpr ⟨rfl, rfl⟩⟩
    | @initialized _ name equals t us init _ hname hequals hinit ht =>
      simp only [List.cons_append, List.append_assoc, List.length_cons] at hlt ⊢
      refine ⟨_, _, rfl, hname, succeeds_accept?_bind.mpr
        (.inl ⟨equals, _, rfl, by simp [hequals], ?_⟩)⟩
      exact (succeeds_expression_expect rfl (by omega)).mpr
        ⟨us, init, t, rest, rfl, hinit, ht, succeeds_succeed.mpr ⟨rfl, rfl⟩⟩

private theorem VarDeclaration.exists_cons {used : List Token} (h : VarDeclaration used s) :
    ∃ keyword us, used = keyword :: us ∧ keyword.kind = .var := by
  cases h with
  | plain h => exact ⟨_, _, rfl, h⟩
  | initialized h => exact ⟨_, _, rfl, h⟩

private theorem succeeds_initializer (hlt : ts.length < m) {init : Option (Stmt Unit)} :
    Succeeds (initializer m) eof ts init rest ↔
      ∃ used, ts = used ++ rest ∧ Initializer used init := by
  rw [initializer, succeeds_accept?_bind]
  constructor
  · rintro (⟨t, mid, rfl, hk, h⟩ | ⟨-, h⟩)
    · rw [List.mem_cons, List.mem_singleton] at hk
      rcases hk with hk | hk
      · simp only [hk, if_true] at h
        obtain ⟨rfl, rfl⟩ := succeeds_succeed.mp h
        exact ⟨[t], rfl, .none hk⟩
      · simp only [hk, reduceCtorEq, if_false] at h
        obtain ⟨s, mid', hs, h⟩ := succeeds_bind.mp h
        obtain ⟨rfl, rfl⟩ := succeeds_succeed.mp h
        rw [List.length_cons] at hlt
        obtain ⟨used, rfl, hvar⟩ := (succeeds_varDeclaration (by omega) hk).mp hs
        exact ⟨t :: used, rfl, .var hvar⟩
    · obtain ⟨s, mid', hs, h⟩ := succeeds_bind.mp h
      obtain ⟨rfl, rfl⟩ := succeeds_succeed.mp h
      obtain ⟨used, rfl, hexpr⟩ := (succeeds_expressionStatement hlt).mp hs
      exact ⟨used, rfl, .expr hexpr⟩
  · rintro ⟨used, rfl, h⟩
    cases h with
    | none ht => exact .inl ⟨_, rest, rfl, by simp [ht], by simp [ht]⟩
    | var h =>
      obtain ⟨keyword, us, rfl, hk⟩ := VarDeclaration.exists_cons h
      refine .inl ⟨keyword, us ++ rest, rfl, by simp [hk], ?_⟩
      simp only [hk, reduceCtorEq, if_false]
      rw [List.cons_append, List.length_cons] at hlt
      exact succeeds_bind.mpr ⟨_, rest, (succeeds_varDeclaration (by omega) hk).mpr ⟨us, rfl, h⟩,
        succeeds_succeed.mpr ⟨rfl, rfl⟩⟩
    | expr h =>
      refine .inr ⟨?_, succeeds_bind.mpr ⟨_, rest,
        (succeeds_expressionStatement hlt).mpr ⟨used, rfl, h⟩, succeeds_succeed.mpr ⟨rfl, rfl⟩⟩⟩
      obtain ⟨t, us, rfl, ht⟩ := h.begins
      rw [List.cons_append, avoids_cons]
      have hdisjoint : ∀ k ∈ Kind.primary ++ Kind.unary, k ∉ [Kind.semicolon, Kind.var] := by decide
      exact hdisjoint _ ht

/-- The parameters of a function, and the parenthesis that closes them. -/
theorem succeeds_parameters (hlt : ts.length < m) {β : Type} {b : β} {reason : StaticError.Reason}
    {f : List Token → Token → Parser β} :
    Succeeds (do
        let params ← if ← next .rightParen then succeed [] else parameters m 0
        let right ← expect .rightParen reason
        f params right) eof ts b rest ↔
      ∃ us params right mid, ts = us ++ right :: mid ∧ Parameters us params ∧
        right.kind = .rightParen ∧ Succeeds (f params right) eof mid b rest := by
  have hrepeats : Repeats parameters (expect .identifier .expectParameterName) .tooManyParameters :=
    fun _ _ ↦ rfl
  have hname : Reads m (expect .identifier .expectParameterName) fun used p _ ↦
      (used = [p] ∧ p.kind = .identifier) ∧ True := by
    intro eof ts p rest _
    rw [succeeds_expect]
    constructor
    · rintro ⟨rfl, hp⟩
      exact ⟨[p], rfl, ⟨rfl, hp⟩, trivial⟩
    · rintro ⟨_, rfl, ⟨rfl, hp⟩, -⟩
      exact ⟨rfl, hp⟩
  have hbegins : ∀ (used : List Token) (p : Token), used = [p] ∧ p.kind = .identifier →
      ∃ t us, used = t :: us ∧ t.kind ≠ .rightParen := by
    rintro _ p ⟨rfl, hp⟩
    exact ⟨p, [], rfl, by simp [hp]⟩
  refine (hrepeats.succeeds_closed hname (fun _ _ _ ↦ trivial) hbegins hlt hlt).trans ?_
  constructor
  · rintro ⟨items, us, right, mid, rfl, ⟨heach, hlisted⟩, hcount, hright, h⟩
    refine ⟨us, items.map Prod.snd, right, mid, rfl, ⟨?_, ?_, by simpa using hcount⟩, hright, h⟩
    · exact List.forall_mem_map.mpr fun i hi ↦ (heach i hi).2
    · have hmap : items.map Prod.fst = (items.map Prod.snd).map ([·]) := by
        rw [List.map_map]
        exact List.map_congr_left fun i hi ↦ (heach i hi).1
      exact hmap ▸ hlisted
  · rintro ⟨us, params, right, mid, rfl, ⟨hnames, hlisted, hcount⟩, hright, h⟩
    refine ⟨params.map fun p ↦ ([p], p), us, right, mid, rfl, ⟨?_, ?_⟩, by simpa using hcount,
      hright, by simpa [Function.comp_def] using h⟩
    · exact List.forall_mem_map.mpr fun p hp ↦ ⟨rfl, hnames p hp⟩
    · simpa [Function.comp_def] using hlisted

end Plain

/-! ## Declarations one after the other -/

/-- A parser reads statements, and leaves no `else` that they could take. -/
abbrev ReadsStmt (n : Nat) (p : Parser (Stmt Unit)) : Prop :=
  Reads n p fun used s rest ↦
    ∃ isOpen, DerivesStmt True .statement isOpen used s ∧ (isOpen = true → Avoids [.else] rest)

/-- A parser reads declarations, and leaves no `else` that they could take. -/
def ReadsDecl (n : Nat) (p : Parser (Option (Stmt Unit))) : Prop :=
  ∀ eof ts s rest, ts.length < n →
    (Succeeds p eof ts (some s) rest ↔
      ∃ used, ts = used ++ rest ∧ ∃ isOpen, DerivesStmt True .declaration isOpen used s ∧
        (isOpen = true → Avoids [.else] rest))

section Declarations

variable {declaration : Parser (Option (Stmt Unit))} {closes : Kind → Bool}

/-- Parts that are declarations. -/
abbrev AllDerived (parts : List Part) : Prop :=
  ∀ d ∈ parts, DerivesStmt True .declaration d.isOpen d.tokens d.stmt

private theorem flatMap_tokens_begins {d : Part} {parts : List Part} (h : AllDerived (d :: parts)) :
    ∃ t us, (d :: parts).flatMap Part.tokens = t :: us ∧ t.kind ∈ beginnings .declaration := by
  obtain ⟨t, us, htokens, ht⟩ := (h d List.mem_cons_self).begins
  exact ⟨t, us ++ parts.flatMap Part.tokens, by simp [htokens], ht⟩

/-- No declaration begins with an `else`, and it closes none either. -/
theorem avoids_else_flatMap {parts : List Part} (h : AllDerived parts)
    (helse : closes .else = false) (hrest : ∀ t ∈ rest.head?, closes t.kind = true) :
    Avoids [.else] (parts.flatMap Part.tokens ++ rest) := by
  cases parts with
  | nil =>
    intro t ht hk
    rw [List.mem_singleton] at hk
    have htrue := hrest t ht
    rw [hk, helse] at htrue
    cases htrue
  | cons d parts =>
    obtain ⟨t, us, htokens, ht⟩ := flatMap_tokens_begins h
    rw [htokens, List.cons_append, avoids_cons, List.mem_singleton]
    exact ne_of_mem_of_not_mem ht (by decide)

private theorem parts_eq_nil {parts : List Part} (h : AllDerived parts)
    (hnot : ∀ t ∈ (parts.flatMap Part.tokens ++ rest).head?, t.kind ∉ beginnings .declaration) :
    parts = [] := by
  cases parts with
  | nil => rfl
  | cons d parts =>
    obtain ⟨t, us, htokens, ht⟩ := flatMap_tokens_begins h
    rw [htokens] at hnot
    exact absurd ht (hnot t rfl)

/-- Without errors, every declaration is there. -/
def Sure (n : Nat) (declaration : Parser (Option (Stmt Unit))) : Prop :=
  ∀ eof ts, ts.length < n → (declaration eof ts).errors = [] →
    ∃ s rest, Succeeds declaration eof ts (some s) rest

private theorem succeeds_declarations_cons (hsure : Sure n declaration) {t : Token}
    (hn : (t :: ts).length < n) (hcloses : closes t.kind = false) {ss : List (Stmt Unit)} :
    Succeeds (declarations declaration closes (m + 1) [] []) eof (t :: ts) ss rest ↔
      ∃ s mid ss', Succeeds declaration eof (t :: ts) (some s) mid ∧
        Succeeds (declarations declaration closes m [] []) eof mid ss' rest ∧ ss = s :: ss' := by
  rw [succeeds_iff, declarations_cons m eof t ts hcloses]
  constructor
  · rintro ⟨hvalue, hrest, herrors⟩
    obtain ⟨herrors, herrors'⟩ := List.append_eq_nil_iff.mp herrors
    obtain ⟨s, mid, hs⟩ := hsure eof (t :: ts) hn herrors
    obtain ⟨hvalue', hrest', -⟩ := succeeds_iff.mp hs
    obtain ⟨ss', hss', rfl⟩ := Option.map_eq_some_iff.mp hvalue
    subst hrest'
    exact ⟨s, _, ss', hs, succeeds_iff.mpr ⟨hss', hrest, herrors'⟩, by rw [hvalue']; rfl⟩
  · rintro ⟨s, mid, ss', hs, hss', rfl⟩
    obtain ⟨hvalue, hrest, herrors⟩ := succeeds_iff.mp hs
    obtain ⟨hvalue', hrest', herrors'⟩ := succeeds_iff.mp hss'
    subst hrest
    refine ⟨?_, hrest', List.append_eq_nil_iff.mpr ⟨herrors, herrors'⟩⟩
    dsimp only
    rw [hvalue, hvalue']
    rfl

/-- Declarations up to a token that closes them. -/
theorem succeeds_declarations (hd : ReadsDecl n declaration) (hsure : Sure n declaration)
    (hcloses : ∀ k ∈ beginnings .declaration, closes k = false) (helse : closes .else = false)
    (hn : ts.length < n) (hm : ts.length < m) {ss : List (Stmt Unit)} :
    Succeeds (declarations declaration closes m [] []) eof ts ss rest ↔
      ∃ parts, ts = parts.flatMap Part.tokens ++ rest ∧ AllDerived parts ∧
        ss = parts.map Part.stmt ∧ ∀ t ∈ rest.head?, closes t.kind = true := by
  induction m generalizing ts ss with
  | zero => omega
  | succ m ih =>
    cases ts with
    | nil =>
      constructor
      · intro h
        cases h
        exact ⟨[], rfl, List.forall_mem_nil _, rfl, fun _ h ↦ nomatch h⟩
      · rintro ⟨parts, heq, hparts, rfl, -⟩
        obtain rfl := parts_eq_nil hparts (by rw [← heq]; exact fun _ h ↦ nomatch h)
        obtain rfl : rest = [] := heq.symm
        rfl
    | cons t ts =>
      cases hc : closes t.kind with
      | true =>
        have hstop : declarations declaration closes (m + 1) [] [] eof (t :: ts) =
            ⟨some [], t :: ts, []⟩ := if_pos hc
        constructor
        · intro h
          cases hstop.symm.trans h
          exact ⟨[], rfl, List.forall_mem_nil _, rfl, by simpa using hc⟩
        · rintro ⟨parts, heq, hparts, rfl, -⟩
          have hnot : t.kind ∉ beginnings .declaration := by
            intro hk
            rw [hcloses _ hk] at hc
            cases hc
          obtain rfl := parts_eq_nil hparts (by rw [← heq]; simpa using hnot)
          exact heq ▸ hstop
      | false =>
        rw [succeeds_declarations_cons hsure hn hc]
        constructor
        · rintro ⟨s, mid, ss', hs, hss', rfl⟩
          obtain ⟨used, heq, isOpen, hused, -⟩ := (hd _ _ _ _ hn).mp hs
          obtain ⟨_, us, rfl, -⟩ := hused.begins
          rw [heq, List.length_append, List.length_cons] at hn hm
          obtain ⟨parts, rfl, hparts, rfl, hrest⟩ := (ih (by omega) (by omega)).mp hss'
          exact ⟨⟨_, s, isOpen⟩ :: parts, by simp [heq], List.forall_mem_cons.mpr ⟨hused, hparts⟩,
            rfl, hrest⟩
        · rintro ⟨_ | ⟨d, parts⟩, heq, hparts, rfl, hrest⟩
          · obtain rfl : t :: ts = rest := heq
            have htrue := hrest t rfl
            rw [hc] at htrue
            cases htrue
          · obtain ⟨hd', hparts⟩ := List.forall_mem_cons.mp hparts
            rw [List.flatMap_cons, List.append_assoc] at heq
            refine ⟨d.stmt, parts.flatMap Part.tokens ++ rest, parts.map Part.stmt, ?_, ?_, rfl⟩
            · exact (hd _ _ _ _ hn).mpr ⟨d.tokens, heq, d.isOpen, hd',
                fun _ ↦ avoids_else_flatMap hparts helse hrest⟩
            · obtain ⟨_, us, htokens, -⟩ := hd'.begins
              rw [heq, htokens, List.length_append, List.length_cons] at hn hm
              exact (ih (by omega) (by omega)).mpr ⟨parts, rfl, hparts, rfl, hrest⟩

/-- The rest of a block after its opening brace. -/
theorem succeeds_block (hd : ReadsDecl n declaration) (hsure : Sure n declaration)
    (hn : ts.length < n) (hm : ts.length < m) {body : List (Stmt Unit)} :
    Succeeds (block declaration m) eof ts body rest ↔
      ∃ parts closing, ts = parts.flatMap Part.tokens ++ closing :: rest ∧ AllDerived parts ∧
        closing.kind = .rightBrace ∧ body = parts.map Part.stmt := by
  have hdeclarations : ∀ ss left,
      Succeeds (declarations declaration (· == .rightBrace) m [] []) eof ts ss left ↔
        ∃ parts, ts = parts.flatMap Part.tokens ++ left ∧ AllDerived parts ∧
          ss = parts.map Part.stmt ∧ ∀ t ∈ left.head?, (t.kind == .rightBrace) = true :=
    fun _ _ ↦ succeeds_declarations hd hsure (by decide) (by decide) hn hm
  rw [block, succeeds_bind]
  constructor
  · rintro ⟨ss, left, hss, h⟩
    obtain ⟨closing, mid, rfl, hclosing, h⟩ := succeeds_expect_bind.mp h
    obtain ⟨rfl, rfl⟩ := succeeds_succeed.mp h
    obtain ⟨parts, rfl, hparts, rfl, -⟩ := (hdeclarations _ _).mp hss
    exact ⟨parts, closing, rfl, hparts, hclosing, rfl⟩
  · rintro ⟨parts, closing, rfl, hparts, hclosing, rfl⟩
    refine ⟨_, closing :: rest, (hdeclarations _ _).mpr ⟨parts, rfl, hparts, rfl, ?_⟩, ?_⟩
    · simpa using hclosing
    · exact succeeds_expect_bind.mpr ⟨closing, rest, rfl, hclosing, succeeds_succeed.mpr ⟨rfl, rfl⟩⟩

/-- The rest of the declaration of a function after its keyword. -/
theorem succeeds_funDeclaration (hd : ReadsDecl n declaration) (hsure : Sure n declaration)
    (hn : ts.length < n) (hm : ts.length < m) {s : Stmt Unit} :
    Succeeds (funDeclaration declaration m) eof ts s rest ↔
      ∃ name left us params right opening parts closing,
        ts = name :: left :: (us ++ right :: opening ::
          (parts.flatMap Part.tokens ++ closing :: rest)) ∧
        name.kind = .identifier ∧ left.kind = .leftParen ∧ Parameters us params ∧
        right.kind = .rightParen ∧ opening.kind = .leftBrace ∧ AllDerived parts ∧
        closing.kind = .rightBrace ∧ s = .function name params (parts.map Part.stmt) := by
  rw [funDeclaration, succeeds_expect_bind]
  constructor
  · rintro ⟨name, mid, rfl, hname, h⟩
    obtain ⟨left, mid, rfl, hleft, h⟩ := succeeds_expect_bind.mp h
    simp only [List.length_cons] at hn hm
    obtain ⟨us, params, right, mid, rfl, hparams, hright, h⟩ :=
      (succeeds_parameters (by omega)).mp h
    obtain ⟨opening, mid, rfl, hopening, h⟩ := succeeds_expect_bind.mp h
    obtain ⟨body, left', hbody, h⟩ := succeeds_bind.mp h
    obtain ⟨rfl, rfl⟩ := succeeds_succeed.mp h
    simp only [List.length_append, List.length_cons] at hn hm
    obtain ⟨parts, closing, rfl, hparts, hclosing, rfl⟩ :=
      (succeeds_block hd hsure (by omega) (by omega)).mp hbody
    exact ⟨name, left, us, params, right, opening, parts, closing, rfl, hname, hleft, hparams,
      hright, hopening, hparts, hclosing, rfl⟩
  · rintro ⟨name, left, us, params, right, opening, parts, closing, rfl, hname, hleft, hparams,
      hright, hopening, hparts, hclosing, rfl⟩
    refine ⟨name, _, rfl, hname, succeeds_expect_bind.mpr ⟨left, _, rfl, hleft, ?_⟩⟩
    simp only [List.length_append, List.length_cons] at hn hm
    refine (succeeds_parameters ?_).mpr ⟨us, params, right, _, rfl, hparams, hright, ?_⟩
    · simp only [List.length_append, List.length_cons]
      omega
    · refine succeeds_expect_bind.mpr ⟨opening, _, rfl, hopening, succeeds_bind.mpr
        ⟨_, rest, ?_, succeeds_succeed.mpr ⟨rfl, rfl⟩⟩⟩
      have hlt : (parts.flatMap Part.tokens ++ closing :: rest).length < min n m := by
        simp only [List.length_append, List.length_cons]
        omega
      exact (succeeds_block hd hsure (by omega) (by omega)).mpr
        ⟨parts, closing, rfl, hparts, hclosing, rfl⟩

end Declarations

/-! ## Statements with others in them -/

section Statements

variable {statement : Parser (Stmt Unit)} {declaration : Parser (Option (Stmt Unit))}
  {keyword : Token} {s : Stmt Unit}

/-- A condition in parentheses. -/
theorem succeeds_condition (hlt : ts.length < m) {β : Type} {b : β}
    {reason reason' : StaticError.Reason} {f : Expr Unit → Parser β} :
    Succeeds (do
        let _ ← expect .leftParen reason
        let test ← expression m
        let _ ← expect .rightParen reason'
        f test) eof ts b rest ↔
      ∃ left us test right mid, ts = left :: (us ++ right :: mid) ∧ left.kind = .leftParen ∧
        Derives .assignment us test ∧ right.kind = .rightParen ∧
        Succeeds (f test) eof mid b rest := by
  rw [succeeds_expect_bind]
  constructor
  · rintro ⟨left, mid, rfl, hleft, h⟩
    rw [List.length_cons] at hlt
    obtain ⟨us, test, right, mid, rfl, htest, hright, h⟩ :=
      (succeeds_expression_expect rfl (by omega)).mp h
    exact ⟨left, us, test, right, mid, rfl, hleft, htest, hright, h⟩
  · rintro ⟨left, us, test, right, mid, rfl, hleft, htest, hright, h⟩
    rw [List.length_cons] at hlt
    exact ⟨left, _, rfl, hleft, (succeeds_expression_expect rfl (by omega)).mpr
      ⟨us, test, right, mid, rfl, htest, hright, h⟩⟩

/-- The rest of a `while` loop after its keyword. -/
theorem succeeds_whileStatement (hs : ReadsStmt n statement) (hn : ts.length < n)
    (hm : ts.length < m) :
    Succeeds (whileStatement statement m keyword) eof ts s rest ↔
      ∃ left us test right vs body isOpen, ts = left :: (us ++ right :: (vs ++ rest)) ∧
        left.kind = .leftParen ∧ Derives .assignment us test ∧ right.kind = .rightParen ∧
        DerivesStmt True .statement isOpen vs body ∧ (isOpen = true → Avoids [.else] rest) ∧
        s = .while keyword test body := by
  refine (succeeds_condition hm).trans ?_
  constructor
  · rintro ⟨left, us, test, right, mid, rfl, hleft, htest, hright, h⟩
    obtain ⟨body, mid, hbody, h⟩ := succeeds_bind.mp h
    obtain ⟨rfl, rfl⟩ := succeeds_succeed.mp h
    simp only [List.length_append, List.length_cons] at hn
    obtain ⟨vs, rfl, isOpen, hbody, hrest⟩ := (hs _ _ _ _ (by omega)).mp hbody
    exact ⟨left, us, test, right, vs, body, isOpen, rfl, hleft, htest, hright, hbody, hrest, rfl⟩
  · rintro ⟨left, us, test, right, vs, body, isOpen, rfl, hleft, htest, hright, hbody, hrest, rfl⟩
    simp only [List.length_append, List.length_cons] at hn
    refine ⟨left, us, test, right, vs ++ rest, rfl, hleft, htest, hright, succeeds_bind.mpr
      ⟨body, rest, ?_, succeeds_succeed.mpr ⟨rfl, rfl⟩⟩⟩
    exact (hs _ _ _ _ (by simp only [List.length_append]; omega)).mpr
      ⟨vs, rfl, isOpen, hbody, hrest⟩

/-- The rest of a conditional after its keyword. It takes an `else` if there is one, so that its
first branch does not end with a conditional that could. -/
theorem succeeds_ifStatement (hs : ReadsStmt n statement) (hn : ts.length < n)
    (hm : ts.length < m) :
    Succeeds (ifStatement statement m keyword) eof ts s rest ↔
      ∃ left us test right vs yes isOpen mid, ts = left :: (us ++ right :: (vs ++ mid)) ∧
        left.kind = .leftParen ∧ Derives .assignment us test ∧ right.kind = .rightParen ∧
        DerivesStmt True .statement isOpen vs yes ∧
        ((mid = rest ∧ Avoids [.else] rest ∧ s = .ifElse keyword test yes none) ∨
          ∃ els ws no isOpen', mid = els :: (ws ++ rest) ∧ isOpen = false ∧ els.kind = .else ∧
            DerivesStmt True .statement isOpen' ws no ∧ (isOpen' = true → Avoids [.else] rest) ∧
            s = .ifElse keyword test yes (some no)) := by
  refine (succeeds_condition hm).trans ?_
  constructor
  · rintro ⟨left, us, test, right, mid, rfl, hleft, htest, hright, h⟩
    obtain ⟨yes, mid, hyes, helse⟩ := succeeds_bind.mp h
    simp only [List.length_append, List.length_cons] at hn
    obtain ⟨vs, rfl, isOpen, hyes, hmid⟩ := (hs _ _ _ _ (by omega)).mp hyes
    refine ⟨left, us, test, right, vs, yes, isOpen, mid, rfl, hleft, htest, hright, hyes, ?_⟩
    rcases succeeds_accept?_bind.mp helse with ⟨els, mid, rfl, hels, h⟩ | ⟨havoids, h⟩
    · obtain ⟨no, mid, hno, h⟩ := succeeds_bind.mp h
      obtain ⟨rfl, rfl⟩ := succeeds_succeed.mp h
      simp only [List.length_append, List.length_cons] at hn
      obtain ⟨ws, rfl, isOpen', hno, hrest⟩ := (hs _ _ _ _ (by omega)).mp hno
      refine .inr ⟨els, ws, no, isOpen', rfl, ?_, List.mem_singleton.mp hels, hno, hrest, rfl⟩
      rw [← Bool.not_eq_true]
      exact fun hopen ↦ (avoids_cons _ _ _).mp (hmid hopen) hels
    · obtain ⟨rfl, rfl⟩ := succeeds_succeed.mp h
      exact .inl ⟨rfl, havoids, rfl⟩
  · rintro ⟨left, us, test, right, vs, yes, isOpen, mid, rfl, hleft, htest, hright, hyes, h⟩
    simp only [List.length_append, List.length_cons] at hn
    refine ⟨left, us, test, right, vs ++ mid, rfl, hleft, htest, hright, succeeds_bind.mpr
      ⟨yes, mid, ?_, succeeds_accept?_bind.mpr ?_⟩⟩
    · refine (hs _ _ _ _ (by simp only [List.length_append]; omega)).mpr ⟨vs, rfl, isOpen, hyes, ?_⟩
      rcases h with ⟨rfl, havoids, -⟩ | ⟨_, _, _, _, -, rfl, -⟩
      · exact fun _ ↦ havoids
      · exact nofun
    · rcases h with ⟨rfl, havoids, rfl⟩ | ⟨els, ws, no, isOpen', rfl, -, hels, hno, hrest, rfl⟩
      · exact .inr ⟨havoids, succeeds_succeed.mpr ⟨rfl, rfl⟩⟩
      · simp only [List.length_append, List.length_cons] at hn
        refine .inl ⟨els, ws ++ rest, rfl, by simp [hels], succeeds_bind.mpr
          ⟨no, rest, ?_, succeeds_succeed.mpr ⟨rfl, rfl⟩⟩⟩
        exact (hs _ _ _ _ (by simp only [List.length_append]; omega)).mpr
          ⟨ws, rfl, isOpen', hno, hrest⟩

private theorem forLoop_eq_whileForm (init : Option (Stmt Unit))
    (test increment : Option (Expr Unit)) (body : Stmt Unit) :
    forLoop keyword init test increment body = whileForm keyword init test increment body := by
  cases init <;> cases increment <;> rfl

/-- The rest of a `for` loop after its keyword. -/
theorem succeeds_forStatement (hs : ReadsStmt n statement) (hn : ts.length < n)
    (hm : ts.length < m) :
    Succeeds (forStatement statement m keyword) eof ts s rest ↔
      ∃ left us init vs test semicolon ws increment right xs body isOpen,
        ts = left :: (us ++ (vs ++ semicolon :: (ws ++ right :: (xs ++ rest)))) ∧
        left.kind = .leftParen ∧ Initializer us init ∧ Optional vs test ∧
        semicolon.kind = .semicolon ∧ Optional ws increment ∧ right.kind = .rightParen ∧
        DerivesStmt True .statement isOpen xs body ∧ (isOpen = true → Avoids [.else] rest) ∧
        s = whileForm keyword init test increment body := by
  rw [forStatement, succeeds_expect_bind]
  constructor
  · rintro ⟨left, mid, rfl, hleft, h⟩
    obtain ⟨init, mid, hinit', hclauses⟩ := succeeds_bind.mp h
    simp only [List.length_cons] at hn hm
    obtain ⟨us, rfl, hinit⟩ := (succeeds_initializer (by omega)).mp hinit'
    simp only [List.length_append] at hn hm
    obtain ⟨vs, test, semicolon, mid, rfl, htest, hsemicolon, h⟩ :=
      (succeeds_expressionUnless_expect rfl (by decide) (by omega)).mp hclauses
    simp only [List.length_append, List.length_cons] at hn hm
    obtain ⟨ws, increment, right, mid, rfl, hincrement, hright, h⟩ :=
      (succeeds_expressionUnless_expect rfl (by decide) (by omega)).mp h
    obtain ⟨body, mid, hbody, h⟩ := succeeds_bind.mp h
    obtain ⟨rfl, rfl⟩ := succeeds_succeed.mp h
    simp only [List.length_append, List.length_cons] at hn
    obtain ⟨xs, rfl, isOpen, hbody, hrest⟩ := (hs _ _ _ _ (by omega)).mp hbody
    exact ⟨left, us, init, vs, test, semicolon, ws, increment, right, xs, body, isOpen, rfl, hleft,
      hinit, htest, hsemicolon, hincrement, hright, hbody, hrest, forLoop_eq_whileForm ..⟩
  · rintro ⟨left, us, init, vs, test, semicolon, ws, increment, right, xs, body, isOpen, rfl, hleft,
      hinit, htest, hsemicolon, hincrement, hright, hbody, hrest, rfl⟩
    simp only [List.length_append, List.length_cons] at hn hm
    refine ⟨left, _, rfl, hleft, succeeds_bind.mpr ⟨init, _,
      (succeeds_initializer ?_).mpr ⟨us, rfl, hinit⟩, ?_⟩⟩
    · simp only [List.length_append, List.length_cons]
      omega
    refine (succeeds_expressionUnless_expect rfl (by decide) ?_).mpr
      ⟨vs, test, semicolon, _, rfl, htest, hsemicolon, ?_⟩
    · simp only [List.length_append, List.length_cons]
      omega
    refine (succeeds_expressionUnless_expect rfl (by decide) ?_).mpr
      ⟨ws, increment, right, _, rfl, hincrement, hright, ?_⟩
    · simp only [List.length_append, List.length_cons]
      omega
    refine succeeds_bind.mpr ⟨body, rest, ?_, succeeds_succeed.mpr
      ⟨(forLoop_eq_whileForm init test increment body).symm, rfl⟩⟩
    exact (hs _ _ _ _ (by simp only [List.length_append]; omega)).mpr
      ⟨xs, rfl, isOpen, hbody, hrest⟩

-- What the parser of statements reads is a statement.
private theorem derives_of_statementWith (hs : ReadsStmt n statement) (hd : ReadsDecl n declaration)
    (hsure : Sure n declaration) (hlt : ts.length < n + 1)
    (h : Succeeds (statementWith statement declaration (n + 1)) eof ts s rest) :
    ∃ used, ts = used ++ rest ∧ ∃ isOpen, DerivesStmt True .statement isOpen used s ∧
      (isOpen = true → Avoids [.else] rest) := by
  rcases succeeds_accept?_bind.mp h with ⟨keyword, ts, rfl, hk, h⟩ | ⟨-, h⟩
  · have hn : ts.length < n := Nat.lt_of_succ_lt_succ hlt
    have hm : ts.length < n + 1 := Nat.lt_succ_of_lt hn
    simp only [List.mem_cons, List.not_mem_nil, or_false] at hk
    rcases hk with hk | hk | hk | hk | hk | hk | hk | hk <;> simp only [hk] at h
    · obtain ⟨left, us, init, vs, test, semicolon, ws, increment, right, xs, body, isOpen, rfl,
        hleft, hinit, htest, hsemicolon, hincrement, hright, hbody, hrest, rfl⟩ :=
        (succeeds_forStatement hs hn hm).mp h
      exact ⟨keyword :: left :: (us ++ (vs ++ semicolon :: (ws ++ right :: xs))), by simp, isOpen,
        .for hk hleft hinit htest hsemicolon hincrement hright hbody, hrest⟩
    · obtain ⟨left, us, test, right, vs, yes, isOpen, mid, rfl, hleft, htest, hright, hyes, h⟩ :=
        (succeeds_ifStatement hs hn hm).mp h
      rcases h with ⟨rfl, havoids, rfl⟩ | ⟨els, ws, no, isOpen', rfl, rfl, hels, hno, hrest, rfl⟩
      · exact ⟨keyword :: left :: (us ++ right :: vs), by simp, true,
          .if hk hleft htest hright hyes, fun _ ↦ havoids⟩
      · exact ⟨keyword :: left :: (us ++ right :: (vs ++ els :: ws)), by simp, isOpen',
          .ifElse hk hleft htest hright hyes hels hno fun _ ↦ rfl, hrest⟩
    · obtain ⟨us, e, semicolon, rfl, he, hsemicolon, rfl⟩ := (succeeds_printStatement hm).mp h
      exact ⟨keyword :: (us ++ [semicolon]), by simp, false, .print hk he hsemicolon, nofun⟩
    · obtain ⟨us, e?, semicolon, rfl, he, hsemicolon, rfl⟩ := (succeeds_returnStatement hm).mp h
      exact ⟨keyword :: (us ++ [semicolon]), by simp, false, .return hk he hsemicolon, nofun⟩
    · obtain ⟨left, us, test, right, vs, body, isOpen, rfl, hleft, htest, hright, hbody, hrest,
        rfl⟩ :=
        (succeeds_whileStatement hs hn hm).mp h
      exact ⟨keyword :: left :: (us ++ right :: vs), by simp, isOpen,
        .while hk hleft htest hright hbody, hrest⟩
    · obtain ⟨semicolon, rfl, hsemicolon, rfl⟩ := succeeds_branchStatement.mp h
      exact ⟨[keyword, semicolon], rfl, false, .branch (by simp [hk]) hsemicolon, nofun⟩
    · obtain ⟨semicolon, rfl, hsemicolon, rfl⟩ := succeeds_branchStatement.mp h
      exact ⟨[keyword, semicolon], rfl, false, .branch (by simp [hk]) hsemicolon, nofun⟩
    · obtain ⟨body, mid, hbody, h⟩ := succeeds_bind.mp h
      obtain ⟨rfl, rfl⟩ := succeeds_succeed.mp h
      obtain ⟨parts, closing, rfl, hparts, hclosing, rfl⟩ :=
        (succeeds_block hd hsure hn hm).mp hbody
      exact ⟨keyword :: (parts.flatMap Part.tokens ++ [closing]), by simp, false,
        .block hk hparts hclosing, nofun⟩
  · obtain ⟨used, rfl, hused⟩ := (succeeds_expressionStatement hlt).mp h
    exact ⟨used, rfl, false, .expr hused, nofun⟩

-- The parser of statements reads every statement.
private theorem statementWith_of_derives (hs : ReadsStmt n statement) (hd : ReadsDecl n declaration)
    (hsure : Sure n declaration) {used : List Token} {isOpen : Bool}
    (hlt : (used ++ rest).length < n + 1) (h : DerivesStmt True .statement isOpen used s)
    (hrest : isOpen = true → Avoids [.else] rest) :
    Succeeds (statementWith statement declaration (n + 1)) eof (used ++ rest) s rest := by
  rw [statementWith, succeeds_accept?_bind]
  cases h with
  | expr h =>
    refine .inr ⟨?_, (succeeds_expressionStatement hlt).mpr ⟨used, rfl, h⟩⟩
    obtain ⟨t, us, rfl, ht⟩ := h.begins
    rw [List.cons_append, avoids_cons]
    have hdisjoint : ∀ k ∈ Kind.primary ++ Kind.unary,
        k ∉ [Kind.for, .if, .print, .return, .while, .break, .continue, .leftBrace] := by decide
    exact hdisjoint _ ht
  | @print keyword semicolon us e hk he hsemicolon =>
    simp only [List.cons_append, List.append_assoc, List.nil_append] at hlt ⊢
    refine .inl ⟨keyword, _, rfl, by simp [hk], ?_⟩
    simp only [hk]
    exact (succeeds_printStatement (Nat.lt_of_succ_lt hlt)).mpr
      ⟨us, e, semicolon, rfl, he, hsemicolon, rfl⟩
  | @«return» keyword semicolon us result hk hresult hsemicolon =>
    simp only [List.cons_append, List.append_assoc, List.nil_append] at hlt ⊢
    refine .inl ⟨keyword, _, rfl, by simp [hk], ?_⟩
    simp only [hk]
    exact (succeeds_returnStatement (Nat.lt_of_succ_lt hlt)).mpr
      ⟨us, result, semicolon, rfl, hresult, hsemicolon, rfl⟩
  | @branch keyword semicolon hk hsemicolon =>
    simp only [List.mem_cons, List.not_mem_nil, or_false] at hk
    have hbranch : Succeeds (branchStatement keyword) eof (semicolon :: rest)
        (.branch keyword) rest :=
      succeeds_branchStatement.mpr ⟨semicolon, rfl, hsemicolon, rfl⟩
    refine .inl ⟨keyword, semicolon :: rest, rfl, ?_, ?_⟩
    · rcases hk with hk | hk <;> simp [hk]
    · rcases hk with hk | hk <;> simpa only [hk] using hbranch
  | @block opening closing parts hk hparts hclosing =>
    simp only [List.cons_append, List.append_assoc, List.nil_append] at hlt ⊢
    refine .inl ⟨opening, _, rfl, by simp [hk], ?_⟩
    simp only [hk]
    refine succeeds_bind.mpr ⟨_, rest, ?_, succeeds_succeed.mpr ⟨rfl, rfl⟩⟩
    exact (succeeds_block hd hsure (Nat.lt_of_succ_lt_succ hlt) (Nat.lt_of_succ_lt hlt)).mpr
      ⟨parts, closing, rfl, hparts, hclosing, rfl⟩
  | @«if» keyword left right us vs test yes isOpen' hk hleft htest hright hyes =>
    simp only [List.cons_append, List.append_assoc] at hlt ⊢
    refine .inl ⟨keyword, _, rfl, by simp [hk], ?_⟩
    simp only [hk]
    exact (succeeds_ifStatement hs (Nat.lt_of_succ_lt_succ hlt) (Nat.lt_of_succ_lt hlt)).mpr
      ⟨left, us, test, right, vs, yes, isOpen', rest, rfl, hleft, htest, hright, hyes,
        .inl ⟨rfl, hrest rfl, rfl⟩⟩
  | @ifElse keyword left right els us vs ws test yes no isOpen' _ hk hleft htest hright hyes hels
      hno hnearest =>
    simp only [List.cons_append, List.append_assoc] at hlt ⊢
    refine .inl ⟨keyword, _, rfl, by simp [hk], ?_⟩
    simp only [hk]
    exact (succeeds_ifStatement hs (Nat.lt_of_succ_lt_succ hlt) (Nat.lt_of_succ_lt hlt)).mpr
      ⟨left, us, test, right, vs, yes, isOpen', _, rfl, hleft, htest, hright, hyes,
        .inr ⟨els, ws, no, isOpen, rfl, hnearest trivial, hels, hno, hrest, rfl⟩⟩
  | @«while» keyword left right us vs test body _ hk hleft htest hright hbody =>
    simp only [List.cons_append, List.append_assoc] at hlt ⊢
    refine .inl ⟨keyword, _, rfl, by simp [hk], ?_⟩
    simp only [hk]
    exact (succeeds_whileStatement hs (Nat.lt_of_succ_lt_succ hlt) (Nat.lt_of_succ_lt hlt)).mpr
      ⟨left, us, test, right, vs, body, isOpen, rfl, hleft, htest, hright, hbody, hrest, rfl⟩
  | @«for» keyword left semicolon right us vs ws xs init test increment body _ hk hleft hinit htest
      hsemicolon hincrement hright hbody =>
    simp only [List.cons_append, List.append_assoc] at hlt ⊢
    refine .inl ⟨keyword, _, rfl, by simp [hk], ?_⟩
    simp only [hk]
    exact (succeeds_forStatement hs (Nat.lt_of_succ_lt_succ hlt) (Nat.lt_of_succ_lt hlt)).mpr
      ⟨left, us, init, vs, test, semicolon, ws, increment, right, xs, body, isOpen, rfl, hleft,
        hinit, htest, hsemicolon, hincrement, hright, hbody, hrest, rfl⟩

/-- One statement, given parsers for the statements and declarations within it. -/
theorem reads_statementWith (hs : ReadsStmt n statement) (hd : ReadsDecl n declaration)
    (hsure : Sure n declaration) :
    ReadsStmt (n + 1) (statementWith statement declaration (n + 1)) := by
  intro eof ts s rest hlt
  constructor
  · exact derives_of_statementWith hs hd hsure hlt
  · rintro ⟨used, rfl, isOpen, hused, hrest⟩
    exact statementWith_of_derives hs hd hsure hlt hused hrest

private theorem succeeds_recovering {p : Parser (Stmt Unit)} :
    Succeeds (recovering p) eof ts (some s) rest ↔ Succeeds p eof ts s rest := by
  unfold Succeeds recovering
  rcases p eof ts with ⟨_ | s', left, errors⟩
  · simp
  · simp

/-- One declaration, given parsers for statements and for the declarations within it. -/
theorem reads_declarationWith (hs : ReadsStmt (n + 1) statement) (hd : ReadsDecl n declaration)
    (hsure : Sure n declaration) :
    ReadsDecl (n + 1) (declarationWith statement declaration (n + 1)) := by
  intro eof ts s rest hlt
  rw [declarationWith, succeeds_recovering, succeeds_accept?_bind]
  constructor
  · rintro (⟨t, mid, rfl, hk, h⟩ | ⟨-, h⟩)
    · have hn : mid.length < n := Nat.lt_of_succ_lt_succ hlt
      rw [List.mem_cons, List.mem_singleton] at hk
      rcases hk with hk | hk
      · simp only [hk, if_true] at h
        obtain ⟨name, left, us, params, right, opening, parts, closing, rfl, hname, hleft, hparams,
          hright, hopening, hparts, hclosing, rfl⟩ :=
          (succeeds_funDeclaration hd hsure hn (Nat.lt_succ_of_lt hn)).mp h
        exact ⟨t :: name :: left ::
            (us ++ right :: opening :: (parts.flatMap Part.tokens ++ [closing])), by simp, false,
          .function hk hname hleft hparams hright hopening hparts hclosing, nofun⟩
      · simp only [hk, reduceCtorEq, if_false] at h
        obtain ⟨used, rfl, hused⟩ := (succeeds_varDeclaration (Nat.lt_succ_of_lt hn) hk).mp h
        exact ⟨t :: used, rfl, false, .var hused, nofun⟩
    · obtain ⟨used, rfl, isOpen, hused, hrest⟩ := (hs _ _ _ _ hlt).mp h
      exact ⟨used, rfl, isOpen, .statement hused, hrest⟩
  · rintro ⟨used, rfl, isOpen, hused, hrest⟩
    cases hused with
    | statement h =>
      refine .inr ⟨?_, (hs _ _ _ _ hlt).mpr ⟨used, rfl, isOpen, h, hrest⟩⟩
      obtain ⟨t, us, rfl, ht⟩ := h.begins
      rw [List.cons_append, avoids_cons]
      have hdisjoint : ∀ k ∈ beginnings .statement, k ∉ [Kind.fun, Kind.var] := by decide
      exact hdisjoint _ ht
    | var h =>
      obtain ⟨keyword, us, rfl, hk⟩ := VarDeclaration.exists_cons h
      refine .inl ⟨keyword, us ++ rest, rfl, by simp [hk], ?_⟩
      simp only [hk, reduceCtorEq, if_false]
      exact (succeeds_varDeclaration (Nat.lt_of_succ_lt hlt) hk).mpr ⟨us, rfl, h⟩
    | @function keyword name left right opening closing us params parts hk hname hleft hparams
        hright hopening hparts hclosing =>
      simp only [List.cons_append, List.append_assoc, List.nil_append] at hlt ⊢
      refine .inl ⟨keyword, _, rfl, by simp [hk], ?_⟩
      simp only [hk, if_true]
      exact (succeeds_funDeclaration hd hsure (Nat.lt_of_succ_lt_succ hlt)
        (Nat.lt_of_succ_lt hlt)).mpr ⟨name, left, us, params, right, opening, parts, closing, rfl,
          hname, hleft, hparams, hright, hopening, hparts, hclosing, rfl⟩

/-- Without errors, no declaration was dropped. -/
theorem sure_declaration (n : Nat) : Sure n (Parser.declaration n) := by
  intro eof ts hlt herrors
  have hvalue := (tracks_statement_declaration .same [] n n).2 eof eof ts hlt hlt |>.reports
  obtain ⟨s?, rest, h⟩ := exists_succeeds (fun hnone ↦ hvalue hnone herrors) herrors
  cases s? with
  | none => exact absurd herrors (errors_declaration_of_dropped hlt (succeeds_iff.mp h).1)
  | some s => exact ⟨s, rest, h⟩

/-- The parsers of statements and of declarations read those of the grammar. -/
theorem reads_statement_declaration (n : Nat) :
    ReadsStmt n (Parser.statement n) ∧ ReadsDecl n (Parser.declaration n) := by
  induction n with
  | zero => exact ⟨fun _ _ _ _ hlt ↦ absurd hlt (Nat.not_lt_zero _),
      fun _ _ _ _ hlt ↦ absurd hlt (Nat.not_lt_zero _)⟩
  | succ n ih =>
    have hs := reads_statementWith ih.1 ih.2 (sure_declaration n)
    exact ⟨hs, reads_declarationWith hs ih.2 (sure_declaration n)⟩

/-- The parser of programs reads those of the grammar, up to the end. -/
theorem succeeds_program (hlt : ts.length < n) {p : Program Unit} :
    Succeeds (program n) eof ts p rest ↔ rest = [] ∧ DerivesProgram True ts p := by
  have hdeclarations : Succeeds (program n) eof ts p rest ↔
      ∃ parts, ts = parts.flatMap Part.tokens ++ rest ∧ AllDerived parts ∧
        p = parts.map Part.stmt ∧ ∀ t ∈ rest.head?, false = true :=
    succeeds_declarations (reads_statement_declaration n).2 (sure_declaration n) (fun _ _ ↦ rfl) rfl
      hlt hlt
  rw [hdeclarations]
  constructor
  · rintro ⟨parts, rfl, hparts, rfl, hrest⟩
    obtain rfl : rest = [] := by
      cases rest with
      | nil => rfl
      | cons t rest => cases hrest t rfl
    exact ⟨rfl, parts, hparts, List.append_nil _, rfl⟩
  · rintro ⟨rfl, parts, hparts, rfl, rfl⟩
    exact ⟨parts, (List.append_nil _).symm, hparts, rfl, fun _ h ↦ nomatch h⟩

end Statements

end Lox.Parser

namespace Lox

open Lox.Parser Grammar

variable {ts : List Token} {eof : Token}

/-- The parser yields a program without errors exactly for the tokens that form it by the grammar.
-/
theorem parseTokens_eq_iff (hts : ∀ t ∈ ts, t.kind ≠ .eof) (heof : eof.kind = .eof)
    {p : Program Unit} : parseTokens (ts ++ [eof]) = ⟨p, []⟩ ↔ DerivesProgram True ts p := by
  have hlt : ts.length < ts.length + 2 := by omega
  rw [parseTokens_append_end hts heof, Parsed.mk.injEq]
  constructor
  · rintro ⟨htree, herrors⟩
    have hreports := (tracks_program .same [] _ _ (ending (ts ++ [eof])) eof ts hlt hlt).reports
    obtain ⟨p', rest, h⟩ := exists_succeeds (fun hnone ↦ hreports hnone herrors) herrors
    rw [(succeeds_iff.mp h).1] at htree
    obtain rfl : p' = p := htree
    exact ((succeeds_program hlt).mp h).2
  · intro h
    have h' : Succeeds (program (ts.length + 2)) (ending (ts ++ [eof])) ts p [] :=
      (succeeds_program hlt).mpr ⟨rfl, h⟩
    obtain ⟨hvalue, -, herrors⟩ := succeeds_iff.mp h'
    exact ⟨by rw [hvalue]; rfl, herrors⟩

/-- Tokens form a program without errors exactly if the grammar derives one, and then the program is
the one whose derivation puts every `else` to the nearest `if` before it that has none. -/
theorem parseTokens_iff_derives (hts : ∀ t ∈ ts, t.kind ≠ .eof) (heof : eof.kind = .eof) :
    ((parseTokens (ts ++ [eof])).errors = [] ↔ ∃ p, DerivesProgram False ts p) ∧
      ∀ p, parseTokens (ts ++ [eof]) = ⟨p, []⟩ ↔ DerivesProgram True ts p := by
  refine ⟨?_, fun p ↦ parseTokens_eq_iff hts heof⟩
  rw [derivesProgram_nearest]
  constructor
  · intro herrors
    refine ⟨(parseTokens (ts ++ [eof])).tree, (parseTokens_eq_iff hts heof).mp ?_⟩
    rw [← herrors]
  · rintro ⟨p, hp⟩
    rw [(parseTokens_eq_iff hts heof).mpr hp]

/-- In `if (x) if (x) break; else continue; for (;;) break;` the `else` belongs to the second `if`,
and the loop goes on for ever. -/
theorem parseTokens_nested_conditionals :
    parseTokens ([.bare .if, .bare .leftParen, .bare .identifier, .bare .rightParen,
        .bare .if, .bare .leftParen, .bare .identifier, .bare .rightParen,
        .bare .break, .bare .semicolon, .bare .else, .bare .continue, .bare .semicolon,
        .bare .for, .bare .leftParen, .bare .semicolon, .bare .semicolon, .bare .rightParen,
        .bare .break, .bare .semicolon] ++ [.endOf 1]) =
      ⟨[.ifElse (.bare .if) (.variable (.bare .identifier) ())
          (.ifElse (.bare .if) (.variable (.bare .identifier) ()) (.branch (.bare .break))
            (some (.branch (.bare .continue)))) none,
        .while (.bare .for) (.literal ⟨.true, Bytes.ofString "true", .nil, 1⟩ (.bool true))
          (.branch (.bare .break))], []⟩ := by
  have hname : Derives .assignment [.bare .identifier] (.variable (.bare .identifier) ()) :=
    (Derives.variable rfl).loosen (by decide)
  have hbreak : DerivesStmt True .statement false [.bare .break, .bare .semicolon]
      (.branch (.bare .break)) := .branch (by decide) rfl
  have hcontinue : DerivesStmt True .statement false [.bare .continue, .bare .semicolon]
      (.branch (.bare .continue)) := .branch (by decide) rfl
  have hinner : DerivesStmt True .statement false (.bare .if :: .bare .leftParen ::
        ([Token.bare .identifier] ++ Token.bare .rightParen ::
          ([Token.bare .break, Token.bare .semicolon] ++
            Token.bare .else :: [Token.bare .continue, Token.bare .semicolon])))
      (.ifElse (.bare .if) (.variable (.bare .identifier) ()) (.branch (.bare .break))
        (some (.branch (.bare .continue)))) :=
    .ifElse rfl rfl hname rfl hbreak rfl hcontinue fun _ ↦ rfl
  have hif : DerivesStmt True .statement true (.bare .if :: .bare .leftParen ::
      ([Token.bare .identifier] ++ Token.bare .rightParen :: _)) _ := .if rfl rfl hname rfl hinner
  have hloop : DerivesStmt True .statement false (.bare .for :: .bare .leftParen ::
        ([Token.bare .semicolon] ++ ([] ++ Token.bare .semicolon :: ([] ++ Token.bare .rightParen ::
          [Token.bare .break, Token.bare .semicolon]))))
      (whileForm (.bare .for) none none none (.branch (.bare .break))) :=
    .for rfl rfl (.none rfl) .none rfl .none rfl hbreak
  exact ((parseTokens_iff_derives (by decide) rfl).2 _).mpr ⟨[⟨_, _, true⟩, ⟨_, _, false⟩],
    List.forall_mem_cons.mpr ⟨.statement hif, List.forall_mem_cons.mpr ⟨.statement hloop,
      List.forall_mem_nil _⟩⟩, rfl, rfl⟩

end Lox
