import Lox.Proofs.Grammar.Yield
import Lox.Proofs.Number.Text
import Lox.Proofs.Syntax.Term
import Lox.Proofs.Token.Spacing

/-!
# Reading the parenthesized form of expressions

The parenthesized form of an expression is the text of a term: names and literals are its words, and
operations are its lists. Its names and words are tokens again, and together with the number of the
operands they tell which operation is meant, so that the expression can be read off the term
(`Expr.tells_term`). What is lost is where the tokens were and how numbers were spelled; and a
string is written without its quotes, so that it is no token any more. Different expressions without
strings have different parenthesized forms (`Expr.essence_eq_of_prefixed_eq`).
-/

namespace Lox

/-- A token without its line and, if it is a number, without its spelling. -/
def Token.essence (t : Token) : Token :=
  { t with lexeme := if t.kind = .number then [] else t.lexeme, line := 0 }

section Trees

variable {β : Type}

mutual

/-- An expression without the lines of its tokens and the spelling of its numbers. -/
def Expr.essence : Expr β → Expr β
  | .literal t v => .literal t.essence v
  | .grouping t x => .grouping t.essence x.essence
  | .unary t x => .unary t.essence x.essence
  | .binary x t y => .binary x.essence t.essence y.essence
  | .logical x t y => .logical x.essence t.essence y.essence
  | .variable t u => .variable t.essence u
  | .assign t u x => .assign t.essence u x.essence
  | .call c t args => .call c.essence t.essence (Expr.essences args)

/-- Expressions without the lines of their tokens and the spelling of their numbers. -/
def Expr.essences : List (Expr β) → List (Expr β)
  | [] => []
  | x :: xs => x.essence :: Expr.essences xs

end

mutual

/-- The values of the literals in an expression. -/
def Expr.literals : Expr β → List Literal
  | .literal _ v => [v]
  | .grouping _ x | .unary _ x | .assign _ _ x => x.literals
  | .binary x _ y | .logical x _ y => x.literals ++ y.literals
  | .variable _ _ => []
  | .call c _ args => c.literals ++ Expr.literalsAll args

/-- The values of the literals in several expressions. -/
def Expr.literalsAll : List (Expr β) → List Literal
  | [] => []
  | x :: xs => x.literals ++ Expr.literalsAll xs

end

/-- The name of a list that stands for parentheses of the source. -/
def Term.groupName : Bytes := Bytes.ofString "group"

/-- The name of a list that stands for a call. -/
def Term.callName : Bytes := Bytes.ofString "call"

/-- The name of a list that stands for an assignment. -/
def Term.assignName : Bytes := Bytes.ofString "="

mutual

/-- The term that the parenthesized form of an expression is the text of. -/
def Expr.term : Expr β → Term
  | .literal _ v => .word v.written
  | .grouping _ x => .list Term.groupName [x.term]
  | .unary op x => .list op.lexeme [x.term]
  | .binary x op y | .logical x op y => .list op.lexeme [x.term, y.term]
  | .variable name _ => .word name.lexeme
  | .assign name _ x => .list Term.assignName [.word name.lexeme, x.term]
  | .call c _ args => .list Term.callName (c.term :: Expr.terms args)

/-- The terms of several expressions. -/
def Expr.terms : List (Expr β) → List Term
  | [] => []
  | x :: xs => x.term :: Expr.terms xs

end

mutual

private theorem Expr.text_term : (e : Expr β) → e.term.text = e.prefixed
  | .literal _ _ | .variable _ _ => rfl
  | .grouping _ x | .unary _ x => by
    simp only [term, Term.text, Term.textAll, prefixed, x.text_term, Term.groupName]
  | .binary x _ y | .logical x _ y => by
    simp only [term, Term.text, Term.textAll, prefixed, x.text_term, y.text_term]
  | .assign _ _ x => by
    simp only [term, Term.text, Term.textAll, prefixed, x.text_term, Term.assignName]
  | .call c _ args => by
    simp only [term, Term.text, Term.textAll, prefixed, c.text_term, Expr.textAll_terms args,
      Term.callName]

private theorem Expr.textAll_terms :
    (es : List (Expr β)) → Term.textAll (Expr.terms es) = prefixedList es
  | [] => rfl
  | e :: es => by
    simp only [terms, Term.textAll, prefixedList, e.text_term, Expr.textAll_terms es]

end

end Trees

/-! ## From terms to expressions -/

namespace Term

/-- The token that a text is. -/
def token (w : Bytes) : Token := ((scan w).tokens.headD (.endOf 1)).essence

/-- The expression that a word stands for. -/
def leaf? (w : Bytes) : Option (Expr Unit) :=
  if (token w).kind = .identifier then some (.variable (token w) ())
  else (token w).value?.map (.literal (token w))

/-- The operation that an operator makes of its operands. -/
def operation? (op : Token) : List (Expr Unit) → Option (Expr Unit)
  | [x] => some (.unary op x)
  | [x, y] => some (if op.kind ∈ Kind.logical then .logical x op y else .binary x op y)
  | _ => none

/-- The expression that a name makes of its operands. -/
def node? (name : Bytes) (xs : List (Expr Unit)) : Option (Expr Unit) :=
  if name = groupName then xs.head?.map (.grouping (token [Bytes.ascii '(']))
  else if name = callName then
    xs.head?.map fun callee ↦ .call callee (token [Bytes.ascii ')']) xs.tail
  else if name = assignName then
    match xs with
    | [.variable target (), x] => some (.assign target () x)
    | _ => none
  else operation? (token name) xs

mutual

/-- The expression that a term stands for. -/
def expr? : Term → Option (Expr Unit)
  | .word w => leaf? w
  | .list name operands => (exprs? operands).bind (node? name)

/-- The expressions that several terms stand for. -/
def exprs? : List Term → Option (List (Expr Unit))
  | [] => some []
  | f :: fs => f.expr?.bind fun x ↦ (exprs? fs).map (x :: ·)

end

end Term

/-! ## The texts of tokens -/

open Term

section Lexemes

variable {k : Kind} {w : Bytes} {v : Literal}

private theorem plain_of_forall {p : UInt8 → Bool} (hp : ∀ c ∈ w, p c)
    (hends : [Bytes.ascii ' ', Bytes.ascii '(', Bytes.ascii ')'].any p = false) : Plain w := by
  intro c hc hend
  exact absurd (hp c hc) (List.any_eq_false.mp hends c hend)

/-- The text of a token is plain, unless it is a string or a parenthesis. -/
theorem Lexeme.plain (h : Lexeme k w v) (hk : k ∉ [.string, .leftParen, .rightParen]) :
    Plain w := by
  have htable : ∀ p ∈ Kind.operators ++ Kind.keywords,
      p.2 ∉ [.string, .leftParen, .rightParen] → Plain p.1 := by decide
  cases h with
  | operator h => exact htable (w, k) (List.mem_append_left _ h) hk
  | keyword h => exact htable (w, k) (List.mem_append_right _ h) hk
  | identifier hw hfree => exact plain_of_forall hw.isWordPart (by decide)
  | string hs => exact absurd List.mem_cons_self hk
  | integer hds => exact plain_of_forall hds.2 (by decide)
  | @fraction ds fs hds hfs =>
    refine plain_of_forall (p := fun c ↦ Decimal.isDigit c || c == Bytes.ascii '.')
      (fun c hc ↦ ?_) (by decide)
    rcases List.mem_append.mp hc with hc | hc
    · simp [hds.2 c hc]
    · rcases List.mem_cons.mp hc with rfl | hc
      · simp
      · simp [hfs.2 c hc]

/-- Operators and reserved words are listed. -/
theorem Lexeme.mem_table (h : Lexeme k w v) (hk : k ∉ [.identifier, .string, .number]) :
    (w, k) ∈ Kind.operators ++ Kind.keywords := by
  cases h with
  | operator h => exact List.mem_append_left _ h
  | keyword h => exact List.mem_append_right _ h
  | identifier | string | integer | fraction => simp at hk

/-- What has the kind of a string has the value of one. -/
theorem Lexeme.exists_text (h : Lexeme .string w v) : ∃ s, v = .text s := by
  have htable : ∀ p ∈ Kind.operators ++ Kind.keywords, p.2 ≠ .string := by decide
  cases h with
  | operator h => exact absurd rfl (htable _ (List.mem_append_left _ h))
  | keyword h => exact absurd rfl (htable _ (List.mem_append_right _ h))
  | string hs => exact ⟨_, rfl⟩

private theorem token_of_lexeme (h : Lexeme k w v) (line : Int) :
    token w = Token.essence ⟨k, w, v, line⟩ := by
  have htokens := tokensFrom_lexeme 1 h apart_nil
  rw [List.append_nil] at htokens
  rw [token, tokens_scan, htokens]
  rfl

end Lexemes

/-- A token as it is scanned without an error. -/
structure Token.Sound (t : Token) : Prop where
  lexeme : Lexeme t.kind t.lexeme t.literal
  rangeError? : t.rangeError? = none

namespace Token.Sound

variable {t : Token} {k : Kind}

private theorem token_eq (h : t.Sound) : token t.lexeme = t.essence :=
  token_of_lexeme h.lexeme t.line

/-- The kind of an operator or a reserved word tells its text. -/
theorem lexeme_eq {w : Bytes} (h : t.Sound) (hk : t.kind = k)
    (hother : k ∉ [.identifier, .string, .number])
    (htable : ∀ p ∈ Kind.operators ++ Kind.keywords, p.2 = k → p.1 = w) : t.lexeme = w :=
  htable (t.lexeme, t.kind) (h.lexeme.mem_table (hk ▸ hother)) hk

/-- The kind of an operator or a reserved word tells it. -/
theorem token_of_kind {w : Bytes} (h : t.Sound) (hk : t.kind = k)
    (hother : k ∉ [.identifier, .string, .number])
    (htable : ∀ p ∈ Kind.operators ++ Kind.keywords, p.2 = k → p.1 = w) : token w = t.essence :=
  h.lexeme_eq hk hother htable ▸ h.token_eq

/-- An operator is plain, and no other list has its name. -/
theorem operator (h : t.Sound) (hk : t.kind ∈ Kind.unary ++ Kind.binary ++ Kind.logical) :
    Plain t.lexeme ∧ t.lexeme ∉ [groupName, callName, assignName] := by
  have hkinds : ∀ k ∈ Kind.unary ++ Kind.binary ++ Kind.logical,
      k ∉ [.identifier, .string, .number] := by decide
  have htable : ∀ p ∈ Kind.operators ++ Kind.keywords,
      p.2 ∈ Kind.unary ++ Kind.binary ++ Kind.logical →
        Plain p.1 ∧ p.1 ∉ [groupName, callName, assignName] := by decide
  exact htable (t.lexeme, t.kind) (h.lexeme.mem_table (hkinds _ hk)) hk

private theorem node?_operator (h : t.Sound)
    (hk : t.kind ∈ Kind.unary ++ Kind.binary ++ Kind.logical) (xs : List (Expr Unit)) :
    node? t.lexeme xs = operation? t.essence xs := by
  have hother := (h.operator hk).2
  simp only [List.mem_cons, List.not_mem_nil, or_false, not_or] at hother
  unfold node?
  rw [if_neg hother.1, if_neg hother.2.1, if_neg hother.2.2, h.token_eq]

-- The value of a number token is finite, and its text is a number token of this value.
private theorem lexeme_number (h : t.Sound) (hk : t.kind = .number) :
    ∃ x, t.literal = .number x ∧ Lexeme .number x.literalText (.number x) := by
  have hliteral := (hk ▸ h.lexeme).literal_eq_number
  cases hread : (Decimal.ofText t.lexeme).toNumber? with
  | none =>
    have herror := h.rangeError?
    rw [Token.rangeError?, if_pos ⟨hk, (Decimal.toNumber?_eq_none_iff _).mp hread⟩] at herror
    cases herror
  | some x =>
    rw [Segment.numberValue, hread] at hliteral
    exact ⟨x, hliteral, Number.lexeme_literalText hread⟩

-- A literal that is no string is a reserved word or a number.
private theorem kind_of_value? (h : t.Sound) {v : Literal} (hv : t.value? = some v)
    (htext : ∀ s, v ≠ .text s) : t.kind ∈ [.false, .true, .nil, .number] := by
  unfold Token.value? at hv
  split at hv
  case h_1 hk | h_2 hk | h_3 hk | h_4 hk => simp [hk]
  case h_5 hk =>
    cases hv
    obtain ⟨s, hs⟩ := (hk ▸ h.lexeme).exists_text
    exact absurd hs (htext s)
  case h_6 => cases hv

-- The text of a literal is one for its token, and the same one unless it is a number.
private theorem lexeme_written (h : t.Sound) {v : Literal} (hv : t.value? = some v)
    (hkind : t.kind ∈ [.false, .true, .nil, .number]) :
    Lexeme t.kind v.written t.literal ∧ (t.kind ≠ .number → v.written = t.lexeme) := by
  have hreserved (hsame : t.lexeme = v.written) :
      Lexeme t.kind v.written t.literal ∧ (t.kind ≠ .number → v.written = t.lexeme) :=
    hsame ▸ ⟨h.lexeme, fun _ ↦ rfl⟩
  simp only [List.mem_cons, List.not_mem_nil, or_false] at hkind
  rcases hkind with hk | hk | hk | hk
  case inr.inr.inr =>
    obtain ⟨x, hx, hlexeme⟩ := h.lexeme_number hk
    rw [Token.value?, hk, hx] at hv
    cases hv
    rw [hk, hx]
    exact ⟨hlexeme, fun hne ↦ absurd rfl hne⟩
  all_goals
    rw [Token.value?, hk] at hv
    cases hv
    exact hreserved (h.lexeme_eq hk (by decide) (by decide))

/-- A literal is written as its token, but for the spelling of a number. -/
theorem written (h : t.Sound) {v : Literal} (hv : t.value? = some v)
    (htext : ∀ s, v ≠ .text s) :
    Plain v.written ∧ leaf? v.written = some (.literal t.essence v) := by
  have hkind := h.kind_of_value? hv htext
  have hother : ∀ k ∈ [Kind.false, .true, .nil, .number],
      k ∉ [.string, .leftParen, .rightParen] ∧ k ≠ .identifier := by decide
  obtain ⟨hlexeme, hspelling⟩ := h.lexeme_written hv hkind
  have hessence : token v.written = t.essence := by
    rw [token_of_lexeme hlexeme t.line]
    by_cases hnumber : t.kind = .number
    · simp [Token.essence, hnumber]
    · simp [Token.essence, hnumber, hspelling hnumber]
  have hvalue : t.essence.value? = some v := hv
  refine ⟨hlexeme.plain (hother _ hkind).1, ?_⟩
  rw [leaf?, hessence, hvalue]
  exact if_neg (hother _ hkind).2

/-- A name is written as its token. -/
theorem name (h : t.Sound) (hk : t.kind = .identifier) :
    Plain t.lexeme ∧ leaf? t.lexeme = some (.variable t.essence ()) := by
  refine ⟨h.lexeme.plain (by rw [hk]; decide), ?_⟩
  rw [leaf?, h.token_eq]
  exact if_pos hk

end Token.Sound

/-! ## Reading terms back -/

namespace Term

/-- A term with plain words that an expression can be read off. -/
def Tells (f : Term) (e : Expr Unit) : Prop := f.Proper ∧ f.expr? = some e

/-- Forms with plain words that expressions can be read off. -/
def AllTell (fs : List Term) (es : List (Expr Unit)) : Prop := AllProper fs ∧ exprs? fs = some es

section Tells

variable {f : Term} {fs : List Term} {e : Expr Unit} {es : List (Expr Unit)} {name : Bytes}

private theorem allTell_nil : AllTell [] [] := ⟨trivial, rfl⟩

private theorem Tells.cons (h : f.Tells e) (hs : AllTell fs es) : AllTell (f :: fs) (e :: es) :=
  ⟨⟨h.1, hs.1⟩, by rw [exprs?, h.2, hs.2]; rfl⟩

private theorem AllTell.list (hs : AllTell fs es) (hname : Plain name)
    (hnode : node? name es = some e) : (Term.list name fs).Tells e :=
  ⟨⟨hname, hs.1⟩, by rw [expr?, hs.2]; exact hnode⟩

/-- The list of an operator and its operands. -/
theorem AllTell.operation (hs : AllTell fs es) {op : Token} (h : op.Sound)
    (hk : op.kind ∈ Kind.unary ++ Kind.binary ++ Kind.logical)
    (he : operation? op.essence es = some e) : (Term.list op.lexeme fs).Tells e :=
  hs.list (h.operator hk).1 ((h.node?_operator hk es).trans he)

end Tells
end Term

/-- An expression without strings, whose tokens stand as they are scanned without errors. -/
structure Expr.Printable (e : Expr Unit) : Prop where
  wellLevelled : e.WellLevelled
  sound : ∀ t, .kept t ∈ e.pieces → t.Sound
  stringless : ∀ s, .text s ∉ e.literals

/-- A part of a printable expression, in its place, is printable. -/
theorem Expr.Printable.part {e x : Expr Unit} (h : e.Printable) (hw : x.WellLevelled)
    (hpieces : x.pieces ⊆ e.pieces) (hliterals : x.literals ⊆ e.literals) : x.Printable :=
  ⟨hw, fun t ht ↦ h.sound t (hpieces ht), fun s hs ↦ h.stringless s (hliterals hs)⟩

section Calls

variable {es : List (Expr Unit)}

private theorem Expr.mem_piecesAll {p : Piece} {e : Expr Unit} (he : e ∈ es) (hp : p ∈ e.pieces) :
    p ∈ Expr.piecesAll es := by
  induction es with
  | nil => cases he
  | cons x xs ih =>
    cases xs with
    | nil =>
      obtain rfl := List.mem_singleton.mp he
      exact hp
    | cons y ys =>
      rcases List.mem_cons.mp he with rfl | he
      · exact List.mem_append_left _ hp
      · exact List.mem_append_right _ (.tail _ (ih he))

private theorem Expr.mem_literalsAll {v : Literal} {e : Expr Unit} (he : e ∈ es)
    (hv : v ∈ e.literals) : v ∈ Expr.literalsAll es := by
  induction es with
  | nil => cases he
  | cons x xs ih =>
    rcases List.mem_cons.mp he with rfl | he
    · exact List.mem_append_left _ hv
    · exact List.mem_append_right _ (ih he)

end Calls

mutual

/-- The term of an expression tells the expression. -/
theorem Expr.tells_term : (e : Expr Unit) → e.Printable → e.term.Tells e.essence
  | .literal t v, h => by
    obtain ⟨hplain, hleaf⟩ := (h.sound t (by simp [pieces])).written h.wellLevelled
      (by simpa [literals, eq_comm] using h.stringless)
    exact ⟨hplain, hleaf⟩
  | .variable name u, h => (h.sound name (by simp [pieces])).name h.wellLevelled
  | .grouping paren x, h => by
    obtain ⟨hparen, hw⟩ := h.wellLevelled
    have hx := x.tells_term (h.part hw (by simp [pieces]) (by simp [literals]))
    have htoken := (h.sound paren (by simp [pieces])).token_of_kind (w := [Bytes.ascii '(']) hparen
      (by decide) (by decide)
    refine (hx.cons allTell_nil).list (by decide) ?_
    rw [essence, ← htoken]
    rfl
  | .unary op x, h => by
    obtain ⟨hop, -, hw⟩ := h.wellLevelled
    have hx := x.tells_term (h.part hw (by simp [pieces]) (by simp [literals]))
    exact (hx.cons allTell_nil).operation (h.sound op (by simp [pieces])) (by simp [hop]) rfl
  | .binary x op y, h => by
    obtain ⟨hop, -, hwx, hwy⟩ := h.wellLevelled
    have hx := x.tells_term (h.part hwx (by simp [pieces]) (by simp [literals]))
    have hy := y.tells_term (h.part hwy (by simp [pieces]) (by simp [literals]))
    have hdisjoint : ∀ k ∈ Kind.binary, k ∉ Kind.logical := by decide
    exact (hx.cons (hy.cons allTell_nil)).operation (h.sound op (by simp [pieces])) (by simp [hop])
      (congrArg some (if_neg (hdisjoint _ hop)))
  | .logical x op y, h => by
    obtain ⟨hop, -, hwx, hwy⟩ := h.wellLevelled
    have hx := x.tells_term (h.part hwx (by simp [pieces]) (by simp [literals]))
    have hy := y.tells_term (h.part hwy (by simp [pieces]) (by simp [literals]))
    exact (hx.cons (hy.cons allTell_nil)).operation (h.sound op (by simp [pieces])) (by simp [hop])
      (congrArg some (if_pos hop))
  | .assign name u x, h => by
    obtain ⟨hname, hw⟩ := h.wellLevelled
    have hx := x.tells_term (h.part hw (by simp [pieces]) (by simp [literals]))
    have htarget : Tells (.word name.lexeme) (.variable name.essence ()) :=
      (h.sound name (by simp [pieces])).name hname
    exact (htarget.cons (hx.cons allTell_nil)).list (by decide) rfl
  | .call c paren args, h => by
    obtain ⟨-, hw, hargs, -, hparen⟩ := h.wellLevelled
    have hc := c.tells_term (h.part hw (by simp [pieces]) (by simp [literals]))
    have hall := Expr.allTell_terms args fun e he ↦
      h.part (Grammar.allWellLevelled_iff.mp hargs e he)
        (fun p hp ↦ by simp [pieces, mem_piecesAll he hp])
        (fun v hv ↦ by simp [literals, mem_literalsAll he hv])
    have htoken := (h.sound paren (by simp [pieces])).token_of_kind (w := [Bytes.ascii ')']) hparen
      (by decide) (by decide)
    refine (hc.cons hall).list (by decide) ?_
    rw [essence, ← htoken]
    rfl

/-- The terms of several expressions tell the expressions. -/
theorem Expr.allTell_terms : (es : List (Expr Unit)) → (∀ e ∈ es, e.Printable) →
    AllTell (Expr.terms es) (Expr.essences es)
  | [], _ => allTell_nil
  | e :: es, h =>
    (e.tells_term (h e List.mem_cons_self)).cons
      (Expr.allTell_terms es fun x hx ↦ h x (List.mem_cons_of_mem e hx))

end

/-- What is parsed of a source without errors is printable, if it has no strings. -/
theorem Expr.printable_of_parseExpr {src : Bytes} {e : Expr Unit}
    (h : parseExpr src = ⟨some e, []⟩) (hstrings : ∀ s, .text s ∉ e.literals) : e.Printable := by
  obtain ⟨herrors, hderives⟩ := parseExpr_eq_iff.mp h
  obtain ⟨hw, hfit⟩ := Grammar.derives_iff_wellLevelled.mp hderives
  have hrange : (tokensFrom 1 src).filterMap Token.rangeError? = [] := by
    rw [← filter_errors_scan, errors_scan, herrors, List.filter_nil]
  refine ⟨hw, fun t ht ↦ ?_, hstrings⟩
  have hmem := hfit.mem_of_kept ht
  exact ⟨lexeme_of_mem_tokensFrom t hmem, List.filterMap_eq_nil_iff.mp hrange t hmem⟩

/-- The parenthesized form of an expression is unambiguous. Two expressions without strings that are
parsed without errors and have the same parenthesized form are the same, up to the lines of their
tokens and the spelling of their numbers. -/
theorem Expr.essence_eq_of_prefixed_eq {src src' : Bytes} {e e' : Expr Unit}
    (he : parseExpr src = ⟨some e, []⟩) (he' : parseExpr src' = ⟨some e', []⟩)
    (hstrings : ∀ s, .text s ∉ e.literals) (hstrings' : ∀ s, .text s ∉ e'.literals)
    (h : e.prefixed = e'.prefixed) : e.essence = e'.essence := by
  obtain ⟨hproper, hread⟩ := e.tells_term (printable_of_parseExpr he hstrings)
  obtain ⟨hproper', hread'⟩ := e'.tells_term (printable_of_parseExpr he' hstrings')
  rw [← e.text_term, ← e'.text_term] at h
  rw [text_injective hproper hproper' h, hread'] at hread
  exact (Option.some.inj hread).symm

-- The number one and a half.
private def threeHalves : Literal := .number ⟨0x3FF8000000000000⟩

-- What `a <= -1.5` is parsed as, with some spelling of the number on some line.
private def comparison (digits : Bytes) (line : Int) : Expr Unit :=
  .binary (.variable ⟨.identifier, Bytes.ofString "a", .nil, 1⟩ ())
    ⟨.lessEqual, Bytes.ofString "<=", .nil, 1⟩
    (.unary ⟨.minus, Bytes.ofString "-", .nil, line⟩
      (.literal ⟨.number, digits, threeHalves, line⟩ threeHalves))

private theorem parseExpr_comparison {src digits : Bytes} {line : Int}
    (htokens : tokensFrom 1 src = [⟨.identifier, Bytes.ofString "a", .nil, 1⟩,
      ⟨.lessEqual, Bytes.ofString "<=", .nil, 1⟩, ⟨.minus, Bytes.ofString "-", .nil, line⟩,
      ⟨.number, digits, threeHalves, line⟩])
    (herrors : tokenErrorsFrom 1 src = []) :
    parseExpr src = ⟨some (comparison digits line), []⟩ := by
  have hminus : Kind.minus ∈ Kind.unary := by decide
  have hnumber : Grammar.Level.unary ≤ .primary := by decide
  have hright : Grammar.Level.comparison < .unary := by decide
  rw [parseExpr_eq_iff, htokens, Grammar.derives_iff_wellLevelled]
  refine ⟨herrors, ⟨by decide, ⟨.comparison, rfl, by decide, hright⟩, rfl, ?_⟩, ?_⟩
  · exact ⟨hminus, hnumber, rfl⟩
  · exact .cons rfl (.cons rfl (.cons rfl (.cons rfl .nil)))

/-- The same comparison in one line and in two, with one digit more and without it. -/
theorem Expr.essence_eq_of_prefixed_eq_comparison :
    parseExpr (Bytes.ofString "a <= -1.50") =
        ⟨some (comparison (Bytes.ofString "1.50") 1), []⟩ ∧
      parseExpr (Bytes.ofString "a<=\n- 1.5") =
        ⟨some (comparison (Bytes.ofString "1.5") 2), []⟩ ∧
      (comparison (Bytes.ofString "1.50") 1).prefixed = Bytes.ofString "(<= a (- 1.5))" ∧
      (comparison (Bytes.ofString "1.50") 1).essence =
        (comparison (Bytes.ofString "1.5") 2).essence := by
  have hparse : parseExpr (Bytes.ofString "a <= -1.50") =
      ⟨some (comparison (Bytes.ofString "1.50") 1), []⟩ :=
    parseExpr_comparison (by decide +kernel) (by decide +kernel)
  have hparse' : parseExpr (Bytes.ofString "a<=\n- 1.5") =
      ⟨some (comparison (Bytes.ofString "1.5") 2), []⟩ :=
    parseExpr_comparison (by decide +kernel) (by decide +kernel)
  have hstrings : ∀ digits line s, .text s ∉ (comparison digits line).literals := by
    simp [comparison, literals, threeHalves]
  exact ⟨hparse, hparse', by decide +kernel,
    essence_eq_of_prefixed_eq hparse hparse' (hstrings _ _) (hstrings _ _) rfl⟩

end Lox
