import Mathlib.Data.List.Forall2
import Lox.Proofs.Grammar.Expr
import Lox.Proofs.Parser.Reads
import Lox.Proofs.Parser.Sequence
import Lox.Proofs.Token.Lines

/-!
# From expressions back to their tokens

An expression keeps most of its tokens, and of the others it tells the kinds: `Expr.pieces` lists
what it tells, in the order of the source. An expression is well-levelled if its operands stand no
looser than the ladder of levels allows. Tokens form an expression exactly if it is well-levelled
and they fit its pieces (`derives_iff_wellLevelled`), so that parsing and listing the pieces are
inverse to each other (`parseExprTokens_iff_wellLevelled`).
-/

namespace Lox

/-- What a tree tells of one of its tokens: the token, or only its kind. -/
inductive Piece where
  | kept (t : Token)
  | any (k : Kind)
  deriving DecidableEq, Repr

/-- A token is the one that a tree keeps, or of the kind that it tells. -/
def Piece.Fits : Piece → Token → Prop
  | .kept t, t' => t' = t
  | .any k, t' => t'.kind = k

/-- The kinds of the operators whose right operand may be skipped. -/
def Kind.logical : List Kind := [.or, .and]

section Trees

variable {β : Type}

/-- The level of an expression. -/
def Expr.level : Expr β → Grammar.Level
  | .assign _ _ _ => .assignment
  | .binary _ op _ | .logical _ op _ => op.kind.level?.getD .primary
  | .unary _ _ => .unary
  | .call _ _ _ => .call
  | .literal _ _ | .variable _ _ | .grouping _ _ => .primary

/-- An operator of this kind may stand between operands of these levels: it groups to the left. -/
def Kind.Joins (k : Kind) (left right : Grammar.Level) : Prop :=
  ∃ l, k.level? = some l ∧ l ≤ left ∧ l < right

mutual

/-- Every operand is as tight as its place asks for, and every token and value is in its place. -/
def Expr.WellLevelled : Expr β → Prop
  | .literal t v => t.value? = some v
  | .grouping paren x => paren.kind = .leftParen ∧ x.WellLevelled
  | .unary op x => op.kind ∈ Kind.unary ∧ .unary ≤ x.level ∧ x.WellLevelled
  | .binary x op y =>
    op.kind ∈ Kind.binary ∧ op.kind.Joins x.level y.level ∧ x.WellLevelled ∧ y.WellLevelled
  | .logical x op y =>
    op.kind ∈ Kind.logical ∧ op.kind.Joins x.level y.level ∧ x.WellLevelled ∧ y.WellLevelled
  | .variable name _ => name.kind = .identifier
  | .assign name _ x => name.kind = .identifier ∧ x.WellLevelled
  | .call callee paren args =>
    .call ≤ callee.level ∧ callee.WellLevelled ∧ Expr.AllWellLevelled args ∧ args.length ≤ 255 ∧
      paren.kind = .rightParen

/-- Several expressions are well-levelled. -/
def Expr.AllWellLevelled : List (Expr β) → Prop
  | [] => True
  | x :: xs => x.WellLevelled ∧ Expr.AllWellLevelled xs

end

mutual

/-- What an expression tells of its tokens, in the order of the source. -/
def Expr.pieces : Expr β → List Piece
  | .literal t _ => [.kept t]
  | .grouping paren x => .kept paren :: (x.pieces ++ [.any .rightParen])
  | .unary op x => .kept op :: x.pieces
  | .binary x op y | .logical x op y => x.pieces ++ .kept op :: y.pieces
  | .variable name _ => [.kept name]
  | .assign name _ x => .kept name :: .any .equal :: x.pieces
  | .call callee paren args =>
    callee.pieces ++ .any .leftParen :: (Expr.piecesAll args ++ [.kept paren])

/-- What several expressions with commas between them tell of their tokens. -/
def Expr.piecesAll : List (Expr β) → List Piece
  | [] => []
  | [x] => x.pieces
  | x :: y :: ys => x.pieces ++ .any .comma :: Expr.piecesAll (y :: ys)

end

end Trees

namespace Grammar

section Pieces

variable {ps qs : List Piece} {ts us : List Token}

/-- The tokens that fit some pieces. -/
abbrev Fit (ps : List Piece) (ts : List Token) : Prop := List.Forall₂ Piece.Fits ps ts

private theorem fit_singleton {p : Piece} : Fit [p] ts ↔ ∃ t, ts = [t] ∧ p.Fits t := by
  simp [Fit, List.forall₂_cons_left_iff, and_comm]

private theorem fit_cons {p : Piece} :
    Fit (p :: ps) ts ↔ ∃ t us, ts = t :: us ∧ p.Fits t ∧ Fit ps us := by
  constructor
  · intro h
    cases h with
    | cons ht hus => exact ⟨_, _, rfl, ht, hus⟩
  · rintro ⟨t, us, rfl, ht, hus⟩
    exact .cons ht hus

private theorem fit_append : Fit (ps ++ qs) ts ↔
    ∃ us vs, ts = us ++ vs ∧ Fit ps us ∧ Fit qs vs := by
  induction ps generalizing ts with
  | nil => simp [Fit]
  | cons p ps ih =>
    rw [List.cons_append, fit_cons]
    constructor
    · rintro ⟨t, _, rfl, ht, h⟩
      obtain ⟨us, vs, rfl, hus, hvs⟩ := ih.mp h
      exact ⟨t :: us, vs, rfl, .cons ht hus, hvs⟩
    · rintro ⟨_, vs, rfl, h, hvs⟩
      obtain ⟨t, us, rfl, ht, hus⟩ := fit_cons.mp h
      exact ⟨t, us ++ vs, rfl, ht, ih.mpr ⟨us, vs, rfl, hus, hvs⟩⟩

private theorem Fit.append (h : Fit ps ts) (h' : Fit qs us) : Fit (ps ++ qs) (ts ++ us) :=
  fit_append.mpr ⟨ts, us, rfl, h, h'⟩

/-- A token that a tree keeps is among those that fit the tree. -/
theorem Fit.mem_of_kept {t : Token} (h : Fit ps ts) (ht : .kept t ∈ ps) : t ∈ ts := by
  induction h with
  | nil => cases ht
  | cons hfits _ ih =>
    rcases List.mem_cons.mp ht with rfl | ht
    · exact hfits ▸ List.mem_cons_self
    · exact .tail _ (ih ht)

end Pieces

/-- The operators of a level make one kind of nodes. -/
theorem node?_eq_some_iff {l : Level} {k : Kind} (hk : k.level? = some l)
    {node : Expr Unit → Token → Expr Unit → Expr Unit} :
    l.node? = some node ↔
      (k ∈ Kind.binary ∧ node = .binary) ∨ (k ∈ Kind.logical ∧ node = .logical) := by
  revert hk
  cases k <;> simp only [Kind.level?, Option.some.injEq, reduceCtorEq, false_imp_iff] <;>
    rintro rfl <;> simp [Level.node?, Kind.binary, Kind.logical, eq_comm]

section Arguments

variable {items : List (List Token × Expr Unit)} {us : List Token}

private theorem fit_piecesAll (h : ∀ i ∈ items, Fit i.2.pieces i.1)
    (hl : Listed (items.map Prod.fst) us) : Fit (Expr.piecesAll (items.map Prod.snd)) us := by
  induction items generalizing us with
  | nil =>
    obtain rfl := listed_nil.mp hl
    exact .nil
  | cons i items ih =>
    obtain ⟨hi, h⟩ := List.forall_mem_cons.mp h
    cases items with
    | nil =>
      obtain rfl := listed_singleton.mp hl
      exact hi
    | cons j items =>
      obtain ⟨comma, vs, rfl, hcomma, hl⟩ := (listed_cons (by simp)).mp hl
      exact hi.append (.cons hcomma (ih h hl))

/-- Several expressions are well-levelled if each of them is. -/
theorem allWellLevelled_iff {xs : List (Expr Unit)} :
    Expr.AllWellLevelled xs ↔ ∀ x ∈ xs, x.WellLevelled := by
  induction xs with
  | nil => simp [Expr.AllWellLevelled]
  | cons x xs ih => simp [Expr.AllWellLevelled, ih]

end Arguments

/-- What the grammar derives is well-levelled, and tells its tokens. -/
theorem Derives.wellLevelled {l : Level} {ts : List Token} {e : Expr Unit} (h : Derives l ts e) :
    l ≤ e.level ∧ e.WellLevelled ∧ Fit e.pieces ts := by
  induction h with
  | @tighter l _ _ _ ih => exact ⟨Level.le_trans l.le_tighter ih.1, ih.2⟩
  | assign hname hequals _ ih =>
    exact ⟨Level.le_refl _, ⟨hname, ih.2.1⟩, .cons rfl (.cons hequals ih.2.2)⟩
  | @chain l node op _ _ x y hnode hop _ _ ihx ihy =>
    obtain ⟨hx, hwx, hfx⟩ := ihx
    obtain ⟨hy, hwy, hfy⟩ := ihy
    have hlt : l < l.tighter := Level.IsChain.lt_tighter (.inl (by simp [hnode]))
    have hjoins : op.kind.Joins x.level y.level := ⟨l, hop, hx, (Level.tighter_le_iff hlt).mp hy⟩
    have hlevel : l ≤ op.kind.level?.getD .primary := by
      rw [hop]
      exact Level.le_refl l
    rcases (node?_eq_some_iff hop).mp hnode with ⟨hk, rfl⟩ | ⟨hk, rfl⟩
    · exact ⟨hlevel, ⟨hk, hjoins, hwx, hwy⟩, hfx.append (.cons rfl hfy)⟩
    · exact ⟨hlevel, ⟨hk, hjoins, hwx, hwy⟩, hfx.append (.cons rfl hfy)⟩
  | unary hop _ ih => exact ⟨Level.le_refl _, ⟨hop, ih.1, ih.2.1⟩, .cons rfl ih.2.2⟩
  | call _ hleft _ hlisted hcount hright ihcallee ihargs =>
    obtain ⟨hle, hw, hf⟩ := ihcallee
    have hargs := fit_piecesAll (fun a ha ↦ (ihargs a ha).2.2) hlisted
    refine ⟨Level.le_refl _, ⟨hle, hw, allWellLevelled_iff.mpr ?_, by simpa using hcount, hright⟩,
      hf.append (.cons hleft (hargs.append (.cons rfl .nil)))⟩
    intro x hx
    obtain ⟨a, ha, rfl⟩ := List.mem_map.mp hx
    exact (ihargs a ha).2.1
  | literal hv => exact ⟨Level.le_refl _, hv, .cons rfl .nil⟩
  | «variable» hname => exact ⟨Level.le_refl _, hname, .cons rfl .nil⟩
  | grouping hleft _ hright ih =>
    exact ⟨Level.le_refl _, ⟨hleft, ih.2.1⟩, .cons rfl (ih.2.2.append (.cons hright .nil))⟩

-- An operator between two operands of its level.
private theorem derives_join {op : Token} {x y : Expr Unit} {us vs : List Token}
    {node : Expr Unit → Token → Expr Unit → Expr Unit}
    (hnode : (op.kind ∈ Kind.binary ∧ node = .binary) ∨ (op.kind ∈ Kind.logical ∧ node = .logical))
    (hjoins : op.kind.Joins x.level y.level) (hx : Derives x.level us x)
    (hy : Derives y.level vs y) :
    Derives (op.kind.level?.getD .primary) (us ++ op :: vs) (node x op y) := by
  obtain ⟨l, hl, hle, hlt⟩ := hjoins
  have hnode' : l.node? = some node := (node?_eq_some_iff hl).mpr hnode
  have htighter : l < l.tighter := Level.IsChain.lt_tighter (.inl (by simp [hnode']))
  rw [hl]
  exact .chain hnode' hl (hx.loosen hle) (hy.loosen ((Level.tighter_le_iff htighter).mpr hlt))

mutual

/-- A well-levelled expression is derived from the tokens that fit its pieces. -/
theorem derives_of_wellLevelled {ts : List Token} :
    (e : Expr Unit) → e.WellLevelled → Fit e.pieces ts → Derives e.level ts e
  | .literal t v, hw, hf => by
    obtain ⟨_, rfl, rfl⟩ := fit_singleton.mp hf
    exact .literal hw
  | .variable name u, hw, hf => by
    obtain ⟨_, rfl, rfl⟩ := fit_singleton.mp hf
    exact .variable hw
  | .grouping paren x, ⟨hparen, hw⟩, hf => by
    obtain ⟨_, _, rfl, rfl, hrest⟩ := fit_cons.mp hf
    obtain ⟨us, _, rfl, hx, hlast⟩ := fit_append.mp hrest
    obtain ⟨right, rfl, hright⟩ := fit_singleton.mp hlast
    exact .grouping hparen ((derives_of_wellLevelled x hw hx).loosen x.level.assignment_le) hright
  | .unary op x, ⟨hop, hle, hw⟩, hf => by
    obtain ⟨_, us, rfl, rfl, hx⟩ := fit_cons.mp hf
    exact .unary hop ((derives_of_wellLevelled x hw hx).loosen hle)
  | .binary x op y, ⟨hop, hjoins, hwx, hwy⟩, hf => by
    obtain ⟨us, _, rfl, hfx, hrest⟩ := fit_append.mp hf
    obtain ⟨_, vs, rfl, rfl, hfy⟩ := fit_cons.mp hrest
    exact derives_join (.inl ⟨hop, rfl⟩) hjoins (derives_of_wellLevelled x hwx hfx)
      (derives_of_wellLevelled y hwy hfy)
  | .logical x op y, ⟨hop, hjoins, hwx, hwy⟩, hf => by
    obtain ⟨us, _, rfl, hfx, hrest⟩ := fit_append.mp hf
    obtain ⟨_, vs, rfl, rfl, hfy⟩ := fit_cons.mp hrest
    exact derives_join (.inr ⟨hop, rfl⟩) hjoins (derives_of_wellLevelled x hwx hfx)
      (derives_of_wellLevelled y hwy hfy)
  | .assign name u x, ⟨hname, hw⟩, hf => by
    obtain ⟨_, _, rfl, rfl, hrest⟩ := fit_cons.mp hf
    obtain ⟨equals, us, rfl, hequals, hx⟩ := fit_cons.mp hrest
    exact .assign hname hequals ((derives_of_wellLevelled x hw hx).loosen x.level.assignment_le)
  | .call callee paren args, ⟨hle, hw, hargs, hcount, hparen⟩, hf => by
    obtain ⟨us, _, rfl, hfc, hrest⟩ := fit_append.mp hf
    obtain ⟨left, _, rfl, hleft, hrest⟩ := fit_cons.mp hrest
    obtain ⟨vs, _, rfl, hfa, hlast⟩ := fit_append.mp hrest
    obtain ⟨_, rfl, rfl⟩ := fit_singleton.mp hlast
    obtain ⟨items, rfl, hitems, hlisted⟩ := derives_of_allWellLevelled args hargs hfa
    exact .call ((derives_of_wellLevelled callee hw hfc).loosen hle) hleft hitems hlisted
      (by simpa using hcount) hparen

private theorem derives_of_allWellLevelled {ts : List Token} :
    (xs : List (Expr Unit)) → Expr.AllWellLevelled xs → Fit (Expr.piecesAll xs) ts →
      ∃ items : List (List Token × Expr Unit), items.map Prod.snd = xs ∧
        (∀ i ∈ items, Derives .assignment i.1 i.2) ∧ Listed (items.map Prod.fst) ts
  | [], _, hf => by
    obtain rfl : ts = [] := List.forall₂_nil_left_iff.mp hf
    exact ⟨[], rfl, by simp, .nil⟩
  | [x], ⟨hw, _⟩, hf => by
    have hx := (derives_of_wellLevelled x hw hf).loosen x.level.assignment_le
    exact ⟨[(ts, x)], rfl, by simpa using hx, .one ts⟩
  | x :: y :: ys, ⟨hw, hws⟩, hf => by
    obtain ⟨us, _, rfl, hfx, hf⟩ := fit_append.mp hf
    obtain ⟨comma, vs, rfl, hcomma, hf⟩ := fit_cons.mp hf
    obtain ⟨items, hmap, hitems, hlisted⟩ := derives_of_allWellLevelled (y :: ys) hws hf
    have hx := (derives_of_wellLevelled x hw hfx).loosen x.level.assignment_le
    refine ⟨(us, x) :: items, by simp [hmap], List.forall_mem_cons.mpr ⟨hx, hitems⟩, ?_⟩
    refine .cons (fun hnil ↦ ?_) hcomma hlisted
    simp [List.map_eq_nil_iff.mp hnil] at hmap

end

/-- Tokens form an expression exactly if it is well-levelled and they fit its pieces. -/
theorem derives_iff_wellLevelled {ts : List Token} {e : Expr Unit} :
    Derives .assignment ts e ↔ e.WellLevelled ∧ Fit e.pieces ts := by
  constructor
  · exact fun h ↦ h.wellLevelled.2
  · exact fun h ↦ (derives_of_wellLevelled e h.1 h.2).loosen e.level.assignment_le

end Grammar

section Parsing

open Grammar Lox.Parser

variable {ts : List Token} {eof : Token}

private theorem succeeds_wholeExpression {n : Nat} (hn : ts.length < n) {e : Expr Unit}
    {rest : List Token} :
    Succeeds (wholeExpression n) eof ts e rest ↔ rest = [] ∧ Derives .assignment ts e := by
  rw [wholeExpression, succeeds_bind]
  constructor
  · rintro ⟨x, mid, hx, h⟩
    obtain ⟨used, rfl, hused, -⟩ := (reads_expression n _ _ _ _ hn).mp hx
    obtain ⟨atEnd, left, hend, h⟩ := succeeds_bind.mp h
    obtain ⟨rfl, rfl⟩ := succeeds_atEnd.mp hend
    cases left with
    | nil =>
      obtain ⟨rfl, rfl⟩ := succeeds_succeed.mp h
      exact ⟨rfl, (List.append_nil used).symm ▸ hused⟩
    | cons t mid => simp [succeeds_bind] at h
  · rintro ⟨rfl, he⟩
    refine ⟨e, [], (reads_expression n _ _ _ _ hn).mpr ⟨ts, by simp, he, ends_nil _⟩, ?_⟩
    exact succeeds_bind.mpr ⟨true, [], by simp, succeeds_succeed.mpr ⟨rfl, rfl⟩⟩

-- Without errors there is an expression.
private theorem exists_succeeds_wholeExpression {n : Nat} (hn : ts.length < n)
    (h : (wholeExpression n eof ts).errors = []) :
    ∃ e rest, Succeeds (wholeExpression n) eof ts e rest := by
  refine exists_succeeds ?_ h
  have hreports := (tracks_expression .same [] n n eof eof ts hn hn).reports
  change (andThen (expression n) _ eof ts).errors = [] at h
  change (andThen (expression n) _ eof ts).value ≠ none
  unfold andThen at h ⊢
  rcases hR : expression n eof ts with ⟨_ | x, mid, errors⟩
  · rw [hR] at h hreports
    exact absurd h (hreports rfl)
  · cases mid <;> exact Option.some_ne_none x

private theorem parseExprTokens_append_end (hts : ∀ t ∈ ts, t.kind ≠ .eof)
    (heof : eof.kind = .eof) :
    parseExprTokens (ts ++ [eof]) =
      ⟨(wholeExpression (ts.length + 2) (ending (ts ++ [eof])) ts).value,
        (wholeExpression (ts.length + 2) (ending (ts ++ [eof])) ts).errors⟩ := by
  unfold parseExprTokens run
  rw [body_append_end hts heof]
  simp only [bound, List.length_append, List.length_singleton]

/-- Tokens are parsed as an expression, without errors, exactly if they form it. -/
theorem parseExprTokens_eq_iff (hts : ∀ t ∈ ts, t.kind ≠ .eof) (heof : eof.kind = .eof)
    {e : Expr Unit} :
    parseExprTokens (ts ++ [eof]) = ⟨some e, []⟩ ↔ Derives .assignment ts e := by
  rw [parseExprTokens_append_end hts heof, Parsed.mk.injEq]
  constructor
  · rintro ⟨hvalue, herrors⟩
    have h : Succeeds (wholeExpression (ts.length + 2)) (ending (ts ++ [eof])) ts e _ :=
      succeeds_iff.mpr ⟨hvalue, rfl, herrors⟩
    exact ((succeeds_wholeExpression (by omega)).mp h).2
  · intro h
    have h' : Succeeds (wholeExpression (ts.length + 2)) (ending (ts ++ [eof])) ts e [] :=
      (succeeds_wholeExpression (by omega)).mpr ⟨rfl, h⟩
    exact ⟨(succeeds_iff.mp h').1, (succeeds_iff.mp h').2.2⟩

/-- A source is parsed as an expression, without errors, exactly if its tokens have no errors and
form it. -/
theorem parseExpr_eq_iff {src : Bytes} {e : Expr Unit} :
    parseExpr src = ⟨some e, []⟩ ↔
      tokenErrorsFrom 1 src = [] ∧ Derives .assignment (tokensFrom 1 src) e := by
  have hts : ∀ t ∈ tokensFrom 1 src, t.kind ≠ .eof := kind_ne_eof_of_mem_tokensFrom
  have heof : (Token.endOf (1 + src.newlines : Nat)).kind = .eof := rfl
  rw [← parseExprTokens_eq_iff hts heof, ← tokens_scan, ← errors_scan]
  unfold parseExpr
  dsimp only
  cases parseExprTokens (scan src).tokens with
  | mk tree errors => simp [and_left_comm]

/-- Parsing an expression and listing its tokens are inverse to each other: tokens form `e`, without
errors, exactly if `e` is well-levelled and the tokens fit its pieces. So tokens without errors
form exactly one such expression. -/
theorem parseExprTokens_iff_wellLevelled (hts : ∀ t ∈ ts, t.kind ≠ .eof) (heof : eof.kind = .eof) :
    (∀ e, parseExprTokens (ts ++ [eof]) = ⟨some e, []⟩ ↔
        e.WellLevelled ∧ List.Forall₂ Piece.Fits e.pieces ts) ∧
      ((parseExprTokens (ts ++ [eof])).errors = [] ↔
        ∃! e : Expr Unit, e.WellLevelled ∧ List.Forall₂ Piece.Fits e.pieces ts) := by
  have hparse : ∀ e, parseExprTokens (ts ++ [eof]) = ⟨some e, []⟩ ↔
      e.WellLevelled ∧ List.Forall₂ Piece.Fits e.pieces ts :=
    fun e ↦ (parseExprTokens_eq_iff hts heof).trans derives_iff_wellLevelled
  refine ⟨hparse, ?_, ?_⟩
  · intro herrors
    rw [parseExprTokens_append_end hts heof] at herrors
    obtain ⟨e, rest, he⟩ := exists_succeeds_wholeExpression (by omega) herrors
    have hderives := ((succeeds_wholeExpression (by omega)).mp he).2
    refine ⟨e, derives_iff_wellLevelled.mp hderives, fun e' he' ↦ ?_⟩
    have heq := (parseExprTokens_eq_iff hts heof).mpr hderives
    rw [(hparse e').mpr he'] at heq
    simpa using heq
  · rintro ⟨e, he, -⟩
    rw [(hparse e).mpr he]

/-- In `x = -x - x - x()` the differences group to the left, below the assignment. -/
theorem parseExprTokens_differences :
    parseExprTokens ([.bare .identifier, .bare .equal, .bare .minus, .bare .identifier,
        .bare .minus, .bare .identifier, .bare .minus, .bare .identifier, .bare .leftParen,
        .bare .rightParen] ++ [.endOf 1]) =
      ⟨some (.assign (.bare .identifier) ()
        (.binary
          (.binary (.unary (.bare .minus) (.variable (.bare .identifier) ())) (.bare .minus)
            (.variable (.bare .identifier) ()))
          (.bare .minus) (.call (.variable (.bare .identifier) ()) (.bare .rightParen) []))),
        []⟩ := by
  refine ((parseExprTokens_iff_wellLevelled (by decide) rfl).1 _).mpr ⟨?_, ?_⟩
  · have hname : (Expr.variable (.bare .identifier) ()).WellLevelled := rfl
    have hinner : (Expr.binary (.unary (.bare .minus) (.variable (.bare .identifier) ()))
        (.bare .minus) (.variable (.bare .identifier) ())).WellLevelled :=
      ⟨by decide, ⟨.term, rfl, by decide, by decide⟩, ⟨by decide, by decide, hname⟩, hname⟩
    exact ⟨rfl, by decide, ⟨.term, rfl, by decide, by decide⟩, hinner, by decide, hname, trivial,
      by decide, rfl⟩
  · simp [Expr.pieces, Expr.piecesAll, Piece.Fits, Token.bare]

end Parsing

end Lox
