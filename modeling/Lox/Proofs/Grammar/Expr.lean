import Lox.Proofs.Syntax.Formed

/-!
# The grammar of expressions

Which tokens form which expression, as rules and apart from any parser. The forms of expressions
stand on a ladder, from assignments to what cannot be taken apart, and `Derives l ts e` says that
the tokens `ts` form the expression `e` of level `l` or a tighter one. A chain of operands, and a
chain of calls, is grouped to the left: `Derives` builds it from the left, one operand or one call
after the other, and `derives_iff_extended` reads it from its first operand on, as a parser does.
-/

namespace Lox

/-- The value that the token of a literal stands for. -/
def Token.value? (t : Token) : Option Literal :=
  match t.kind with
  | .false => some (.bool false)
  | .true => some (.bool true)
  | .nil => some .nil
  | .number | .string => some t.literal
  | _ => none

/-- A token of a kind, of which nothing else matters. -/
def Token.bare (k : Kind) : Token := ⟨k, [], .nil, 1⟩

/-- The kinds of the tokens that an expression without operators can begin with. -/
def Kind.primary : List Kind :=
  [.false, .true, .nil, .number, .string, .identifier, .leftParen]

namespace Grammar

/-- The forms of expressions, from the loosest to the tightest. -/
inductive Level where
  | assignment | or | and | equality | comparison | term | factor | unary | call | primary
  deriving DecidableEq, Repr

namespace Level

/-- The place of a form on the ladder. -/
def rank : Level → Nat
  | .assignment => 0
  | .or => 1
  | .and => 2
  | .equality => 3
  | .comparison => 4
  | .term => 5
  | .factor => 6
  | .unary => 7
  | .call => 8
  | .primary => 9

/-- One level is at least as loose as another. -/
instance : LE Level := ⟨fun l m ↦ l.rank ≤ m.rank⟩

/-- One level is looser than another. -/
instance : LT Level := ⟨fun l m ↦ l.rank < m.rank⟩

/-- Decided by the ranks. -/
instance (l m : Level) : Decidable (l ≤ m) := inferInstanceAs (Decidable (l.rank ≤ m.rank))

/-- Decided by the ranks. -/
instance (l m : Level) : Decidable (l < m) := inferInstanceAs (Decidable (l.rank < m.rank))

/-- The next tighter form. -/
def tighter : Level → Level
  | .assignment => .or
  | .or => .and
  | .and => .equality
  | .equality => .comparison
  | .comparison => .term
  | .term => .factor
  | .factor => .unary
  | .unary => .call
  | .call | .primary => .primary

/-- What an operator of this level makes of its two operands. -/
def node? : Level → Option (Expr Unit → Token → Expr Unit → Expr Unit)
  | .or | .and => some .logical
  | .equality | .comparison | .term | .factor => some .binary
  | .assignment | .unary | .call | .primary => none

/-- A level is as loose as itself. -/
theorem le_refl (l : Level) : l ≤ l := Nat.le_refl _

/-- The order of levels is transitive. -/
theorem le_trans {l m o : Level} (h : l ≤ m) (h' : m ≤ o) : l ≤ o := Nat.le_trans h h'

/-- A level that is looser than another one is looser than all that are as tight as this one. -/
theorem lt_of_lt_of_le {l m o : Level} (h : l < m) (h' : m ≤ o) : l < o := Nat.lt_of_lt_of_le h h'

/-- No level is tighter than the next one. -/
theorem le_tighter (l : Level) : l ≤ l.tighter := by cases l <;> decide

/-- Assignment is the loosest level. -/
theorem assignment_le (l : Level) : .assignment ≤ l := Nat.zero_le _

/-- The levels tighter than one that is not the tightest are those from the next one on. -/
theorem tighter_le_iff {l m : Level} (h : l < l.tighter) : l.tighter ≤ m ↔ l < m := by
  revert h
  cases l <;> cases m <;> decide

/-- The levels looser than the next one to `l` are `l` and those looser than `l`. -/
theorem lt_tighter_iff {l m : Level} (h : l < l.tighter) : m < l.tighter ↔ m < l ∨ m = l := by
  revert h
  cases l <;> cases m <;> decide

/-- No level is looser than itself. -/
theorem lt_irrefl (l : Level) : ¬ l < l := Nat.lt_irrefl _

end Level
end Grammar

/-- The level of the expressions that go on, after an expression, with a token of this kind. -/
def Kind.level? : Kind → Option Grammar.Level
  | .equal => some .assignment
  | .or => some .or
  | .and => some .and
  | .bangEqual | .equalEqual => some .equality
  | .greater | .greaterEqual | .less | .lessEqual => some .comparison
  | .minus | .plus => some .term
  | .slash | .star => some .factor
  | .leftParen => some .call
  | _ => none

/-- No token goes on with a primary expression. -/
theorem Kind.lt_primary_of_level? {k : Kind} {l : Grammar.Level} (h : k.level? = some l) :
    l < .primary := by
  revert h
  cases k <;> simp only [level?, Option.some.injEq, reduceCtorEq, false_imp_iff] <;>
    rintro rfl <;> decide

namespace Grammar

/-- Pieces of a token list, with a comma between each two. -/
inductive Listed : List (List Token) → List Token → Prop
  | nil : Listed [] []
  | one (ts : List Token) : Listed [ts] ts
  | cons {us ts : List Token} {pieces : List (List Token)} {comma : Token} (hne : pieces ≠ [])
    (hcomma : comma.kind = .comma) (h : Listed pieces ts) :
    Listed (us :: pieces) (us ++ comma :: ts)

/-- Of no pieces, no tokens are made. -/
@[simp] theorem listed_nil {ts : List Token} : Listed [] ts ↔ ts = [] := by
  constructor
  · rintro ⟨⟩
    rfl
  · rintro rfl
    exact .nil

/-- One piece stands without commas. -/
@[simp] theorem listed_singleton {us ts : List Token} : Listed [us] ts ↔ ts = us := by
  constructor
  · intro h
    cases h with
    | one => rfl
    | cons hne => exact absurd rfl hne
  · rintro rfl
    exact .one ts

/-- The first of several pieces is followed by a comma and the others. -/
theorem listed_cons {us ts : List Token} {pieces : List (List Token)} (hne : pieces ≠ []) :
    Listed (us :: pieces) ts ↔
      ∃ comma vs, ts = us ++ comma :: vs ∧ comma.kind = .comma ∧ Listed pieces vs := by
  constructor
  · intro h
    cases h with
    | one => exact absurd rfl hne
    | cons _ hcomma h => exact ⟨_, _, rfl, hcomma, h⟩
  · rintro ⟨comma, vs, rfl, hcomma, h⟩
    exact .cons hne hcomma h

/-- What is made of pieces begins with the first of them. -/
theorem Listed.exists_append {us ts : List Token} {pieces : List (List Token)}
    (h : Listed (us :: pieces) ts) : ∃ vs, ts = us ++ vs := by
  cases h with
  | one => exact ⟨[], (List.append_nil us).symm⟩
  | cons => exact ⟨_, rfl⟩

/-- Tokens that form an expression of a level or a tighter one, by the grammar. -/
inductive Derives : Level → List Token → Expr Unit → Prop
  | tighter {l : Level} {ts : List Token} {e : Expr Unit} (h : Derives l.tighter ts e) :
    Derives l ts e
  | assign {name equals : Token} {ts : List Token} {value : Expr Unit}
    (hname : name.kind = .identifier) (hequals : equals.kind = .equal)
    (hvalue : Derives .assignment ts value) :
    Derives .assignment (name :: equals :: ts) (.assign name () value)
  /-- Operands of the same strength, grouped to the left. -/
  | chain {l : Level} {node : Expr Unit → Token → Expr Unit → Expr Unit} {op : Token}
    {ts us : List Token} {x y : Expr Unit} (hnode : l.node? = some node)
    (hop : op.kind.level? = some l) (hx : Derives l ts x) (hy : Derives l.tighter us y) :
    Derives l (ts ++ op :: us) (node x op y)
  | unary {op : Token} {ts : List Token} {x : Expr Unit} (hop : op.kind ∈ Kind.unary)
    (hx : Derives .unary ts x) : Derives .unary (op :: ts) (.unary op x)
  /-- A call, with at most 255 arguments, each with the tokens that form it. -/
  | call {left right : Token} {ts us : List Token} {callee : Expr Unit}
    {args : List (List Token × Expr Unit)} (hcallee : Derives .call ts callee)
    (hleft : left.kind = .leftParen) (hargs : ∀ a ∈ args, Derives .assignment a.1 a.2)
    (hlisted : Listed (args.map Prod.fst) us) (hcount : args.length ≤ 255)
    (hright : right.kind = .rightParen) :
    Derives .call (ts ++ left :: (us ++ [right])) (.call callee right (args.map Prod.snd))
  | literal {t : Token} {v : Literal} (hv : t.value? = some v) :
    Derives .primary [t] (.literal t v)
  | variable {name : Token} (hname : name.kind = .identifier) :
    Derives .primary [name] (.variable name ())
  | grouping {left right : Token} {ts : List Token} {x : Expr Unit}
    (hleft : left.kind = .leftParen) (hx : Derives .assignment ts x)
    (hright : right.kind = .rightParen) :
    Derives .primary (left :: (ts ++ [right])) (.grouping left x)

section Beginnings

/-- The tokens of literals are among those that an expression without operators can begin with. -/
theorem mem_primary_of_value? {t : Token} {v : Literal} (h : t.value? = some v) :
    t.kind ∈ Kind.primary := by
  unfold Token.value? at h
  split at h <;> simp_all [Kind.primary]

/-- What an expression begins with: a prefix operator only if it is loose enough. -/
theorem Derives.begins {l : Level} {ts : List Token} {e : Expr Unit} (h : Derives l ts e) :
    ∃ t us, ts = t :: us ∧
      (t.kind ∈ Kind.primary ∨ (l ≤ .unary ∧ t.kind ∈ Kind.unary)) := by
  induction h with
  | @tighter l _ _ _ ih =>
    obtain ⟨t, us, rfl, ht⟩ := ih
    exact ⟨t, us, rfl, ht.imp_right (And.imp_left (Level.le_trans l.le_tighter))⟩
  | assign hname => exact ⟨_, _, rfl, .inl (by rw [hname]; decide)⟩
  | chain _ _ _ _ ihx =>
    obtain ⟨t, us, rfl, ht⟩ := ihx
    exact ⟨t, _, rfl, ht⟩
  | unary hop => exact ⟨_, _, rfl, .inr ⟨by decide, hop⟩⟩
  | call _ _ _ _ _ _ ihcallee =>
    obtain ⟨t, us, rfl, ht⟩ := ihcallee
    exact ⟨t, _, rfl, ht⟩
  | literal hv => exact ⟨_, _, rfl, .inl (mem_primary_of_value? hv)⟩
  | «variable» hname => exact ⟨_, _, rfl, .inl (by rw [hname]; decide)⟩
  | grouping hleft => exact ⟨_, _, rfl, .inl (by rw [hleft]; decide)⟩

/-- What any expression begins with. -/
theorem Derives.exists_cons {l : Level} {ts : List Token} {e : Expr Unit} (h : Derives l ts e) :
    ∃ t us, ts = t :: us ∧ t.kind ∈ Kind.primary ++ Kind.unary := by
  obtain ⟨t, us, rfl, ht⟩ := h.begins
  exact ⟨t, us, rfl, List.mem_append.mpr (ht.imp_right And.right)⟩

end Beginnings

/-- A tighter expression stands wherever a looser one may. -/
theorem Derives.loosen {l m : Level} {ts : List Token} {e : Expr Unit} (h : Derives m ts e)
    (hle : l ≤ m) : Derives l ts e := by
  -- one step of the ladder at a time, from `m` down to `l`
  induction hd : m.rank - l.rank generalizing l with
  | zero =>
    have : l = m := by
      revert hle hd
      cases l <;> cases m <;> decide
    exact this ▸ h
  | succ d ih =>
    have hstep : l.tighter ≤ m ∧ m.rank - l.tighter.rank = d := by
      have hlt : l.rank < m.rank := by omega
      have hrank : l.tighter.rank = l.rank + 1 := by
        revert hlt
        cases l <;> cases m <;> decide
      exact ⟨by change l.tighter.rank ≤ m.rank; omega, by omega⟩
    exact .tighter (ih hstep.1 hstep.2)

section Extensions

/-- What can be read after an expression of a level to make a larger one: an operator with an
operand, or the arguments of a call. -/
inductive Extension : Level → Expr Unit → List Token → Expr Unit → Prop
  | operand {l : Level} {node : Expr Unit → Token → Expr Unit → Expr Unit} {op : Token}
    {us : List Token} {x y : Expr Unit} (hnode : l.node? = some node)
    (hop : op.kind.level? = some l) (hy : Derives l.tighter us y) :
    Extension l x (op :: us) (node x op y)
  | arguments {left right : Token} {us : List Token} {callee : Expr Unit}
    {args : List (List Token × Expr Unit)} (hleft : left.kind = .leftParen)
    (hargs : ∀ a ∈ args, Derives .assignment a.1 a.2)
    (hlisted : Listed (args.map Prod.fst) us) (hcount : args.length ≤ 255)
    (hright : right.kind = .rightParen) :
    Extension .call callee (left :: (us ++ [right])) (.call callee right (args.map Prod.snd))

/-- Any number of extensions, one after the other. -/
inductive Extended (l : Level) : Expr Unit → List Token → Expr Unit → Prop
  | refl (x : Expr Unit) : Extended l x [] x
  | step {x y e : Expr Unit} {us ts : List Token} (hstep : Extension l x us y)
    (hmore : Extended l y ts e) : Extended l x (us ++ ts) e

variable {l : Level} {x y e : Expr Unit} {ts us : List Token}

/-- An extension begins with a token of its level. -/
theorem Extension.begins (h : Extension l x us y) :
    ∃ t vs, us = t :: vs ∧ t.kind.level? = some l := by
  cases h with
  | operand _ hop => exact ⟨_, _, rfl, hop⟩
  | arguments hleft => exact ⟨_, _, rfl, by rw [hleft]; rfl⟩

private theorem Extension.derives (hx : Derives l ts x) (h : Extension l x us y) :
    Derives l (ts ++ us) y := by
  cases h with
  | operand hnode hop hy => exact .chain hnode hop hx hy
  | arguments hleft hargs hlisted hcount hright =>
    exact .call hx hleft hargs hlisted hcount hright

private theorem Extended.derives (hx : Derives l ts x) (h : Extended l x us e) :
    Derives l (ts ++ us) e := by
  induction h generalizing ts with
  | refl x => rwa [List.append_nil]
  | step hstep _ ih =>
    rw [← List.append_assoc]
    exact ih (hstep.derives hx)

private theorem Extended.snoc {vs : List Token} (h : Extended l x us y)
    (hstep : Extension l y vs e) : Extended l x (us ++ vs) e := by
  induction h with
  | refl x => simpa using Extended.step hstep (.refl e)
  | step hfirst _ ih =>
    rw [List.append_assoc]
    exact .step hfirst (ih hstep)

/-- The forms that are chains: of operands, or of calls. -/
def Level.IsChain (l : Level) : Prop := l.node? ≠ none ∨ l = .call

/-- The operands of a chain are tighter than the chain. -/
theorem Level.IsChain.lt_tighter (h : l.IsChain) : l < l.tighter := by
  revert h
  cases l <;> simp [Level.IsChain, Level.node?] <;> decide

/-- A chain is its first link, extended by the others. -/
theorem derives_iff_extended (hl : l.IsChain) :
    Derives l ts e ↔
      ∃ us x vs, ts = us ++ vs ∧ Derives l.tighter us x ∧ Extended l x vs e := by
  constructor
  · intro h
    induction h with
    | @tighter l ts e h => exact ⟨ts, e, [], by simp, h, .refl e⟩
    | chain hnode hop _ hy ihx =>
      obtain ⟨us, x, vs, rfl, hx, hvs⟩ := ihx hl
      exact ⟨us, x, _, List.append_assoc _ _ _, hx, hvs.snoc (.operand hnode hop hy)⟩
    | call _ hleft hargs hlisted hcount hright ihcallee =>
      obtain ⟨us, x, vs, rfl, hx, hvs⟩ := ihcallee hl
      exact ⟨us, x, _, List.append_assoc _ _ _, hx,
        hvs.snoc (.arguments hleft hargs hlisted hcount hright)⟩
    | assign | unary | literal | «variable» | grouping =>
      simp [Level.IsChain, Level.node?] at hl
  · rintro ⟨us, x, vs, rfl, hx, hvs⟩
    exact hvs.derives hx.tighter

end Extensions

/-- A name alone is only formed by its token. -/
theorem Derives.eq_of_variable {l : Level} {ts : List Token} {name : Token}
    (h : Derives l ts (.variable name ())) : ts = [name] ∧ name.kind = .identifier := by
  generalize he : Expr.variable name () = e at h
  induction h with
  | tighter _ ih => exact ih he
  | @chain l node op _ _ x y hnode _ _ _ =>
    cases l <;> simp only [Level.node?, Option.some.injEq, reduceCtorEq] at hnode <;>
      subst hnode <;> cases he
  | «variable» hname =>
    cases he
    exact ⟨rfl, hname⟩
  | assign | unary | call | literal | grouping => cases he

/-- What cannot be taken apart without parentheses. -/
theorem derives_primary {ts : List Token} {e : Expr Unit} :
    Derives .primary ts e ↔
      (∃ t v, t.value? = some v ∧ ts = [t] ∧ e = .literal t v) ∨
      (∃ name, name.kind = .identifier ∧ ts = [name] ∧ e = .variable name ()) ∨
      ∃ left us x right, left.kind = .leftParen ∧ Derives .assignment us x ∧
        right.kind = .rightParen ∧ ts = left :: (us ++ [right]) ∧ e = .grouping left x := by
  constructor
  · intro h
    generalize hl : Level.primary = l at h
    induction h with
    | tighter _ ih =>
      subst hl
      exact ih rfl
    | chain hnode =>
      subst hl
      cases hnode
    | literal hv => exact .inl ⟨_, _, hv, rfl, rfl⟩
    | «variable» hname => exact .inr (.inl ⟨_, hname, rfl, rfl⟩)
    | grouping hleft hx hright => exact .inr (.inr ⟨_, _, _, _, hleft, hx, hright, rfl, rfl⟩)
    | assign | unary | call => cases hl
  · rintro (⟨t, v, hv, rfl, rfl⟩ | ⟨name, hname, rfl, rfl⟩ |
      ⟨left, us, x, right, hleft, hx, hright, rfl, rfl⟩)
    · exact .literal hv
    · exact .variable hname
    · exact .grouping hleft hx hright

end Grammar
end Lox
