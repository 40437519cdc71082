import Lox.Scope.Resolve
import Mathlib.Algebra.Group.End
import Mathlib.Data.List.Forall2

/-!
# Code that differs in names and lines only

Two trees with their uses of variables bound are alike if they differ only in the names that some
scopes give to their variables, and perhaps in the lines of their tokens. The names that differ are
said by a `Renaming` for each scope: a use that is bound to a scope has the name that this scope
gives it, and global names are the same in both. Names of functions, which a program can show, are
the same too.
-/

namespace Lox

/-- Other names for all names, different ones for different names. -/
abbrev Renaming := Equiv.Perm Bytes

/-- Tokens of the same kind, and on the same line if that matters. -/
structure Token.Like (same : Prop) (t t' : Token) : Prop where
  kind : t'.kind = t.kind
  line : same → t'.line = t.line

/-- Tokens with a name, which is another name in the second. -/
structure Token.Renamed (same : Prop) (ρ : Renaming) (t t' : Token) : Prop
    extends Token.Like same t t' where
  lexeme : t'.lexeme = ρ t.lexeme

/-- A token is like itself. -/
theorem Token.Like.refl {same : Prop} (t : Token) : t.Like same t := ⟨rfl, fun _ ↦ rfl⟩

/-- A token has its own name. -/
theorem Token.Renamed.refl {same : Prop} (t : Token) : t.Renamed same 1 t := ⟨.refl t, rfl⟩

/-- The other names of the scope that a use is bound to. -/
def Binding.renaming? (names : List Renaming) : Binding → Option Renaming
  | .scope d => names[d]?
  | .global => some 1

mutual

/-- Expressions that are alike, where the scopes around them give these names. -/
inductive Expr.Like (same : Prop) (names : List Renaming) : Expr Binding → Expr Binding → Prop where
  | literal (t t' : Token) (v : Literal) : Expr.Like same names (.literal t v) (.literal t' v)
  | grouping (t t' : Token) {x x' : Expr Binding} (hx : Expr.Like same names x x') :
    Expr.Like same names (.grouping t x) (.grouping t' x')
  | unary {op op' : Token} {x x' : Expr Binding} (hop : op.Like same op')
      (hx : Expr.Like same names x x') : Expr.Like same names (.unary op x) (.unary op' x')
  | binary {op op' : Token} {x x' y y' : Expr Binding} (hx : Expr.Like same names x x')
      (hop : op.Like same op') (hy : Expr.Like same names y y') :
    Expr.Like same names (.binary x op y) (.binary x' op' y')
  | logical {op op' : Token} {x x' y y' : Expr Binding} (hx : Expr.Like same names x x')
      (hop : op.Like same op') (hy : Expr.Like same names y y') :
    Expr.Like same names (.logical x op y) (.logical x' op' y')
  | variable {name name' : Token} {b : Binding} {ρ : Renaming} (hb : b.renaming? names = some ρ)
      (hname : name.Renamed same ρ name') :
    Expr.Like same names (.variable name b) (.variable name' b)
  | assign {name name' : Token} {b : Binding} {ρ : Renaming} {x x' : Expr Binding}
      (hb : b.renaming? names = some ρ) (hname : name.Renamed same ρ name')
      (hx : Expr.Like same names x x') :
    Expr.Like same names (.assign name b x) (.assign name' b x')
  | call {c c' : Expr Binding} {paren paren' : Token} {args args' : List (Expr Binding)}
      (hc : Expr.Like same names c c') (hparen : paren.Like same paren')
      (hargs : Expr.AllLike same names args args') :
    Expr.Like same names (.call c paren args) (.call c' paren' args')

/-- Expressions that are alike one by one. -/
inductive Expr.AllLike (same : Prop) (names : List Renaming) :
    List (Expr Binding) → List (Expr Binding) → Prop where
  | nil : Expr.AllLike same names [] []
  | cons {x x' : Expr Binding} {xs xs' : List (Expr Binding)} (hx : Expr.Like same names x x')
      (hxs : Expr.AllLike same names xs xs') : Expr.AllLike same names (x :: xs) (x' :: xs')

end

mutual

/-- Statements that are alike, where the scopes around them give these names. A block and a function
each have a scope of their own. -/
inductive Stmt.Like (same : Prop) : List Renaming → Stmt Binding → Stmt Binding → Prop where
  | expr {names} {e e' : Expr Binding} (he : Expr.Like same names e e') :
    Stmt.Like same names (.expr e) (.expr e')
  | print {names} (t t' : Token) {e e' : Expr Binding} (he : Expr.Like same names e e') :
    Stmt.Like same names (.print t e) (.print t' e')
  | declare {names} {name name' : Token} (hname : name.Renamed same (names.headD 1) name') :
    Stmt.Like same names (.var name none) (.var name' none)
  | init {names} {name name' : Token} {e e' : Expr Binding}
      (hname : name.Renamed same (names.headD 1) name') (he : Expr.Like same names e e') :
    Stmt.Like same names (.var name (some e)) (.var name' (some e'))
  | block {names} (t t' : Token) (ρ : Renaming) {body body' : List (Stmt Binding)}
      (hbody : Stmt.AllLike same (ρ :: names) body body') :
    Stmt.Like same names (.block t body) (.block t' body')
  | ifOnly {names} (t t' : Token) {test test' : Expr Binding} {yes yes' : Stmt Binding}
      (htest : Expr.Like same names test test') (hyes : Stmt.Like same names yes yes') :
    Stmt.Like same names (.ifElse t test yes none) (.ifElse t' test' yes' none)
  | ifElse {names} (t t' : Token) {test test' : Expr Binding} {yes yes' no no' : Stmt Binding}
      (htest : Expr.Like same names test test') (hyes : Stmt.Like same names yes yes')
      (hno : Stmt.Like same names no no') :
    Stmt.Like same names (.ifElse t test yes (some no)) (.ifElse t' test' yes' (some no'))
  | while {names} (t t' : Token) {test test' : Expr Binding} {body body' : Stmt Binding}
      (htest : Expr.Like same names test test') (hbody : Stmt.Like same names body body') :
    Stmt.Like same names (.while t test body) (.while t' test' body')
  | function {names} {name name' : Token} (ρ : Renaming) {params params' : List Token}
      {body body' : List (Stmt Binding)} (hname : name.Renamed same 1 name')
      (hfixed : names.headD 1 name.lexeme = name.lexeme)
      (hparams : List.Forall₂ (Token.Renamed same ρ) params params')
      (hbody : Stmt.AllLike same (ρ :: names) body body') :
    Stmt.Like same names (.function name params body) (.function name' params' body')
  | returnNil {names} {t t' : Token} (ht : t.Renamed same 1 t') :
    Stmt.Like same names (.return t none) (.return t' none)
  | return {names} {t t' : Token} {e e' : Expr Binding} (ht : t.Renamed same 1 t')
      (he : Expr.Like same names e e') :
    Stmt.Like same names (.return t (some e)) (.return t' (some e'))
  | branch {names} {t t' : Token} (ht : t.Renamed same 1 t') :
    Stmt.Like same names (.branch t) (.branch t')

/-- Statements that are alike one by one. -/
inductive Stmt.AllLike (same : Prop) :
    List Renaming → List (Stmt Binding) → List (Stmt Binding) → Prop where
  | nil {names} : Stmt.AllLike same names [] []
  | cons {names} {s s' : Stmt Binding} {ss ss' : List (Stmt Binding)}
      (hs : Stmt.Like same names s s') (hss : Stmt.AllLike same names ss ss') :
    Stmt.AllLike same names (s :: ss) (s' :: ss')

end

/-- Alike statements may be put in front of alike statements. -/
theorem Stmt.AllLike.append {same : Prop} {names : List Renaming} {p p' q q' : List (Stmt Binding)}
    (hp : Stmt.AllLike same names p p') (hq : Stmt.AllLike same names q q') :
    Stmt.AllLike same names (p ++ q) (p' ++ q') := by
  induction p generalizing p' with
  | nil =>
    cases hp
    exact hq
  | cons s ss ih =>
    cases hp with
    | cons hs hss => exact .cons hs (ih hss)

/-- What is like two programs one after the other is two such programs. -/
theorem Stmt.AllLike.of_append {same : Prop} {names : List Renaming} {p q r : List (Stmt Binding)}
    (h : Stmt.AllLike same names (p ++ q) r) :
    ∃ p' q', r = p' ++ q' ∧ Stmt.AllLike same names p p' ∧ Stmt.AllLike same names q q' := by
  induction p generalizing r with
  | nil => exact ⟨[], r, rfl, .nil, h⟩
  | cons s ss ih =>
    cases h with
    | cons hs hss =>
      obtain ⟨p', q', rfl, hp, hq⟩ := ih hss
      exact ⟨_ :: p', q', rfl, .cons hs hp, hq⟩

end Lox
