import Lox.Scope.Resolve

/-!
# Renaming a local variable

A local variable or a parameter is renamed in a tree with its uses of variables bound: its
declaration and all the uses that are bound to it, and nothing else, get the new name
(`Stmt.Renames`).
-/

namespace Lox

/-- A name, or `z` if it is `x` and affected. -/
def newName (affected : Bool) (x z name : Bytes) : Bytes :=
  if affected && name == x then z else name

/-- A token with the name `z`, if its name is `x` and it is affected. -/
def Token.rename (affected : Bool) (x z : Bytes) (t : Token) : Token :=
  { t with lexeme := newName affected x z t.lexeme }

/-- The lexeme of a renamed token is the new name. -/
@[simp] theorem Token.lexeme_rename (affected : Bool) (x z : Bytes) (t : Token) :
    (t.rename affected x z).lexeme = newName affected x z t.lexeme := rfl

/-- Tokens that are not affected stay the same. -/
theorem Token.map_rename_false (x z : Bytes) (ts : List Token) :
    ts.map (Token.rename false x z) = ts := List.map_id ts

mutual

/-- An expression in which the variable `x` of the scope `d` scopes out is called `z`. -/
def Expr.renameAt (x z : Bytes) (d : Nat) : Expr Binding → Expr Binding
  | .literal t v => .literal t v
  | .grouping t e => .grouping t (e.renameAt x z d)
  | .unary t e => .unary t (e.renameAt x z d)
  | .binary e t e' => .binary (e.renameAt x z d) t (e'.renameAt x z d)
  | .logical e t e' => .logical (e.renameAt x z d) t (e'.renameAt x z d)
  | .variable name b => .variable (name.rename (b = .scope d) x z) b
  | .assign name b e => .assign (name.rename (b = .scope d) x z) b (e.renameAt x z d)
  | .call c t args => .call (c.renameAt x z d) t (Expr.renameAllAt x z d args)

/-- Expressions in which the variable `x` of the scope `d` scopes out is called `z`. -/
def Expr.renameAllAt (x z : Bytes) (d : Nat) : List (Expr Binding) → List (Expr Binding)
  | [] => []
  | e :: es => e.renameAt x z d :: Expr.renameAllAt x z d es

end

mutual

/-- A statement in which the variable `x` of the scope `d` scopes out is called `z`; a variable that
it declares itself is one of the innermost scope. -/
def Stmt.renameAt (x z : Bytes) (d : Nat) : Stmt Binding → Stmt Binding
  | .expr e => .expr (e.renameAt x z d)
  | .print t e => .print t (e.renameAt x z d)
  | .var name none => .var (name.rename (d = 0) x z) none
  | .var name (some e) => .var (name.rename (d = 0) x z) (some (e.renameAt x z d))
  | .block t body => .block t (Stmt.renameAllAt x z (d + 1) body)
  | .ifElse t test yes none => .ifElse t (test.renameAt x z d) (yes.renameAt x z d) none
  | .ifElse t test yes (some no) =>
    .ifElse t (test.renameAt x z d) (yes.renameAt x z d) (some (no.renameAt x z d))
  | .while t test body => .while t (test.renameAt x z d) (body.renameAt x z d)
  | .function name params body => .function name params (Stmt.renameAllAt x z (d + 1) body)
  | .return t none => .return t none
  | .return t (some e) => .return t (some (e.renameAt x z d))
  | .branch t => .branch t

/-- Statements in which the variable `x` of the scope `d` scopes out is called `z`. -/
def Stmt.renameAllAt (x z : Bytes) (d : Nat) : List (Stmt Binding) → List (Stmt Binding)
  | [] => []
  | s :: ss => s.renameAt x z d :: Stmt.renameAllAt x z d ss

end

/-- One of these statements declares the variable `x`. -/
def Stmt.Declares {β : Type} (x : Bytes) (ss : List (Stmt β)) : Prop :=
  ∃ name init, Stmt.var name init ∈ ss ∧ name.lexeme = x

mutual

/-- A statement, and the same with one of the local variables and parameters in it called `z` that
were called `x`: its declaration, and the uses of variables that are bound to it. -/
inductive Stmt.Renames (x z : Bytes) : Stmt Binding → Stmt Binding → Prop where
  | block (t : Token) {body : List (Stmt Binding)} (h : Stmt.Declares x body) :
    Stmt.Renames x z (.block t body) (.block t (Stmt.renameAllAt x z 0 body))
  | function (name : Token) {params : List Token} {body : List (Stmt Binding)}
      (h : (∃ p ∈ params, p.lexeme = x) ∨ Stmt.Declares x body) :
    Stmt.Renames x z (.function name params body)
      (.function name (params.map (Token.rename true x z)) (Stmt.renameAllAt x z 0 body))
  | inBlock (t : Token) {body body' : List (Stmt Binding)} (h : Stmt.AllRenames x z body body') :
    Stmt.Renames x z (.block t body) (.block t body')
  | inFunction (name : Token) (params : List Token) {body body' : List (Stmt Binding)}
      (h : Stmt.AllRenames x z body body') :
    Stmt.Renames x z (.function name params body) (.function name params body')
  | inYes (t : Token) (test : Expr Binding) {yes yes' : Stmt Binding} (no : Option (Stmt Binding))
      (h : Stmt.Renames x z yes yes') :
    Stmt.Renames x z (.ifElse t test yes no) (.ifElse t test yes' no)
  | inNo (t : Token) (test : Expr Binding) (yes : Stmt Binding) {no no' : Stmt Binding}
      (h : Stmt.Renames x z no no') :
    Stmt.Renames x z (.ifElse t test yes (some no)) (.ifElse t test yes (some no'))
  | inWhile (t : Token) (test : Expr Binding) {body body' : Stmt Binding}
      (h : Stmt.Renames x z body body') :
    Stmt.Renames x z (.while t test body) (.while t test body')

/-- Statements, and the same with a local variable or parameter renamed in one of them. -/
inductive Stmt.AllRenames (x z : Bytes) : List (Stmt Binding) → List (Stmt Binding) → Prop where
  | here {s s' : Stmt Binding} (ss : List (Stmt Binding)) (h : Stmt.Renames x z s s') :
    Stmt.AllRenames x z (s :: ss) (s' :: ss)
  | later (s : Stmt Binding) {ss ss' : List (Stmt Binding)} (h : Stmt.AllRenames x z ss ss') :
    Stmt.AllRenames x z (s :: ss) (s :: ss')

end

/-- An expression without what is known of its uses of variables. -/
abbrev Expr.unbound (e : Expr Binding) : Expr Unit := e.mapUses fun _ ↦ ()

/-- Several expressions without what is known of their uses of variables. -/
abbrev Expr.unboundAll (es : List (Expr Binding)) : List (Expr Unit) :=
  Expr.mapUsesList (fun _ ↦ ()) es

/-- A statement without what is known of its uses of variables. -/
abbrev Stmt.unbound (s : Stmt Binding) : Stmt Unit := s.mapUses fun _ ↦ ()

/-- Statements without what is known of their uses of variables. -/
abbrev Stmt.unboundAll (ss : List (Stmt Binding)) : List (Stmt Unit) :=
  Stmt.mapUsesList (fun _ ↦ ()) ss

end Lox
