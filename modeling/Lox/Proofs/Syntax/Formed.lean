import Lox.Syntax.Basic

/-!
# Trees that the grammar allows

Syntax trees can hold more than the grammar allows. A tree is formed if its operators are those that
the evaluator knows, and if no declaration is the body of a conditional or of a loop: a declaration
stands only among the statements of a block, of a function or of the program, where it is executed
whenever a statement behind it is.
-/

namespace Lox

/-- The kinds of the prefix operators. -/
def Kind.unary : List Kind := [.bang, .minus]

/-- The kinds of the operators between two operands that are both evaluated. -/
def Kind.binary : List Kind :=
  [.bangEqual, .equalEqual, .greater, .greaterEqual, .less, .lessEqual, .minus, .plus, .slash,
    .star]

/-- Whether a statement declares a name in the scope that it stands in. -/
def Stmt.isDeclaration {β : Type} : Stmt β → Bool
  | .var _ _ | .function _ _ _ => true
  | _ => false

mutual

/-- The operators of an expression are in their places. -/
def Expr.Formed {β : Type} : Expr β → Prop
  | .literal _ _ => True
  | .grouping _ x => x.Formed
  | .unary op x => op.kind ∈ Kind.unary ∧ x.Formed
  | .binary x op y => x.Formed ∧ op.kind ∈ Kind.binary ∧ y.Formed
  | .logical x _ y => x.Formed ∧ y.Formed
  | .variable _ _ => True
  | .assign _ _ x => x.Formed
  | .call c _ args => c.Formed ∧ Expr.AllFormed args

/-- The operators of several expressions are in their places. -/
def Expr.AllFormed {β : Type} : List (Expr β) → Prop
  | [] => True
  | x :: xs => x.Formed ∧ Expr.AllFormed xs

end

mutual

/-- The operators and declarations of a statement are in their places. -/
def Stmt.Formed {β : Type} : Stmt β → Prop
  | .expr e => e.Formed
  | .print _ e => e.Formed
  | .var _ none => True
  | .var _ (some e) => e.Formed
  | .block _ body => Stmt.AllFormed body
  | .ifElse _ test yes none => test.Formed ∧ yes.Formed ∧ yes.isDeclaration = false
  | .ifElse _ test yes (some no) =>
    test.Formed ∧ (yes.Formed ∧ yes.isDeclaration = false) ∧ no.Formed ∧ no.isDeclaration = false
  | .while _ test body => test.Formed ∧ body.Formed ∧ body.isDeclaration = false
  | .function _ _ body => Stmt.AllFormed body
  | .return _ none => True
  | .return _ (some e) => e.Formed
  | .branch _ => True

/-- The operators and declarations of several statements are in their places. -/
def Stmt.AllFormed {β : Type} : List (Stmt β) → Prop
  | [] => True
  | s :: ss => s.Formed ∧ Stmt.AllFormed ss

end

/-- Several statements are formed if each of them is. -/
theorem Stmt.allFormed_iff {β : Type} (ss : List (Stmt β)) :
    Stmt.AllFormed ss ↔ ∀ s ∈ ss, s.Formed := by
  induction ss with
  | nil => simp [Stmt.AllFormed]
  | cons s ss ih => simp [Stmt.AllFormed, ih]

mutual

/-- The names in an expression, at uses of variables. -/
def Expr.names {β : Type} : Expr β → List Token
  | .literal _ _ => []
  | .grouping _ x => x.names
  | .unary _ x => x.names
  | .binary x _ y => x.names ++ y.names
  | .logical x _ y => x.names ++ y.names
  | .variable name _ => [name]
  | .assign name _ x => name :: x.names
  | .call c _ args => c.names ++ Expr.namesAll args

/-- The names in several expressions, at uses of variables. -/
def Expr.namesAll {β : Type} : List (Expr β) → List Token
  | [] => []
  | x :: xs => x.names ++ Expr.namesAll xs

end

mutual

/-- The names in a statement, at declarations and at uses of variables. -/
def Stmt.names {β : Type} : Stmt β → List Token
  | .expr e => e.names
  | .print _ e => e.names
  | .var name none => [name]
  | .var name (some e) => name :: e.names
  | .block _ body => Stmt.namesAll body
  | .ifElse _ test yes none => test.names ++ yes.names
  | .ifElse _ test yes (some no) => test.names ++ (yes.names ++ no.names)
  | .while _ test body => test.names ++ body.names
  | .function name params body => name :: (params ++ Stmt.namesAll body)
  | .return _ none => []
  | .return _ (some e) => e.names
  | .branch _ => []

/-- The names in several statements, at declarations and at uses of variables. -/
def Stmt.namesAll {β : Type} : List (Stmt β) → List Token
  | [] => []
  | s :: ss => s.names ++ Stmt.namesAll ss

end

/-- The names in statements that follow others come after theirs. -/
theorem Stmt.namesAll_append {β : Type} (ss ss' : List (Stmt β)) :
    Stmt.namesAll (ss ++ ss') = Stmt.namesAll ss ++ Stmt.namesAll ss' := by
  induction ss with
  | nil => rfl
  | cons s ss ih => simp [Stmt.namesAll, ih]

end Lox
