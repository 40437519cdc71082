import Lox.Syntax.Basic

/-!
# Traversals of syntax trees

A traversal meets the nodes of a tree from the outside in and from left to right. It enters a node,
and if the visitor wants to see what is in it goes through its children and leaves it again; a node
that the visitor turns down is entered, but neither are its children nor is it left.
-/

namespace Lox

/-- An expression or a statement. -/
inductive Node (β : Type) where
  | expr (e : Expr β)
  | stmt (s : Stmt β)

/-- The line of a node. -/
def Node.line {β : Type} : Node β → Int
  | .expr e => e.line
  | .stmt s => s.line

/-- One step of a traversal. -/
inductive Visit (β : Type) where
  | enter (node : Node β)
  | leave

namespace Visit

/-- Enters a node, and goes through its children if it is wanted. -/
def around {β : Type} (wanted : Node β → Bool) (node : Node β) (children : List (Visit β)) :
    List (Visit β) :=
  if wanted node then .enter node :: (children ++ [.leave]) else [.enter node]

mutual

/-- The traversal of an expression. -/
def ofExpr {β : Type} (wanted : Node β → Bool) : Expr β → List (Visit β)
  | .literal t v => around wanted (.expr (.literal t v)) []
  | .grouping t x => around wanted (.expr (.grouping t x)) (ofExpr wanted x)
  | .unary t x => around wanted (.expr (.unary t x)) (ofExpr wanted x)
  | .binary x t y => around wanted (.expr (.binary x t y)) (ofExpr wanted x ++ ofExpr wanted y)
  | .logical x t y => around wanted (.expr (.logical x t y)) (ofExpr wanted x ++ ofExpr wanted y)
  | .variable t u => around wanted (.expr (.variable t u)) []
  | .assign t u x => around wanted (.expr (.assign t u x)) (ofExpr wanted x)
  | .call c t args =>
    around wanted (.expr (.call c t args)) (ofExpr wanted c ++ ofExprs wanted args)

/-- The traversals of several expressions, one after the other. -/
def ofExprs {β : Type} (wanted : Node β → Bool) : List (Expr β) → List (Visit β)
  | [] => []
  | x :: xs => ofExpr wanted x ++ ofExprs wanted xs

end

mutual

/-- The traversal of a statement. -/
def ofStmt {β : Type} (wanted : Node β → Bool) : Stmt β → List (Visit β)
  | .expr e => around wanted (.stmt (.expr e)) (ofExpr wanted e)
  | .print t e => around wanted (.stmt (.print t e)) (ofExpr wanted e)
  | .var t none => around wanted (.stmt (.var t none)) []
  | .var t (some e) => around wanted (.stmt (.var t (some e))) (ofExpr wanted e)
  | .block t body => around wanted (.stmt (.block t body)) (ofStmts wanted body)
  | .ifElse t c yes none =>
    around wanted (.stmt (.ifElse t c yes none)) (ofExpr wanted c ++ ofStmt wanted yes)
  | .ifElse t c yes (some no) =>
    around wanted (.stmt (.ifElse t c yes (some no)))
      (ofExpr wanted c ++ (ofStmt wanted yes ++ ofStmt wanted no))
  | .while t c body =>
    around wanted (.stmt (.while t c body)) (ofExpr wanted c ++ ofStmt wanted body)
  | .function t ps body => around wanted (.stmt (.function t ps body)) (ofStmts wanted body)
  | .return t none => around wanted (.stmt (.return t none)) []
  | .return t (some e) => around wanted (.stmt (.return t (some e))) (ofExpr wanted e)
  | .branch t => around wanted (.stmt (.branch t)) []

/-- The traversals of several statements, one after the other. -/
def ofStmts {β : Type} (wanted : Node β → Bool) : List (Stmt β) → List (Visit β)
  | [] => []
  | s :: ss => ofStmt wanted s ++ ofStmts wanted ss

end

/-- The use of a variable that a step enters, if it does: its name, whether it is assigned to, and
what is known of it. -/
def use? {β : Type} : Visit β → Option (Token × Bool × β)
  | .enter (.expr (.variable name u)) => some (name, false, u)
  | .enter (.expr (.assign name u _)) => some (name, true, u)
  | _ => none

end Visit

/-- The uses of variables in an expression, an assignment before those in its value. -/
def Expr.uses {β : Type} (e : Expr β) : List (Token × Bool × β) :=
  (Visit.ofExpr (fun _ ↦ true) e).filterMap Visit.use?

/-- The uses of variables in a program, an assignment before those in its value. -/
def Program.uses {β : Type} (p : Program β) : List (Token × Bool × β) :=
  (Visit.ofStmts (fun _ ↦ true) p).filterMap Visit.use?

end Lox
