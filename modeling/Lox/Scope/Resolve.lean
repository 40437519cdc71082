import Lox.StaticError
import Lox.Syntax.Basic

/-!
# Resolving names

Each use of a variable is bound, before the program runs, to the scope that declares it: the block
or function a number of scopes out, or the global scope, whose names are looked up only when the
program runs. A block has a scope, and so has a function, whose parameters and body share it; the
evaluator makes a new environment at just these places, so a number of scopes is also a number of
environments.

Resolution also finds the errors that the grammar does not exclude: a local variable that is read
in its own initializer or declared twice in a scope, a `return` outside of every function, and a
`break` or `continue` outside of every loop. The last is tolerated on request, to fail when it is
executed. Errors do not prevent a result, and none affects another.
-/

namespace Lox

/-- Where a use of a variable finds it. -/
inductive Binding where
  /-- In the scope this many scopes out. -/
  | scope (depth : Nat)
  /-- In the global scope. -/
  | global
  deriving DecidableEq, Repr

/-- The names declared in a block or function so far, the latest first, each with whether it is
ready for use; it is not while its initializer is evaluated. -/
abbrev Scope := List (Bytes × Bool)

/-- Whether a name is declared in a scope. -/
def Scope.declares (s : Scope) (name : Bytes) : Bool := (s.lookup name).isSome

/-- The scopes around a point of a program, the innermost first. There are none at top level, where
names are global. -/
abbrev Scopes := List Scope

namespace Scopes

/-- Where a name is found, searching from the innermost scope outwards. -/
def find (scopes : Scopes) (name : Bytes) : Binding :=
  match scopes.findIdx? (·.declares name) with
  | some depth => .scope depth
  | none => .global

/-- Whether a name is declared in the innermost scope, but not ready for use. -/
def isUnready (scopes : Scopes) (name : Bytes) : Bool :=
  match scopes with
  | [] => false
  | s :: _ => s.lookup name == some false

/-- Records a name in the innermost scope. At top level nothing is recorded. -/
def record (scopes : Scopes) (name : Bytes) (ready : Bool) : Scopes :=
  match scopes with
  | [] => []
  | s :: rest => ((name, ready) :: s) :: rest

/-- The error of declaring a name in the innermost scope again, if it is one. Global variables may
be declared again. -/
def redeclaration (scopes : Scopes) (name : Token) : List StaticError :=
  match scopes with
  | [] => []
  | s :: _ =>
    if s.declares name.lexeme then [.ofToken name (.alreadyDeclared name.lexeme)] else []

end Scopes

/-- A tree with its uses of variables bound, and the errors found in it. -/
structure Resolved (α : Type) where
  tree : α
  errors : List StaticError

/-- What surrounds a statement. -/
structure Surroundings where
  /-- Whether the statement is in a function. -/
  inFunction : Bool
  /-- Whether the statement is in a loop of the innermost function. -/
  inLoop : Bool
  /-- Whether a `break` or `continue` outside of loops is tolerated. -/
  lenient : Bool

/-- Around the statements of a program there is neither a function nor a loop. -/
def Surroundings.topLevel (lenient : Bool) : Surroundings := ⟨false, false, lenient⟩

namespace Scopes

mutual

/-- Binds the uses of variables in an expression. -/
def resolveExpr (scopes : Scopes) : Expr Unit → Resolved (Expr Binding)
  | .literal t v => ⟨.literal t v, []⟩
  | .grouping t x =>
    let x := resolveExpr scopes x
    ⟨.grouping t x.tree, x.errors⟩
  | .unary t x =>
    let x := resolveExpr scopes x
    ⟨.unary t x.tree, x.errors⟩
  | .binary x t y =>
    let x := resolveExpr scopes x
    let y := resolveExpr scopes y
    ⟨.binary x.tree t y.tree, x.errors ++ y.errors⟩
  | .logical x t y =>
    let x := resolveExpr scopes x
    let y := resolveExpr scopes y
    ⟨.logical x.tree t y.tree, x.errors ++ y.errors⟩
  | .variable name _ =>
    ⟨.variable name (scopes.find name.lexeme),
      if scopes.isUnready name.lexeme then [.ofToken name .ownInitializer] else []⟩
  | .assign name _ x =>
    let x := resolveExpr scopes x
    ⟨.assign name (scopes.find name.lexeme) x.tree, x.errors⟩
  | .call c t args =>
    let c := resolveExpr scopes c
    let args := resolveExprs scopes args
    ⟨.call c.tree t args.tree, c.errors ++ args.errors⟩

/-- Binds the uses of variables in several expressions. -/
def resolveExprs (scopes : Scopes) : List (Expr Unit) → Resolved (List (Expr Binding))
  | [] => ⟨[], []⟩
  | x :: xs =>
    let x := resolveExpr scopes x
    let xs := resolveExprs scopes xs
    ⟨x.tree :: xs.tree, x.errors ++ xs.errors⟩

end

/-- Binds the uses of variables in an expression that may be missing. -/
def resolveExpr? (scopes : Scopes) : Option (Expr Unit) → Resolved (Option (Expr Binding))
  | none => ⟨none, []⟩
  | some e =>
    let e := resolveExpr scopes e
    ⟨some e.tree, e.errors⟩

/-- Declares the parameters of a function, which are ready at once. -/
def declareParams (scopes : Scopes) : List Token → Scopes × List StaticError
  | [] => (scopes, [])
  | p :: ps =>
    let (after, errors) := declareParams (scopes.record p.lexeme true) ps
    (after, scopes.redeclaration p ++ errors)

mutual

/-- Binds the uses of variables in a statement. The scopes change by what it declares. -/
def resolveStmt (around : Surroundings) (scopes : Scopes) :
    Stmt Unit → Scopes × Resolved (Stmt Binding)
  | .expr e =>
    let e := resolveExpr scopes e
    (scopes, ⟨.expr e.tree, e.errors⟩)
  | .print t e =>
    let e := resolveExpr scopes e
    (scopes, ⟨.print t e.tree, e.errors⟩)
  | .var name init =>
    let init' := resolveExpr? (scopes.record name.lexeme false) init
    (scopes.record name.lexeme true,
      ⟨.var name init'.tree, scopes.redeclaration name ++ init'.errors⟩)
  | .block t body =>
    let body := resolveStmts around ([] :: scopes) body
    (scopes, ⟨.block t body.tree, body.errors⟩)
  | .ifElse t test yes no =>
    let test := resolveExpr scopes test
    let (scopes, yes) := resolveStmt around scopes yes
    match no with
    | none => (scopes, ⟨.ifElse t test.tree yes.tree none, test.errors ++ yes.errors⟩)
    | some no =>
      let (scopes, no) := resolveStmt around scopes no
      (scopes, ⟨.ifElse t test.tree yes.tree (some no.tree),
        test.errors ++ (yes.errors ++ no.errors)⟩)
  | .while t test body =>
    let test := resolveExpr scopes test
    let (scopes, body) := resolveStmt { around with inLoop := true } scopes body
    (scopes, ⟨.while t test.tree body.tree, test.errors ++ body.errors⟩)
  | .function name params body =>
    let outer := scopes.record name.lexeme true
    let (inner, paramErrors) := declareParams ([] :: outer) params
    let body := resolveStmts { around with inFunction := true, inLoop := false } inner body
    (outer, ⟨.function name params body.tree,
      scopes.redeclaration name ++ (paramErrors ++ body.errors)⟩)
  | .return t result =>
    let result := resolveExpr? scopes result
    (scopes, ⟨.return t result.tree,
      (if around.inFunction then [] else [.ofToken t .returnAtTopLevel]) ++ result.errors⟩)
  | .branch t =>
    (scopes, ⟨.branch t,
      if around.inLoop || around.lenient then [] else [.ofToken t (.branchOutsideLoop t.lexeme)]⟩)

/-- Binds the uses of variables in statements that follow each other in one scope. -/
def resolveStmts (around : Surroundings) (scopes : Scopes) :
    List (Stmt Unit) → Resolved (List (Stmt Binding))
  | [] => ⟨[], []⟩
  | s :: ss =>
    let (scopes, s) := resolveStmt around scopes s
    let ss := resolveStmts around scopes ss
    ⟨s.tree :: ss.tree, s.errors ++ ss.errors⟩

end

end Scopes

/-- Binds the uses of variables in a program. -/
def Program.resolve (lenient : Bool) (p : Program Unit) : Resolved (Program Binding) :=
  Scopes.resolveStmts (.topLevel lenient) [] p

/-- Binds the uses of variables in an expression at top level, where all are global. -/
def Expr.resolve (e : Expr Unit) : Resolved (Expr Binding) := Scopes.resolveExpr [] e

end Lox
