import Lox.Scope.Resolve

/-!
# Keywords that leave a statement

A `break` or `continue` leaves the statements around it up to a loop, and a `return` up to a
function. Which keywords leave a statement can be read off the statement: those in it that are in no
loop, or no function, within it (`Stmt.branches`, `Stmt.returns`). The resolver reports those that
leave a program or, as for `break` and `continue`, the body of a function
(`Program.reported_resolve`).
-/

namespace Lox

mutual

/-- The keywords `break` and `continue` in a statement that are in no loop and in no function in
it. -/
def Stmt.branches {β : Type} : Stmt β → List Token
  | .block _ body => Stmt.branchesAll body
  | .ifElse _ _ yes none => yes.branches
  | .ifElse _ _ yes (some no) => yes.branches ++ no.branches
  | .branch t => [t]
  | _ => []

/-- The keywords `break` and `continue` in statements that are in no loop and in no function in
them. -/
def Stmt.branchesAll {β : Type} : List (Stmt β) → List Token
  | [] => []
  | s :: ss => s.branches ++ Stmt.branchesAll ss

end

mutual

/-- The keywords `return` in a statement that are in no function in it. -/
def Stmt.returns {β : Type} : Stmt β → List Token
  | .block _ body => Stmt.returnsAll body
  | .ifElse _ _ yes none => yes.returns
  | .ifElse _ _ yes (some no) => yes.returns ++ no.returns
  | .while _ _ body => body.returns
  | .return t _ => [t]
  | _ => []

/-- The keywords `return` in statements that are in no function in them. -/
def Stmt.returnsAll {β : Type} : List (Stmt β) → List Token
  | [] => []
  | s :: ss => s.returns ++ Stmt.returnsAll ss

end

mutual

/-- The bodies of the functions declared in a statement, at any depth. -/
def Stmt.bodies {β : Type} : Stmt β → List (List (Stmt β))
  | .block _ body => Stmt.bodiesAll body
  | .ifElse _ _ yes none => yes.bodies
  | .ifElse _ _ yes (some no) => yes.bodies ++ no.bodies
  | .while _ _ body => body.bodies
  | .function _ _ body => body :: Stmt.bodiesAll body
  | _ => []

/-- The bodies of the functions declared in statements, at any depth. -/
def Stmt.bodiesAll {β : Type} : List (Stmt β) → List (List (Stmt β))
  | [] => []
  | s :: ss => s.bodies ++ Stmt.bodiesAll ss

end

/-- A `break` or `continue` that is in no loop of its function, or of the program. -/
def Program.Strays {β : Type} (p : Program β) (t : Token) : Prop :=
  ∃ body ∈ p :: Stmt.bodiesAll p, t ∈ Stmt.branchesAll body

/-! ## What the resolver reports -/

/-- The error of a `break` or `continue` outside of every loop. -/
abbrev StaticError.stray (t : Token) : StaticError := .ofToken t (.branchOutsideLoop t.lexeme)

/-- The errors of what is in these surroundings name the keywords that leave the surroundings, and
the stray ones in functions: `branches` and `returns` are those of the code itself, `bodies` the
functions in it. -/
structure Reported (around : Surroundings) (errors : List StaticError)
    (branches returns : List Token) (bodies : List (Program Binding)) : Prop where
  branches : around.inLoop = false → around.lenient = false → ∀ t ∈ branches, .stray t ∈ errors
  returns : around.inFunction = false → ∀ t ∈ returns, .ofToken t .returnAtTopLevel ∈ errors
  bodies : around.lenient = false → ∀ body ∈ bodies, ∀ t ∈ Stmt.branchesAll body, .stray t ∈ errors

namespace Reported

variable {around : Surroundings} {errors errors' : List StaticError} {bs bs' rs rs' : List Token}
  {fs fs' : List (Program Binding)}

private theorem nil : Reported around errors [] [] [] :=
  ⟨fun _ _ ↦ List.forall_mem_nil _, fun _ ↦ List.forall_mem_nil _, fun _ ↦ List.forall_mem_nil _⟩

private theorem mono (h : Reported around errors bs rs fs) (he : errors ⊆ errors') :
    Reported around errors' bs rs fs :=
  ⟨fun hl hs t ht ↦ he (h.branches hl hs t ht), fun hf t ht ↦ he (h.returns hf t ht),
    fun hs body hb t ht ↦ he (h.bodies hs body hb t ht)⟩

private theorem append (h : Reported around errors bs rs fs)
    (h' : Reported around errors' bs' rs' fs') :
    Reported around (errors ++ errors') (bs ++ bs') (rs ++ rs') (fs ++ fs') where
  branches hl hs := List.forall_mem_append.mpr
    ⟨fun t ht ↦ List.mem_append_left _ (h.branches hl hs t ht),
      fun t ht ↦ List.mem_append_right _ (h'.branches hl hs t ht)⟩
  returns hf := List.forall_mem_append.mpr
    ⟨fun t ht ↦ List.mem_append_left _ (h.returns hf t ht),
      fun t ht ↦ List.mem_append_right _ (h'.returns hf t ht)⟩
  bodies hs := List.forall_mem_append.mpr
    ⟨fun body hb t ht ↦ List.mem_append_left _ (h.bodies hs body hb t ht),
      fun body hb t ht ↦ List.mem_append_right _ (h'.bodies hs body hb t ht)⟩

/-- No `break` or `continue` leaves a loop. -/
theorem loop (h : Reported { around with inLoop := true } errors bs rs fs) :
    Reported around errors [] rs fs := ⟨fun _ _ ↦ List.forall_mem_nil _, h.returns, h.bodies⟩

/-- Nothing leaves a function. -/
theorem function {body : Program Binding}
    (h : Reported { around with inFunction := true, inLoop := false } errors
      (Stmt.branchesAll body) rs (Stmt.bodiesAll body)) :
    Reported around errors [] [] (body :: Stmt.bodiesAll body) :=
  ⟨fun _ _ ↦ List.forall_mem_nil _, fun _ ↦ List.forall_mem_nil _,
    fun hs ↦ List.forall_mem_cons.mpr ⟨h.branches rfl hs, h.bodies hs⟩⟩

end Reported

namespace Scopes

/- The errors are those of the same code, found in other scopes perhaps and with other leniency: the
tree that is run may come from a lenient resolver, and the errors are those of a strict one. -/

mutual

private theorem reported_resolveStmt (inFunction inLoop lenient lenient' : Bool)
    (scopes scopes' : Scopes) :
    (s : Stmt Unit) →
      let tree := (resolveStmt ⟨inFunction, inLoop, lenient⟩ scopes s).2.tree
      Reported ⟨inFunction, inLoop, lenient'⟩
        (resolveStmt ⟨inFunction, inLoop, lenient'⟩ scopes' s).2.errors
        tree.branches tree.returns tree.bodies
  | .expr _ => .nil
  | .print _ _ => .nil
  | .var _ _ => .nil
  | .block _ body =>
    reported_resolveStmts inFunction inLoop lenient lenient' ([] :: scopes) ([] :: scopes') body
  | .ifElse _ test yes none =>
    (reported_resolveStmt inFunction inLoop lenient lenient' scopes scopes' yes).mono
      (List.subset_append_right _ _)
  | .ifElse _ test yes (some no) => by
    have hyes := reported_resolveStmt inFunction inLoop lenient lenient' scopes scopes' yes
    have hno := reported_resolveStmt inFunction inLoop lenient lenient'
      (resolveStmt ⟨inFunction, inLoop, lenient⟩ scopes yes).1
      (resolveStmt ⟨inFunction, inLoop, lenient'⟩ scopes' yes).1 no
    exact (hyes.append hno).mono (List.subset_append_right _ _)
  | .while _ test body =>
    ((reported_resolveStmt inFunction true lenient lenient' scopes scopes' body).mono
      (List.subset_append_right _ _)).loop
  | .function name params body =>
    ((reported_resolveStmts true false lenient lenient' _ _ body).mono
      (List.Subset.trans (List.subset_append_right _ _) (List.subset_append_right _ _))).function
  | .return t result => by
    refine ⟨fun _ _ ↦ List.forall_mem_nil _, fun hf ↦ ?_, fun _ ↦ List.forall_mem_nil _⟩
    dsimp only at hf
    subst hf
    intro t' ht
    rw [List.mem_singleton.mp ht]
    exact List.mem_cons_self
  | .branch t => by
    refine ⟨fun hl hs ↦ ?_, fun _ ↦ List.forall_mem_nil _, fun _ ↦ List.forall_mem_nil _⟩
    dsimp only at hl hs
    subst hl hs
    intro t' ht
    rw [List.mem_singleton.mp ht]
    exact List.mem_cons_self

private theorem reported_resolveStmts (inFunction inLoop lenient lenient' : Bool)
    (scopes scopes' : Scopes) :
    (ss : List (Stmt Unit)) →
      let trees := (resolveStmts ⟨inFunction, inLoop, lenient⟩ scopes ss).tree
      Reported ⟨inFunction, inLoop, lenient'⟩
        (resolveStmts ⟨inFunction, inLoop, lenient'⟩ scopes' ss).errors
        (Stmt.branchesAll trees) (Stmt.returnsAll trees) (Stmt.bodiesAll trees)
  | [] => .nil
  | s :: ss =>
    (reported_resolveStmt inFunction inLoop lenient lenient' scopes scopes' s).append
      (reported_resolveStmts inFunction inLoop lenient lenient' _ _ ss)

end

end Scopes

/-- The resolver reports every keyword that would leave a program. If it is strict, it reports every
stray `break` and `continue`; the keywords are those of the program, however it was resolved. -/
theorem Program.reported_resolve (lenient lenient' : Bool) (p : Program Unit) :
    (lenient' = false → ∀ t, (p.resolve lenient).tree.Strays t →
      .stray t ∈ (p.resolve lenient').errors) ∧
    ∀ t ∈ Stmt.returnsAll (p.resolve lenient).tree,
      .ofToken t .returnAtTopLevel ∈ (p.resolve lenient').errors := by
  have h := Scopes.reported_resolveStmts false false lenient lenient' [] [] p
  refine ⟨fun hs t ⟨body, hbody, ht⟩ ↦ ?_, h.returns rfl⟩
  rcases List.mem_cons.mp hbody with rfl | hbody
  · exact h.branches rfl hs t ht
  · exact h.bodies hs body hbody t ht

end Lox
