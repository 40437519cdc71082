import Lox.Proofs.Scope.Fit
import Lox.Proofs.Syntax.Address

/-!
# What the resolver knows at each part

The resolver meets the parts of a program one after the other, and at each of them it has scopes and
knows what surrounds it. From this it makes the resolved part and the errors of its own; the parts
in it add the others, each in the situation that the ones before it leave (`Situation.children_tree`
and `Situation.errors_eq`). So what is known at an address follows from what is known at the parent
of it, or at the part before it (`Program.visit_induction`).
-/

namespace Lox

/-- What the resolver knows where it meets a part of a program. -/
structure Situation where
  around : Surroundings
  scopes : Scopes

namespace Situation

/-- What the resolver makes of a part. -/
def tree (σ : Situation) : Program.Part Unit → Program.Part Binding
  | .program p => .program (σ.scopes.resolveStmts σ.around p).tree
  | .stmt s => .stmt (σ.scopes.resolveStmt σ.around s).2.tree
  | .expr e => .expr (σ.scopes.resolveExpr e).tree
  | .param t => .param t

/-- The errors that the resolver finds in a part. -/
def errors (σ : Situation) : Program.Part Unit → List StaticError
  | .program p => (σ.scopes.resolveStmts σ.around p).errors
  | .stmt s => (σ.scopes.resolveStmt σ.around s).2.errors
  | .expr e => (σ.scopes.resolveExpr e).errors
  | .param t => σ.scopes.redeclaration t

/-- The errors of a part that are not those of the parts it consists of. -/
def own (σ : Situation) : Program.Part Unit → List StaticError
  | .stmt (.var name _) => σ.scopes.redeclaration name
  | .stmt (.function name _ _) => σ.scopes.redeclaration name
  | .stmt (.return t _) => if σ.around.inFunction then [] else [.ofToken t .returnAtTopLevel]
  | .stmt (.branch t) =>
    if σ.around.inLoop || σ.around.lenient then [] else [.ofToken t (.branchOutsideLoop t.lexeme)]
  | .expr (.variable name _) =>
    if σ.scopes.isUnready name.lexeme then [.ofToken name .ownInitializer] else []
  | .param t => σ.scopes.redeclaration t
  | _ => []

/-- The situation in which the first of the parts is met that a part consists of, if any. -/
def inside (σ : Situation) : Program.Part Unit → Situation
  | .stmt (.var name _) => { σ with scopes := σ.scopes.record name.lexeme false }
  | .stmt (.block _ _) => { σ with scopes := [] :: σ.scopes }
  | .stmt (.while _ _ _) => { σ with around := { σ.around with inLoop := true } }
  | .stmt (.function name _ _) =>
    ⟨{ σ.around with inFunction := true, inLoop := false }, [] :: σ.scopes.record name.lexeme true⟩
  | .param t => { σ with scopes := σ.scopes.record t.lexeme true }
  | _ => σ

/-- The situation behind a part. -/
def behind (σ : Situation) : Program.Part Unit → Situation
  | .stmt s => { σ with scopes := (σ.scopes.resolveStmt σ.around s).1 }
  | .param t => { σ with scopes := σ.scopes.record t.lexeme true }
  | _ => σ

/-- Parts that follow each other, each in its situation. -/
def along (σ : Situation) : List (Program.Part Unit) → List (Situation × Program.Part Unit)
  | [] => []
  | c :: cs => (σ, c) :: (σ.behind c).along cs

/-- A declaration is recorded, and what a block or a function consists of is met in a new scope. -/
theorem scopes_inside (σ : Situation) (part : Program.Part Unit) : ∃ ready, (σ.inside part).scopes =
    (if part.opens then [[]] else []) ++
      part.declared?.elim σ.scopes fun t ↦ σ.scopes.record t.lexeme ready := by
  cases part with
  | param t => exact ⟨true, rfl⟩
  | stmt s =>
    cases s with
    | var name init => exact ⟨false, rfl⟩
    | function name params body => exact ⟨true, rfl⟩
    | _ => exact ⟨true, rfl⟩
  | _ => exact ⟨true, rfl⟩

/-- Behind a part its declaration is recorded. -/
theorem scopes_behind (σ : Situation) {part : Program.Part Unit} (hf : part.Formed) :
    (σ.behind part).scopes =
      part.declared?.elim σ.scopes fun t ↦ σ.scopes.record t.lexeme true := by
  cases part with
  | stmt s =>
    refine (Scopes.resolveStmt_fst σ.around σ.scopes s hf).trans ?_
    cases s <;> rfl
  | _ => rfl

/-! ## Parts one after the other -/

/-- The parts are all there, in their order. -/
theorem map_snd_along (σ : Situation) (cs : List (Program.Part Unit)) :
    (σ.along cs).map Prod.snd = cs := by
  induction cs generalizing σ with
  | nil => rfl
  | cons c cs ih => exact congrArg (c :: ·) (ih (σ.behind c))

/-- There are as many situations as parts. -/
theorem length_along (σ : Situation) (cs : List (Program.Part Unit)) :
    (σ.along cs).length = cs.length :=
  List.length_map Prod.snd ▸ congrArg List.length (map_snd_along σ cs)

/-- The first of some parts is met in the situation at their front. -/
theorem fst_along_zero {σ τ : Situation} {cs : List (Program.Part Unit)} {c : Program.Part Unit}
    (h : (σ.along cs)[0]? = some (τ, c)) : τ = σ := by
  cases cs with
  | nil => cases h
  | cons d cs =>
    cases h
    rfl

/-- Each other part is met in the situation behind the part before it. -/
theorem fst_along_succ {σ τ : Situation} {cs : List (Program.Part Unit)} {c : Program.Part Unit}
    {i : Nat} (h : (σ.along cs)[i + 1]? = some (τ, c)) :
    ∃ τ' c', (σ.along cs)[i]? = some (τ', c') ∧ τ = τ'.behind c' := by
  induction i generalizing σ cs with
  | zero =>
    cases cs with
    | nil => cases h
    | cons d cs => exact ⟨σ, d, rfl, fst_along_zero h⟩
  | succ i ih =>
    cases cs with
    | nil => cases h
    | cons d cs => exact ih h

private theorem along_expr (σ : Situation) (es : List (Expr Unit)) :
    (σ.along (es.map .expr)).map (fun v ↦ v.1.tree v.2) =
        (σ.scopes.resolveExprs es).tree.map .expr ∧
      (σ.along (es.map .expr)).flatMap (fun v ↦ v.1.errors v.2) =
        (σ.scopes.resolveExprs es).errors := by
  induction es with
  | nil => exact ⟨rfl, rfl⟩
  | cons e es ih => exact ⟨congrArg (_ :: ·) ih.1, congrArg (_ ++ ·) ih.2⟩

private theorem along_expr? (σ : Situation) (e? : Option (Expr Unit)) :
    (σ.along (e?.toList.map .expr)).map (fun v ↦ v.1.tree v.2) =
        (σ.scopes.resolveExpr? e?).tree.toList.map .expr ∧
      (σ.along (e?.toList.map .expr)).flatMap (fun v ↦ v.1.errors v.2) =
        (σ.scopes.resolveExpr? e?).errors := by
  cases e? with
  | none => exact ⟨rfl, rfl⟩
  | some e => exact ⟨rfl, List.append_nil _⟩

private theorem along_stmt (σ : Situation) (ss : List (Stmt Unit)) :
    (σ.along (ss.map .stmt)).map (fun v ↦ v.1.tree v.2) =
        (σ.scopes.resolveStmts σ.around ss).tree.map .stmt ∧
      (σ.along (ss.map .stmt)).flatMap (fun v ↦ v.1.errors v.2) =
        (σ.scopes.resolveStmts σ.around ss).errors := by
  induction ss generalizing σ with
  | nil => exact ⟨rfl, rfl⟩
  | cons s ss ih =>
    obtain ⟨htree, herrors⟩ := ih (σ.behind (.stmt s))
    exact ⟨congrArg (_ :: ·) htree, congrArg (_ ++ ·) herrors⟩

-- The parameters of a function, and then its body.
private theorem along_param (σ : Situation) (params : List Token) (cs : List (Program.Part Unit)) :
    let τ : Situation := { σ with scopes := (σ.scopes.declareParams params).1 }
    (σ.along (params.map .param ++ cs)).map (fun v ↦ v.1.tree v.2) =
        params.map .param ++ (τ.along cs).map (fun v ↦ v.1.tree v.2) ∧
      (σ.along (params.map .param ++ cs)).flatMap (fun v ↦ v.1.errors v.2) =
        (σ.scopes.declareParams params).2 ++ (τ.along cs).flatMap (fun v ↦ v.1.errors v.2) := by
  induction params generalizing σ with
  | nil => exact ⟨rfl, rfl⟩
  | cons t ts ih =>
    obtain ⟨htree, herrors⟩ := ih (σ.behind (.param t))
    refine ⟨congrArg (_ :: ·) htree, ?_⟩
    exact (congrArg (_ ++ ·) herrors).trans (List.append_assoc _ _ _).symm

/-! ## Parts in parts -/

/-- What is made of a part consists of what is made of the parts it consists of. -/
theorem children_tree (σ : Situation) (part : Program.Part Unit) :
    (σ.tree part).children =
      ((σ.inside part).along part.children).map fun v ↦ v.1.tree v.2 := by
  cases part with
  | program p => exact (along_stmt σ p).1.symm
  | param t => rfl
  | expr e =>
    cases e with
    | call c paren args => exact congrArg (_ :: ·) (along_expr σ args).1.symm
    | _ => rfl
  | stmt s =>
    cases s with
    | var name init => exact (along_expr? (σ.inside (.stmt (.var name init))) init).1.symm
    | block brace body => exact (along_stmt (σ.inside (.stmt (.block brace body))) body).1.symm
    | ifElse t test yes no => cases no <;> rfl
    | function name params body =>
      refine ((along_param _ params _).1.trans ?_).symm
      exact congrArg (_ ++ ·) (along_stmt _ body).1
    | «return» t result => exact (along_expr? σ result).1.symm
    | _ => rfl

/-- The errors in a part are its own, and then those in the parts it consists of. -/
theorem errors_eq (σ : Situation) (part : Program.Part Unit) :
    σ.errors part =
      σ.own part ++ ((σ.inside part).along part.children).flatMap fun v ↦ v.1.errors v.2 := by
  cases part with
  | program p => exact (along_stmt σ p).2.symm
  | param t => exact (List.append_nil _).symm
  | expr e =>
    cases e with
    | literal t v => rfl
    | «variable» name u => exact (List.append_nil _).symm
    | call c paren args => exact congrArg (_ ++ ·) (along_expr σ args).2.symm
    | binary x op y => exact congrArg (_ ++ ·) (List.append_nil _).symm
    | logical x op y => exact congrArg (_ ++ ·) (List.append_nil _).symm
    | _ => exact (List.append_nil _).symm
  | stmt s =>
    cases s with
    | var name init =>
      exact congrArg (_ ++ ·) (along_expr? (σ.inside (.stmt (.var name init))) init).2.symm
    | block brace body => exact (along_stmt (σ.inside (.stmt (.block brace body))) body).2.symm
    | ifElse t test yes no =>
      cases no with
      | none => exact congrArg (_ ++ ·) (List.append_nil _).symm
      | some no => exact congrArg (_ ++ ·) (congrArg (_ ++ ·) (List.append_nil _).symm)
    | «while» t test body => exact congrArg (_ ++ ·) (List.append_nil _).symm
    | function name params body =>
      refine congrArg (_ ++ ·) ((along_param _ params _).2.trans ?_).symm
      exact congrArg (_ ++ ·) (along_stmt _ body).2
    | «return» t result => exact congrArg (_ ++ ·) (along_expr? σ result).2.symm
    | branch t => exact (List.append_nil _).symm
    | _ => exact (List.append_nil _).symm

end Situation

/-! ## Situations by address -/

namespace Program

variable {lenient : Bool} {p : Program Unit} {a : Address} {i : Nat}

/-- The part of a program at an address, in the situation in which the resolver meets it. -/
def visit? (lenient : Bool) (p : Program Unit) : Address → Option (Situation × Part Unit)
  | [] => some (⟨.topLevel lenient, []⟩, .program p)
  | i :: a =>
    (visit? lenient p a).bind fun v ↦ ((v.1.inside v.2).along v.2.children)[i]?

/-- The resolver meets all parts of a program. -/
theorem map_snd_visit? (lenient : Bool) (p : Program Unit) (a : Address) :
    (p.visit? lenient a).map Prod.snd = p.part? a := by
  induction a with
  | nil => rfl
  | cons i a ih =>
    rw [visit?, part?, ← ih]
    cases p.visit? lenient a with
    | none => rfl
    | some v =>
      simp only [Option.bind_some, Option.map_some]
      rw [← List.getElem?_map, Situation.map_snd_along]

/-- What is visited at an address is the part at the address. -/
theorem part?_of_visit? {σ : Situation} {part : Part Unit}
    (h : p.visit? lenient a = some (σ, part)) : p.part? a = some part := by
  rw [← map_snd_visit? lenient, h]
  rfl

/-- Every part is visited. -/
theorem exists_visit? (lenient : Bool) {part : Part Unit} (h : p.part? a = some part) :
    ∃ σ, p.visit? lenient a = some (σ, part) := by
  rw [← map_snd_visit? lenient] at h
  obtain ⟨⟨σ, _⟩, hv, rfl⟩ := Option.map_eq_some_iff.mp h
  exact ⟨σ, hv⟩

/-- The parts of a resolved program are what is made of the parts of the program. -/
theorem part?_resolve (lenient : Bool) (p : Program Unit) (a : Address) :
    (p.resolve lenient).tree.part? a = (p.visit? lenient a).map fun v ↦ v.1.tree v.2 := by
  induction a with
  | nil => rfl
  | cons i a ih =>
    rw [visit?, part?, ih]
    cases p.visit? lenient a with
    | none => rfl
    | some v =>
      simp only [Option.bind_some, Option.map_some]
      rw [Situation.children_tree, List.getElem?_map]

private theorem visit?_cons {v : Situation × Part Unit} (h : p.visit? lenient (i :: a) = some v) :
    ∃ σ part, p.visit? lenient a = some (σ, part) ∧
      ((σ.inside part).along part.children)[i]? = some v := by
  obtain ⟨⟨σ, part⟩, hpart, hv⟩ := Option.bind_eq_some_iff.mp h
  exact ⟨σ, part, hpart, hv⟩

/-- What holds at the front of a program, and is brought into each part and past each part, holds
wherever the resolver meets a part. -/
theorem visit_induction {motive : Address → Situation → Prop}
    (front : motive [] ⟨.topLevel lenient, []⟩)
    (enter : ∀ a σ part, p.visit? lenient a = some (σ, part) → motive a σ →
      motive (0 :: a) (σ.inside part))
    (pass : ∀ i a σ part, p.visit? lenient (i :: a) = some (σ, part) → motive (i :: a) σ →
      motive ((i + 1) :: a) (σ.behind part))
    {a : Address} {σ : Situation} {part : Part Unit} (h : p.visit? lenient a = some (σ, part)) :
    motive a σ := by
  induction a generalizing σ part with
  | nil =>
    cases h
    exact front
  | cons i a ih =>
    obtain ⟨τ, parent, hparent, hv⟩ := visit?_cons h
    have hτ := ih hparent
    induction i generalizing σ part with
    | zero =>
      rw [Situation.fst_along_zero hv]
      exact enter a τ parent hparent hτ
    | succ i ihi =>
      obtain ⟨σ', part', hv', rfl⟩ := Situation.fst_along_succ hv
      have hvisit : p.visit? lenient (i :: a) = some (σ', part') := by
        rw [visit?, hparent]
        exact hv'
      exact pass i a σ' part' hvisit (ihi hvisit hv')

end Program

end Lox
