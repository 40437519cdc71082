import Lox.Proofs.Syntax.Walk
import Lox.Scope.Resolve
import Mathlib.Data.List.Perm.Basic

/-!
# Uses that are bound and uses that are met

The resolver and a traversal each go through a program on their own. Here the resolver notes the
uses of variables that it looks up, with their addresses. The notes do not influence it: leaving
them out gives the resolver back (`Noted.resolve_erases`). It looks up each use of a program once,
and these are the uses that a traversal meets if it turns nothing down
(`Program.traversals_meet_the_uses_looked_up`). Only their orders differ: the resolver looks up what
is assigned to behind what is in the value, and a traversal meets it ahead of that.
-/

namespace Lox

open Program (Part)

/-- The use of a variable that a step of a traversal enters, if it does. -/
def Event.use? {β : Type} (e : Event β) : Option (Address × Token) :=
  e.visit.use?.map fun use ↦ (e.address, use.1)

private theorem Event.exists_of_use? {β : Type} {e : Event β} {use : Address × Token}
    (h : e.use? = some use) : ∃ node, e = .enter use.1 node := by
  obtain ⟨_, hvisit, rfl⟩ := Option.map_eq_some_iff.mp h
  cases e with
  | enter a node => exact ⟨node, rfl⟩
  | leave a => cases hvisit

/-! ## Uses that a traversal meets -/

namespace Program.Part

variable {β : Type}

/-- The uses of variables that the traversal of a part meets if it turns nothing down. -/
def met (a : Address) (part : Part β) : List (Address × Token) :=
  (part.walk (fun _ _ ↦ true) a).filterMap Event.use?

/-- Those in parts that follow each other, the first of which has this number. -/
def metAll (a : Address) (i : Nat) (parts : List (Part β)) : List (Address × Token) :=
  (parts.zipIdx i).flatMap fun x ↦ met (x.2 :: a) x.1

/-- No parts use anything. -/
@[simp] theorem metAll_nil (a : Address) (i : Nat) : metAll a i ([] : List (Part β)) = [] := rfl

/-- The uses of the first part come before those of the others. -/
@[simp] theorem metAll_cons (a : Address) (i : Nat) (part : Part β) (parts : List (Part β)) :
    metAll a i (part :: parts) = met (i :: a) part ++ metAll a (i + 1) parts := rfl

/-- The uses in parts that follow others come after theirs. -/
@[simp] theorem metAll_append (a : Address) (i : Nat) (parts parts' : List (Part β)) :
    metAll a i (parts ++ parts') = metAll a i parts ++ metAll a (i + parts.length) parts' := by
  simp [metAll, List.zipIdx_append]

/-- The name that a part uses. -/
def used? : Part β → Option Token
  | .expr (.variable name _) => some name
  | .expr (.assign name _ _) => some name
  | _ => none

private theorem use?_enter (a : Address) {part : Part β} {node : Node β}
    (h : part.node? = some node) : (Event.enter a node).use? = part.used?.map (a, ·) := by
  cases part with
  | expr e =>
    cases h
    cases e <;> rfl
  | stmt s =>
    cases h
    rfl
  | _ => cases h

/-- The uses in a part are its own and those in what it directly consists of. -/
theorem met_eq (a : Address) (part : Part β) :
    part.met a = (part.used?.map (a, ·)).toList ++ metAll a 0 part.children := by
  have hinner : (part.walkInner (fun _ _ ↦ true) a).filterMap Event.use? =
      metAll a 0 part.children := List.filterMap_flatMap
  rw [met, walk_eq, ← hinner]
  cases hnode : part.node? with
  | none => cases part with
    | program p => rfl
    | param t => rfl
    | _ => cases hnode
  | some node =>
    have hleave : (Event.leave a : Event β).use? = none := rfl
    rw [← use?_enter a hnode]
    cases huse : (Event.enter a node).use? <;> simp [Event.around, huse, hleave]

/-- Parameters are not used where they are declared. -/
@[simp] theorem metAll_param (a : Address) (i : Nat) (params : List Token) :
    metAll a i (params.map (param : Token → Part β)) = [] := by
  induction params generalizing i with
  | nil => rfl
  | cons t ts ih =>
    rw [List.map_cons, metAll_cons, ih, met_eq]
    rfl

end Program.Part

/-! ## Uses that the resolver looks up -/

/-- What the resolver makes of a tree, and the uses of variables that it has looked up for it, with
their names, the latest last. -/
structure Noted (α : Type) extends Resolved α where
  uses : List (Address × Token)

namespace Noted

/-- Looks up the use of a variable at an address, and notes it. -/
def use (scopes : Scopes) (a : Address) (name : Token) : Binding × List (Address × Token) :=
  (scopes.find name.lexeme, [(a, name)])

mutual

/-- Binds the uses of variables in the expression at an address, and notes them. -/
def ofExpr (scopes : Scopes) (a : Address) : Expr Unit → Noted (Expr Binding)
  | .literal t v => ⟨⟨.literal t v, []⟩, []⟩
  | .grouping t x =>
    let x := ofExpr scopes (0 :: a) x
    ⟨⟨.grouping t x.tree, x.errors⟩, x.uses⟩
  | .unary t x =>
    let x := ofExpr scopes (0 :: a) x
    ⟨⟨.unary t x.tree, x.errors⟩, x.uses⟩
  | .binary x t y =>
    let x := ofExpr scopes (0 :: a) x
    let y := ofExpr scopes (1 :: a) y
    ⟨⟨.binary x.tree t y.tree, x.errors ++ y.errors⟩, x.uses ++ y.uses⟩
  | .logical x t y =>
    let x := ofExpr scopes (0 :: a) x
    let y := ofExpr scopes (1 :: a) y
    ⟨⟨.logical x.tree t y.tree, x.errors ++ y.errors⟩, x.uses ++ y.uses⟩
  | .variable name _ =>
    let (binding, uses) := use scopes a name
    ⟨⟨.variable name binding,
      if scopes.isUnready name.lexeme then [.ofToken name .ownInitializer] else []⟩, uses⟩
  | .assign name _ x =>
    let x := ofExpr scopes (0 :: a) x
    let (binding, uses) := use scopes a name
    ⟨⟨.assign name binding x.tree, x.errors⟩, x.uses ++ uses⟩
  | .call c t args =>
    let c := ofExpr scopes (0 :: a) c
    let args := ofExprs scopes a 1 args
    ⟨⟨.call c.tree t args.tree, c.errors ++ args.errors⟩, c.uses ++ args.uses⟩

/-- Binds and notes the uses of variables in several expressions in the part at an address, the
first of which has this number. -/
def ofExprs (scopes : Scopes) (a : Address) (i : Nat) :
    List (Expr Unit) → Noted (List (Expr Binding))
  | [] => ⟨⟨[], []⟩, []⟩
  | x :: xs =>
    let x := ofExpr scopes (i :: a) x
    let xs := ofExprs scopes a (i + 1) xs
    ⟨⟨x.tree :: xs.tree, x.errors ++ xs.errors⟩, x.uses ++ xs.uses⟩

end

/-- Binds and notes the uses of variables in an expression that may be missing in the part at an
address. -/
def ofExpr? (scopes : Scopes) (a : Address) : Option (Expr Unit) → Noted (Option (Expr Binding))
  | none => ⟨⟨none, []⟩, []⟩
  | some e =>
    let e := ofExpr scopes (0 :: a) e
    ⟨⟨some e.tree, e.errors⟩, e.uses⟩

mutual

/-- Binds and notes the uses of variables in the statement at an address. -/
def ofStmt (around : Surroundings) (scopes : Scopes) (a : Address) :
    Stmt Unit → Scopes × Noted (Stmt Binding)
  | .expr e =>
    let e := ofExpr scopes (0 :: a) e
    (scopes, ⟨⟨.expr e.tree, e.errors⟩, e.uses⟩)
  | .print t e =>
    let e := ofExpr scopes (0 :: a) e
    (scopes, ⟨⟨.print t e.tree, e.errors⟩, e.uses⟩)
  | .var name init =>
    let init' := ofExpr? (scopes.record name.lexeme false) a init
    (scopes.record name.lexeme true,
      ⟨⟨.var name init'.tree, scopes.redeclaration name ++ init'.errors⟩, init'.uses⟩)
  | .block t body =>
    let body := ofStmts around ([] :: scopes) a 0 body
    (scopes, ⟨⟨.block t body.tree, body.errors⟩, body.uses⟩)
  | .ifElse t test yes no =>
    let test := ofExpr scopes (0 :: a) test
    let (scopes, yes) := ofStmt around scopes (1 :: a) yes
    match no with
    | none =>
      (scopes, ⟨⟨.ifElse t test.tree yes.tree none, test.errors ++ yes.errors⟩,
        test.uses ++ yes.uses⟩)
    | some no =>
      let (scopes, no) := ofStmt around scopes (2 :: a) no
      (scopes, ⟨⟨.ifElse t test.tree yes.tree (some no.tree),
        test.errors ++ (yes.errors ++ no.errors)⟩, test.uses ++ (yes.uses ++ no.uses)⟩)
  | .while t test body =>
    let test := ofExpr scopes (0 :: a) test
    let (scopes, body) := ofStmt { around with inLoop := true } scopes (1 :: a) body
    (scopes, ⟨⟨.while t test.tree body.tree, test.errors ++ body.errors⟩, test.uses ++ body.uses⟩)
  | .function name params body =>
    let outer := scopes.record name.lexeme true
    let (inner, paramErrors) := Scopes.declareParams ([] :: outer) params
    let body :=
      ofStmts { around with inFunction := true, inLoop := false } inner a params.length body
    (outer, ⟨⟨.function name params body.tree,
      scopes.redeclaration name ++ (paramErrors ++ body.errors)⟩, body.uses⟩)
  | .return t result =>
    let result := ofExpr? scopes a result
    (scopes, ⟨⟨.return t result.tree,
      (if around.inFunction then [] else [.ofToken t .returnAtTopLevel]) ++ result.errors⟩,
      result.uses⟩)
  | .branch t =>
    (scopes, ⟨⟨.branch t,
      if around.inLoop || around.lenient then [] else [.ofToken t (.branchOutsideLoop t.lexeme)]⟩,
      []⟩)

/-- Binds and notes the uses of variables in statements that follow each other in one scope, in the
part at an address. -/
def ofStmts (around : Surroundings) (scopes : Scopes) (a : Address) (i : Nat) :
    List (Stmt Unit) → Noted (List (Stmt Binding))
  | [] => ⟨⟨[], []⟩, []⟩
  | s :: ss =>
    let (scopes, s) := ofStmt around scopes (i :: a) s
    let ss := ofStmts around scopes a (i + 1) ss
    ⟨⟨s.tree :: ss.tree, s.errors ++ ss.errors⟩, s.uses ++ ss.uses⟩

end

/-- Binds the uses of variables in a program, and notes them. -/
def resolve (lenient : Bool) (p : Program Unit) : Noted (Program Binding) :=
  ofStmts (.topLevel lenient) [] [] 0 p

/-! ## Leaving the notes out -/

mutual

private theorem ofExpr_erases (scopes : Scopes) (a : Address) :
    (e : Expr Unit) → (ofExpr scopes a e).toResolved = scopes.resolveExpr e
  | .literal _ _ => rfl
  | .grouping _ x | .unary _ x | .assign _ _ x => by
    simp only [ofExpr, Scopes.resolveExpr, use, ofExpr_erases scopes _ x]
  | .binary x _ y | .logical x _ y => by
    simp only [ofExpr, Scopes.resolveExpr, ofExpr_erases scopes _ x, ofExpr_erases scopes _ y]
  | .variable _ _ => rfl
  | .call c _ args => by
    simp only [ofExpr, Scopes.resolveExpr, ofExpr_erases scopes _ c, ofExprs_erases scopes _ _ args]

private theorem ofExprs_erases (scopes : Scopes) (a : Address) (i : Nat) :
    (es : List (Expr Unit)) → (ofExprs scopes a i es).toResolved = scopes.resolveExprs es
  | [] => rfl
  | e :: es => by
    simp only [ofExprs, Scopes.resolveExprs, ofExpr_erases scopes _ e, ofExprs_erases scopes _ _ es]

end

private theorem ofExpr?_erases (scopes : Scopes) (a : Address) (e? : Option (Expr Unit)) :
    (ofExpr? scopes a e?).toResolved = scopes.resolveExpr? e? := by
  cases e? with
  | none => rfl
  | some e => simp only [ofExpr?, Scopes.resolveExpr?, ofExpr_erases]

mutual

private theorem ofStmt_erases (around : Surroundings) (scopes : Scopes) (a : Address) :
    (s : Stmt Unit) → (ofStmt around scopes a s).map id Noted.toResolved =
      scopes.resolveStmt around s
  | .expr _ | .print _ _ => by
    simp only [ofStmt, Scopes.resolveStmt, Prod.map_apply, id, ofExpr_erases]
  | .var _ _ | .return _ _ => by
    simp only [ofStmt, Scopes.resolveStmt, Prod.map_apply, id, ofExpr?_erases]
  | .block _ body => by
    simp only [ofStmt, Scopes.resolveStmt, Prod.map_apply, id, ofStmts_erases _ _ _ _ body]
  | .ifElse _ test yes none => by
    simp only [ofStmt, Scopes.resolveStmt, Prod.map_apply, id, ofExpr_erases,
      ← ofStmt_erases around scopes (1 :: a) yes, Prod.map_fst, Prod.map_snd]
  | .ifElse _ test yes (some no) => by
    simp only [ofStmt, Scopes.resolveStmt, Prod.map_apply, id, ofExpr_erases,
      ← ofStmt_erases around scopes (1 :: a) yes, Prod.map_fst, Prod.map_snd,
      ← ofStmt_erases around _ (2 :: a) no]
  | .while _ test body => by
    simp only [ofStmt, Scopes.resolveStmt, Prod.map_apply, id, ofExpr_erases,
      ← ofStmt_erases _ scopes (1 :: a) body, Prod.map_fst, Prod.map_snd]
  | .function _ _ body => by
    simp only [ofStmt, Scopes.resolveStmt, Prod.map_apply, id, ofStmts_erases _ _ _ _ body]
  | .branch _ => rfl

private theorem ofStmts_erases (around : Surroundings) (scopes : Scopes) (a : Address) (i : Nat) :
    (ss : List (Stmt Unit)) →
      (ofStmts around scopes a i ss).toResolved = scopes.resolveStmts around ss
  | [] => rfl
  | s :: ss => by
    simp only [ofStmts, Scopes.resolveStmts, ← ofStmt_erases around scopes (i :: a) s,
      Prod.map_fst, Prod.map_snd, id, ofStmts_erases around _ _ _ ss]

end

/-- Leaving the notes out gives the resolver back. -/
theorem resolve_erases (lenient : Bool) (p : Program Unit) :
    (resolve lenient p).toResolved = p.resolve lenient := ofStmts_erases _ _ _ _ p

/-! ## The uses looked up are those met -/

open Program.Part

mutual

/-- The resolver looks up what a traversal meets. -/
theorem uses_ofExpr (scopes : Scopes) (a : Address) :
    (e : Expr Unit) → (ofExpr scopes a e).uses.Perm (met a (.expr e))
  | .literal _ _ => by simp [ofExpr, met_eq, used?, children]
  | .grouping _ x | .unary _ x => by
    simpa [ofExpr, met_eq a, used?, children] using uses_ofExpr scopes (0 :: a) x
  | .binary x _ y | .logical x _ y => by
    simpa [ofExpr, met_eq a, used?, children] using
      (uses_ofExpr scopes (0 :: a) x).append (uses_ofExpr scopes (1 :: a) y)
  | .variable name _ => by simp [ofExpr, use, met_eq, used?, children]
  | .assign name _ x => by
    -- What is assigned to is looked up last and met first.
    simpa [ofExpr, use, met_eq a, used?, children] using
      (List.perm_append_singleton _ _).trans ((uses_ofExpr scopes (0 :: a) x).cons (a, name))
  | .call c _ args => by
    simpa [ofExpr, met_eq a, used?, children] using
      (uses_ofExpr scopes (0 :: a) c).append (uses_ofExprs scopes a 1 args)

private theorem uses_ofExprs (scopes : Scopes) (a : Address) (i : Nat) :
    (es : List (Expr Unit)) → (ofExprs scopes a i es).uses.Perm (metAll a i (es.map .expr))
  | [] => .nil
  | e :: es => (uses_ofExpr scopes (i :: a) e).append (uses_ofExprs scopes a (i + 1) es)

end

private theorem uses_ofExpr? (scopes : Scopes) (a : Address) (e? : Option (Expr Unit)) :
    (ofExpr? scopes a e?).uses.Perm (metAll a 0 (e?.toList.map .expr)) := by
  cases e? with
  | none => exact .nil
  | some e => simpa [ofExpr?] using uses_ofExpr scopes (0 :: a) e

mutual

private theorem uses_ofStmt (around : Surroundings) (scopes : Scopes) (a : Address) :
    (s : Stmt Unit) → (ofStmt around scopes a s).2.uses.Perm (met a (.stmt s))
  | .expr e | .print _ e => by
    simpa [ofStmt, met_eq a, used?, children] using uses_ofExpr scopes (0 :: a) e
  | .var name init => by
    simpa [ofStmt, met_eq a, used?, children] using
      uses_ofExpr? (scopes.record name.lexeme false) a init
  | .block _ body => by
    simpa [ofStmt, met_eq a, used?, children] using uses_ofStmts around ([] :: scopes) a 0 body
  | .ifElse _ test yes none => by
    simpa [ofStmt, met_eq a, used?, children] using
      (uses_ofExpr scopes (0 :: a) test).append (uses_ofStmt around scopes (1 :: a) yes)
  | .ifElse _ test yes (some no) => by
    simpa [ofStmt, met_eq a, used?, children] using
      (uses_ofExpr scopes (0 :: a) test).append
        ((uses_ofStmt around scopes (1 :: a) yes).append (uses_ofStmt around _ (2 :: a) no))
  | .while _ test body => by
    simpa [ofStmt, met_eq a, used?, children] using
      (uses_ofExpr scopes (0 :: a) test).append
        (uses_ofStmt { around with inLoop := true } scopes (1 :: a) body)
  | .function _ params body => by
    simpa [ofStmt, met_eq a, used?, children] using uses_ofStmts _ _ a params.length body
  | .return _ result => by
    simpa [ofStmt, met_eq a, used?, children] using uses_ofExpr? scopes a result
  | .branch _ => by simp [ofStmt, met_eq, used?, children]

private theorem uses_ofStmts (around : Surroundings) (scopes : Scopes) (a : Address) (i : Nat) :
    (ss : List (Stmt Unit)) → (ofStmts around scopes a i ss).uses.Perm (metAll a i (ss.map .stmt))
  | [] => .nil
  | s :: ss => (uses_ofStmt around scopes (i :: a) s).append (uses_ofStmts around _ a (i + 1) ss)

end

private theorem uses_resolve (lenient : Bool) (p : Program Unit) :
    (resolve lenient p).uses.Perm (met [] (.program p)) := by
  rw [met_eq]
  exact uses_ofStmts _ _ [] 0 p

end Noted

/-! ## The two together -/

/-- No node is entered twice to meet a use. -/
theorem Program.Part.nodup_met {β : Type} (a : Address) (part : Part β) :
    ((part.met a).map Prod.fst).Nodup := by
  refine List.pairwise_map.mpr (List.pairwise_filterMap.mpr ?_)
  refine (part.pairwise_walk (fun _ _ ↦ true) a).imp fun {x y} h use huse use' huse' heq ↦ ?_
  obtain ⟨node, rfl⟩ := Event.exists_of_use? huse
  obtain ⟨node', rfl⟩ := Event.exists_of_use? huse'
  have hbefore : use.1.Before use'.1 := h
  rw [heq] at hbefore
  exact hbefore.asymm hbefore

/-- Whatever the traversal of a statement turns down, it enters each node that is in no node turned
down, once and in the order of the source, and leaves again those that it does not turn down
(`Traversal`). If nothing is turned down, the traversals of the statements of a program together
meet the uses of variables that the resolver looks up, each of them once. -/
theorem Program.traversals_meet_the_uses_looked_up (p : Program Unit) :
    (∀ i s, p[i]? = some s →
      (∀ wanted, ((Part.stmt s).walk (fun _ ↦ wanted) [i]).map Event.visit =
        Visit.ofStmt wanted s) ∧
      ∀ wanted, p.Traversal wanted [i] ((Part.stmt s).walk wanted [i])) ∧
    ∀ lenient, (Noted.resolve lenient p).toResolved = p.resolve lenient ∧
      (Noted.resolve lenient p).uses.Perm
        ((p.zipIdx.flatMap fun x ↦ (Part.stmt x.1).walk (fun _ _ ↦ true) [x.2]).filterMap
          Event.use?) ∧
      ((Noted.resolve lenient p).uses.map Prod.fst).Nodup := by
  refine ⟨fun i s hs ↦ ⟨fun wanted ↦ Part.map_visit_walk wanted [i] (.stmt s), fun wanted ↦ ?_⟩,
    fun lenient ↦ ⟨Noted.resolve_erases lenient p, ?_, ?_⟩⟩
  · have hchild : (Part.program p).children[i]? = some (.stmt s) := by
      rw [Part.children, List.getElem?_map, hs]
      rfl
    exact traversal_walk wanted (part?_child rfl hchild)
  · have hmet : (Part.program p).met [] =
        (p.zipIdx.flatMap fun x ↦ (Part.stmt x.1).walk (fun _ _ ↦ true) [x.2]).filterMap
          Event.use? := by
      rw [Part.met, Part.walk_eq]
      simp only [Part.node?, Option.elim_none, Part.walkInner, Part.children, List.zipIdx_map,
        List.flatMap_map]
      rfl
    rw [← hmet]
    exact Noted.uses_resolve lenient p
  · exact ((Noted.uses_resolve lenient p).map Prod.fst).nodup_iff.mpr (Part.nodup_met [] _)

private def assignedName : Token := ⟨.identifier, [97], .nil, 1⟩

private def valueName : Token := ⟨.identifier, [98], .nil, 1⟩

-- The statement `a = b;`.
private def assignStmt : Stmt Unit := .expr (.assign assignedName () (.variable valueName ()))

/-- A traversal that turns the assignment down does not enter its value. The resolver looks the
value up first. -/
theorem Program.traversals_meet_the_uses_looked_up_assignment :
    [assignStmt][0]? = some assignStmt ∧
    (∀ node : Node Unit, .enter [0, 0, 0] node ∉
      (Part.stmt assignStmt).walk (fun a _ ↦ a != [0, 0]) [0]) ∧
    (Noted.resolve false [assignStmt]).uses = [([0, 0, 0], valueName), ([0, 0], assignedName)] ∧
    (Noted.resolve false [assignStmt]).uses.Perm
      (((Part.stmt assignStmt).walk (fun _ _ ↦ true) [0]).filterMap Event.use?) := by
  obtain ⟨hwalk, hresolve⟩ := traversals_meet_the_uses_looked_up [assignStmt]
  obtain ⟨-, hperm, -⟩ := hresolve false
  refine ⟨rfl, fun node hnode ↦ ?_, rfl, by simpa using hperm⟩
  have htraversal := (hwalk 0 assignStmt rfl).2 fun a _ ↦ a != [0, 0]
  obtain ⟨-, -, hwanted⟩ := (htraversal.entered [0, 0, 0] node).mp hnode
  have hassign : node? [assignStmt] [0, 0] =
      some (.expr (.assign assignedName () (.variable valueName ()))) := rfl
  exact absurd (hwanted [0, 0] _ ⟨[0], rfl⟩ ⟨⟨[0], rfl⟩, nofun⟩ hassign) (by decide)

end Lox
