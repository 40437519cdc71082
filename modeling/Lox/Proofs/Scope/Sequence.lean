import Lox.Proofs.Scope.Like
import Lox.Proofs.Syntax.Relabel

/-!
# Resolving programs one after the other

At top level nothing is recorded, so that a program is resolved the same behind another one
(`Program.resolve_append`). Lines do not matter either: with other lines the same names are bound to
the same scopes (`Program.alike_resolve`).
-/

namespace Lox

namespace Scopes

/-- Recording a name makes no scope. -/
theorem length_record (scopes : Scopes) (name : Bytes) (ready : Bool) :
    (scopes.record name ready).length = scopes.length := by
  cases scopes <;> rfl

/-- Recording parameters makes no scope. -/
theorem length_declareParams (scopes : Scopes) (params : List Token) :
    (scopes.declareParams params).1.length = scopes.length := by
  induction params generalizing scopes with
  | nil => rfl
  | cons p ps ih => exact (ih (scopes.record p.lexeme true)).trans (length_record scopes _ _)

/-- Inside of a function there is one scope more than around it. -/
theorem length_inside (scopes : Scopes) (name : Bytes) (params : List Token) :
    (declareParams ([] :: scopes.record name true) params).1.length = scopes.length + 1 := by
  rw [length_declareParams, List.length_cons, length_record]

/-- There are as many scopes behind a statement as before it. -/
theorem length_resolveStmt (around : Surroundings) (scopes : Scopes) (s : Stmt Unit) :
    (scopes.resolveStmt around s).1.length = scopes.length := by
  cases s with
  | var name init => exact length_record scopes name.lexeme true
  | ifElse t test yes no =>
    have hyes := length_resolveStmt around scopes yes
    cases no with
    | none => exact hyes
    | some no => exact (length_resolveStmt around _ no).trans hyes
  | «while» t test body => exact length_resolveStmt _ scopes body
  | function name params body => exact length_record scopes name.lexeme true
  | _ => rfl

private theorem resolveStmts_append (around : Surroundings) (p q : List (Stmt Unit)) :
    resolveStmts around [] (p ++ q) =
      ⟨(resolveStmts around [] p).tree ++ (resolveStmts around [] q).tree,
        (resolveStmts around [] p).errors ++ (resolveStmts around [] q).errors⟩ := by
  induction p with
  | nil => rfl
  | cons s ss ih =>
    have hscopes : (resolveStmt around [] s).1 = [] :=
      List.length_eq_zero_iff.mp (length_resolveStmt around [] s)
    simp only [List.cons_append, resolveStmts, hscopes, ih, List.append_assoc]

/-- A name is bound to one of the scopes that there are. -/
theorem renaming?_find (scopes : Scopes) (name : Bytes) :
    (scopes.find name).renaming? (List.replicate scopes.length 1) = some 1 := by
  unfold find
  cases h : scopes.findIdx? (·.declares name) with
  | none => rfl
  | some d =>
    obtain ⟨hd, -⟩ := List.findIdx?_eq_some_iff_getElem.mp h
    simp [Binding.renaming?, hd]

section Relabel

variable {same : Prop} {r : Relabel}

/-- Expressions that were resolved alike but for lines, with as many errors. -/
structure AlikeExpr (same : Prop) (r : Relabel) (scopes : Scopes)
    (x x' : Resolved (Expr Binding)) : Prop where
  tree : Expr.Like same (List.replicate scopes.length 1) x.tree x'.tree
  labels : x'.tree = x.tree.relabel r
  errors : x'.errors.length = x.errors.length

/-- Several expressions that were resolved alike but for lines, with as many errors. -/
structure AlikeExprs (same : Prop) (r : Relabel) (scopes : Scopes)
    (xs xs' : Resolved (List (Expr Binding))) : Prop where
  tree : Expr.AllLike same (List.replicate scopes.length 1) xs.tree xs'.tree
  labels : xs'.tree = Expr.relabelAll r xs.tree
  errors : xs'.errors.length = xs.errors.length

private theorem like_place (hr : r.Keeps same) (t : Token) : t.Like same (r.place t) :=
  ⟨rfl, fun h ↦ hr.line h t⟩

private theorem renamed_place (hr : r.Keeps same) (t : Token) : t.Renamed same 1 (r.place t) :=
  ⟨like_place hr t, rfl⟩

private theorem renamed_token (hr : r.Keeps same) (t : Token) : t.Renamed same 1 (r.token t) :=
  ⟨⟨rfl, fun h ↦ hr.line h t⟩, hr.name t⟩

mutual

/-- Other lines do not change what an expression is bound to. -/
theorem alike_resolveExpr (hr : r.Keeps same) (scopes : Scopes) : (e : Expr Unit) →
    scopes.AlikeExpr same r (scopes.resolveExpr e) (scopes.resolveExpr (e.relabel r))
  | .literal t v => ⟨.literal t _ v, rfl, rfl⟩
  | .grouping t x =>
    let hx := alike_resolveExpr hr scopes x
    ⟨.grouping t _ hx.tree, congrArg (Expr.grouping _) hx.labels, hx.errors⟩
  | .unary t x =>
    let hx := alike_resolveExpr hr scopes x
    ⟨.unary (like_place hr t) hx.tree, congrArg (Expr.unary _) hx.labels, hx.errors⟩
  | .binary x t y => by
    have hx := alike_resolveExpr hr scopes x
    have hy := alike_resolveExpr hr scopes y
    refine ⟨.binary hx.tree (like_place hr t) hy.tree, ?_, ?_⟩
    · simp only [Expr.relabel, resolveExpr, hx.labels, hy.labels]
    · simp only [Expr.relabel, resolveExpr, List.length_append, hx.errors, hy.errors]
  | .logical x t y => by
    have hx := alike_resolveExpr hr scopes x
    have hy := alike_resolveExpr hr scopes y
    refine ⟨.logical hx.tree (like_place hr t) hy.tree, ?_, ?_⟩
    · simp only [Expr.relabel, resolveExpr, hx.labels, hy.labels]
    · simp only [Expr.relabel, resolveExpr, List.length_append, hx.errors, hy.errors]
  | .variable name _ => by
    simp only [Expr.relabel, resolveExpr, hr.name name]
    refine ⟨.variable (renaming?_find scopes name.lexeme) (renamed_token hr name), rfl, ?_⟩
    dsimp only
    split <;> rfl
  | .assign name _ x => by
    have hx := alike_resolveExpr hr scopes x
    simp only [Expr.relabel, resolveExpr, hr.name name]
    exact ⟨.assign (renaming?_find scopes name.lexeme) (renamed_token hr name) hx.tree,
      congrArg (Expr.assign _ _) hx.labels, hx.errors⟩
  | .call c t args => by
    have hc := alike_resolveExpr hr scopes c
    have hargs := alike_resolveExprs hr scopes args
    refine ⟨.call hc.tree (like_place hr t) hargs.tree, ?_, ?_⟩
    · simp only [Expr.relabel, resolveExpr, hc.labels, hargs.labels]
    · simp only [Expr.relabel, resolveExpr, List.length_append, hc.errors, hargs.errors]

private theorem alike_resolveExprs (hr : r.Keeps same) (scopes : Scopes) : (es : List (Expr Unit)) →
    scopes.AlikeExprs same r (scopes.resolveExprs es) (scopes.resolveExprs (Expr.relabelAll r es))
  | [] => ⟨.nil, rfl, rfl⟩
  | x :: xs => by
    have hx := alike_resolveExpr hr scopes x
    have hxs := alike_resolveExprs hr scopes xs
    refine ⟨.cons hx.tree hxs.tree, ?_, ?_⟩
    · simp only [Expr.relabelAll, resolveExprs, hx.labels, hxs.labels]
    · simp only [Expr.relabelAll, resolveExprs, List.length_append, hx.errors, hxs.errors]

end

private theorem length_redeclaration (scopes : Scopes) {t t' : Token} (h : t'.lexeme = t.lexeme) :
    (scopes.redeclaration t').length = (scopes.redeclaration t).length := by
  cases scopes with
  | nil => rfl
  | cons s rest =>
    simp only [redeclaration, h]
    split <;> rfl

private theorem declareParams_relabel (hr : r.Keeps same) (scopes : Scopes) (params : List Token) :
    (scopes.declareParams (params.map r.token)).1 = (scopes.declareParams params).1 ∧
      (scopes.declareParams (params.map r.token)).2.length =
        (scopes.declareParams params).2.length := by
  induction params generalizing scopes with
  | nil => exact ⟨rfl, rfl⟩
  | cons p ps ih =>
    obtain ⟨hscopes, herrors⟩ := ih (scopes.record p.lexeme true)
    simp only [List.map_cons, declareParams, hr.name p, List.length_append,
      length_redeclaration scopes (hr.name p)]
    exact ⟨hscopes, congrArg _ herrors⟩

/-- Statements that were resolved alike but for lines, with as many errors. -/
structure AlikeStmt (same : Prop) (r : Relabel) (scopes : Scopes)
    (x x' : Scopes × Resolved (Stmt Binding)) : Prop where
  after : x'.1 = x.1
  tree : Stmt.Like same (List.replicate scopes.length 1) x.2.tree x'.2.tree
  labels : x'.2.tree = x.2.tree.relabel r
  errors : x'.2.errors.length = x.2.errors.length

/-- Several statements that were resolved alike but for lines, with as many errors. -/
structure AlikeStmts (same : Prop) (r : Relabel) (scopes : Scopes)
    (xs xs' : Resolved (List (Stmt Binding))) : Prop where
  tree : Stmt.AllLike same (List.replicate scopes.length 1) xs.tree xs'.tree
  labels : xs'.tree = Stmt.relabelAll r xs.tree
  errors : xs'.errors.length = xs.errors.length

/-- Where no scope has new names, the innermost one has none. -/
theorem headD_replicate (n : Nat) : (List.replicate n (1 : Renaming)).headD 1 = 1 := by
  cases n <;> rfl

private theorem renamed_headD (hr : r.Keeps same) (n : Nat) (t : Token) :
    t.Renamed same ((List.replicate n (1 : Renaming)).headD 1) (r.token t) := by
  rw [headD_replicate]
  exact renamed_token hr t

mutual

/-- Other lines do not change what a statement is bound to. -/
theorem alike_resolveStmt (hr : r.Keeps same) (around : Surroundings) (scopes : Scopes) :
    (s : Stmt Unit) → scopes.AlikeStmt same r (scopes.resolveStmt around s)
      (scopes.resolveStmt around (s.relabel r))
  | .expr e =>
    let he := alike_resolveExpr hr scopes e
    ⟨rfl, .expr he.tree, congrArg Stmt.expr he.labels, he.errors⟩
  | .print t e =>
    let he := alike_resolveExpr hr scopes e
    ⟨rfl, .print t _ he.tree, congrArg (Stmt.print _) he.labels, he.errors⟩
  | .var name none => by
    refine ⟨?_, .declare (renamed_headD hr _ name), rfl, ?_⟩
    · simp only [Stmt.relabel, resolveStmt, hr.name name]
    · simp only [Stmt.relabel, resolveStmt, resolveExpr?, List.length_append,
        length_redeclaration scopes (hr.name name), List.length_nil]
  | .var name (some e) => by
    have he := alike_resolveExpr hr (scopes.record name.lexeme false) e
    have htree := he.tree
    rw [length_record] at htree
    simp only [Stmt.relabel, resolveStmt, resolveExpr?, hr.name name]
    refine ⟨rfl, .init (renamed_headD hr _ name) htree, ?_, ?_⟩
    · simp only [Stmt.relabel, he.labels]
    · simp only [List.length_append, length_redeclaration scopes (hr.name name), he.errors]
  | .block t body =>
    let hbody := alike_resolveStmts hr around ([] :: scopes) body
    ⟨rfl, .block t _ 1 hbody.tree, congrArg (Stmt.block _) hbody.labels, hbody.errors⟩
  | .ifElse t test yes none => by
    have htest := alike_resolveExpr hr scopes test
    have hyes := alike_resolveStmt hr around scopes yes
    refine ⟨hyes.after, .ifOnly t _ htest.tree hyes.tree, ?_, ?_⟩
    · simp only [Stmt.relabel, resolveStmt, htest.labels, hyes.labels]
    · simp only [Stmt.relabel, resolveStmt, List.length_append, htest.errors, hyes.errors]
  | .ifElse t test yes (some no) => by
    have htest := alike_resolveExpr hr scopes test
    have hyes := alike_resolveStmt hr around scopes yes
    have hno := alike_resolveStmt hr around (scopes.resolveStmt around yes).1 no
    have htree := hno.tree
    rw [length_resolveStmt] at htree
    simp only [Stmt.relabel, resolveStmt, hyes.after]
    refine ⟨hno.after, .ifElse t _ htest.tree hyes.tree htree, ?_, ?_⟩
    · simp only [Stmt.relabel, htest.labels, hyes.labels, hno.labels]
    · simp only [List.length_append, htest.errors, hyes.errors, hno.errors]
  | .while t test body => by
    have htest := alike_resolveExpr hr scopes test
    have hbody := alike_resolveStmt hr { around with inLoop := true } scopes body
    refine ⟨hbody.after, .while t _ htest.tree hbody.tree, ?_, ?_⟩
    · simp only [Stmt.relabel, resolveStmt, htest.labels, hbody.labels]
    · simp only [Stmt.relabel, resolveStmt, List.length_append, htest.errors, hbody.errors]
  | .function name params body => by
    obtain ⟨hscopes, herrors⟩ :=
      declareParams_relabel hr ([] :: scopes.record name.lexeme true) params
    have hbody := alike_resolveStmts hr { around with inFunction := true, inLoop := false }
      (declareParams ([] :: scopes.record name.lexeme true) params).1 body
    have htree := hbody.tree
    rw [length_inside, List.replicate_succ] at htree
    simp only [Stmt.relabel, resolveStmt, hr.name name, hscopes]
    refine ⟨rfl, .function 1 (renamed_token hr name) ?_ ?_ htree, ?_, ?_⟩
    · rw [headD_replicate]
      rfl
    · exact List.forall₂_map_right_iff.mpr (List.forall₂_same.mpr fun t _ ↦ renamed_token hr t)
    · simp only [Stmt.relabel, hbody.labels]
    · simp only [List.length_append, length_redeclaration scopes (hr.name name), herrors,
        hbody.errors]
  | .return t none => by
    refine ⟨rfl, .returnNil (renamed_place hr t), rfl, ?_⟩
    simp only [Stmt.relabel, resolveStmt, resolveExpr?, List.length_append]
    split <;> rfl
  | .return t (some e) => by
    have he := alike_resolveExpr hr scopes e
    refine ⟨rfl, .return (renamed_place hr t) he.tree, ?_, ?_⟩
    · simp only [Stmt.relabel, resolveStmt, resolveExpr?, he.labels]
    · simp only [Stmt.relabel, resolveStmt, resolveExpr?, List.length_append, he.errors]
      split <;> rfl
  | .branch t => by
    refine ⟨rfl, .branch (renamed_place hr t), rfl, ?_⟩
    simp only [Stmt.relabel, resolveStmt]
    split <;> rfl

/-- Statements are resolved alike with other lines and names. -/
theorem alike_resolveStmts (hr : r.Keeps same) (around : Surroundings) (scopes : Scopes) :
    (ss : List (Stmt Unit)) → scopes.AlikeStmts same r (scopes.resolveStmts around ss)
      (scopes.resolveStmts around (Stmt.relabelAll r ss))
  | [] => ⟨.nil, rfl, rfl⟩
  | s :: ss => by
    have hs := alike_resolveStmt hr around scopes s
    have hss := alike_resolveStmts hr around (scopes.resolveStmt around s).1 ss
    have htree := hss.tree
    rw [length_resolveStmt] at htree
    simp only [Stmt.relabelAll, resolveStmts, hs.after]
    refine ⟨.cons hs.tree htree, ?_, ?_⟩
    · simp only [Stmt.relabelAll, hs.labels, hss.labels]
    · simp only [List.length_append, hs.errors, hss.errors]

end

end Relabel

end Scopes

namespace Program

/-- At top level programs are resolved one after the other as if each was alone. -/
theorem resolve_append (lenient : Bool) (p q : Program Unit) :
    Program.resolve lenient (p ++ q) =
      ⟨(Program.resolve lenient p).tree ++ (Program.resolve lenient q).tree,
        (Program.resolve lenient p).errors ++ (Program.resolve lenient q).errors⟩ :=
  Scopes.resolveStmts_append (.topLevel lenient) p q

/-- On other lines a program is resolved alike, with as many errors. -/
theorem alike_resolve {same : Prop} {r : Relabel} (hr : r.Keeps same) (lenient : Bool)
    (p : Program Unit) :
    Scopes.AlikeStmts same r [] (Program.resolve lenient p)
      (Program.resolve lenient (Stmt.relabelAll r p)) :=
  Scopes.alike_resolveStmts hr (.topLevel lenient) [] p

end Program

end Lox
