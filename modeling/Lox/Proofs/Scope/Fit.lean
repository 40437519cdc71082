import Lox.Proofs.Machine.Trace
import Lox.Proofs.Syntax.Formed

/-!
# Trees that fit their scopes

A tree with its uses of variables bound fits the scopes around it if each use is bound to where the
scopes have its name, and if its operators are those that the evaluator knows. If it is strict, then
moreover no variable is read that is not ready. What the resolver makes of a formed tree fits, and
it does so strictly if the resolver finds no error.
-/

namespace Lox

namespace Scopes

/-- The scopes behind a statement. -/
def after {β : Type} (scopes : Scopes) : Stmt β → Scopes
  | .var name _ => scopes.record name.lexeme true
  | .function name _ _ => scopes.record name.lexeme true
  | _ => scopes

/-- At top level, nothing is declared in a scope. -/
theorem after_nil {β : Type} (s : Stmt β) : after [] s = [] := by
  cases s <;> rfl

/-- The name is ready where it is found, unless it is global. -/
def Ready (scopes : Scopes) (name : Bytes) : Prop :=
  ∀ d s, scopes.find name = .scope d → scopes[d]? = some s → s.lookup name = some true

/-- All names are ready. -/
def Settled (scopes : Scopes) : Prop := ∀ s ∈ scopes, ∀ entry ∈ s, entry.2 = true

/-- A name is found in the innermost scope that declares it. -/
theorem find_eq_scope {scopes : Scopes} {name : Bytes} {d : Nat}
    (h : scopes.find name = .scope d) : ∃ s, scopes[d]? = some s ∧ s.declares name = true := by
  unfold find at h
  split at h
  · next i hi =>
    cases h
    obtain ⟨hd, hdecl, -⟩ := List.findIdx?_eq_some_iff_getElem.mp hi
    exact ⟨scopes[d], List.getElem?_eq_getElem hd, hdecl⟩
  · cases h

/-- Without scopes, all names are ready. -/
theorem settled_nil : Settled [] := fun _ hs ↦ nomatch hs

/-- A new scope has no names that are not ready. -/
theorem Settled.cons_nil {scopes : Scopes} (h : scopes.Settled) : Settled ([] :: scopes) := by
  intro s hs entry he
  rcases List.mem_cons.mp hs with rfl | hs
  · cases he
  · exact h s hs entry he

/-- A name that is recorded as ready changes nothing. -/
theorem Settled.record {scopes : Scopes} (h : scopes.Settled) (name : Bytes) :
    (scopes.record name true).Settled := by
  cases scopes with
  | nil => exact h
  | cons s rest =>
    intro s' hs' entry he
    rcases List.mem_cons.mp hs' with rfl | hs'
    · rcases List.mem_cons.mp he with rfl | he
      · rfl
      · exact h s List.mem_cons_self entry he
    · exact h s' (List.mem_cons_of_mem _ hs') entry he

private theorem Settled.after {β : Type} {scopes : Scopes} (h : scopes.Settled) (s : Stmt β) :
    (scopes.after s).Settled := by
  cases s with
  | var name init => exact h.record name.lexeme
  | function name params body => exact h.record name.lexeme
  | _ => exact h

private theorem Settled.declareParams {scopes : Scopes} (h : scopes.Settled) (params : List Token) :
    (scopes.declareParams params).1.Settled := by
  induction params generalizing scopes with
  | nil => exact h
  | cons p ps ih => exact ih (h.record p.lexeme)

-- In a scope whose names are ready, a declared name is ready.
private theorem lookup_of_all_ready {s : Scope} {name : Bytes} (hs : ∀ entry ∈ s, entry.2 = true)
    (hd : s.declares name = true) : s.lookup name = some true := by
  obtain ⟨b, hb⟩ := Option.isSome_iff_exists.mp hd
  obtain ⟨l₁, l₂, hl, -⟩ := List.lookup_eq_some_iff.mp hb
  have hb' : b = true := hs (name, b) (by rw [hl]; simp)
  rw [hb, hb']

/-- All names are ready, but for those of the innermost scope. -/
def Opening (scopes : Scopes) : Prop := Settled scopes.tail

private theorem Settled.opening {scopes : Scopes} (h : scopes.Settled) : scopes.Opening :=
  fun s hs ↦ h s (List.mem_of_mem_tail hs)

private theorem Settled.opening_record {scopes : Scopes} (h : scopes.Settled) (name : Bytes)
    (ready : Bool) : (scopes.record name ready).Opening := by
  cases scopes with
  | nil => exact settled_nil
  | cons s rest => exact fun s' hs' ↦ h s' (List.mem_cons_of_mem _ hs')

/-- A name that the resolver does not complain about is ready. -/
theorem Opening.ready {scopes : Scopes} (h : scopes.Opening) {name : Bytes}
    (hu : scopes.isUnready name = false) : scopes.Ready name := by
  intro d s hf hs
  obtain ⟨s', hs', hdecl⟩ := find_eq_scope hf
  rw [hs] at hs'
  cases hs'
  cases scopes with
  | nil => cases hs
  | cons s₀ rest =>
    cases d with
    | zero =>
      cases hs
      obtain ⟨b, hb⟩ := Option.isSome_iff_exists.mp hdecl
      cases b with
      | true => exact hb
      | false => simp [isUnready, hb] at hu
    | succ d => exact lookup_of_all_ready (h s (List.mem_of_getElem? hs)) hdecl

end Scopes

/-! ## Fitting -/

mutual

/-- The uses of variables in an expression are bound to where the scopes have them, and its
operators are known. -/
def Expr.Fit (strict : Prop) (scopes : Scopes) : Expr Binding → Prop
  | .literal _ _ => True
  | .grouping _ x => x.Fit strict scopes
  | .unary op x => op.kind ∈ Kind.unary ∧ x.Fit strict scopes
  | .binary x op y => x.Fit strict scopes ∧ op.kind ∈ Kind.binary ∧ y.Fit strict scopes
  | .logical x _ y => x.Fit strict scopes ∧ y.Fit strict scopes
  | .variable name b => b = scopes.find name.lexeme ∧ (strict → scopes.Ready name.lexeme)
  | .assign name b x => b = scopes.find name.lexeme ∧ x.Fit strict scopes
  | .call c _ args => c.Fit strict scopes ∧ Expr.AllFit strict scopes args

/-- Several expressions fit the scopes. -/
def Expr.AllFit (strict : Prop) (scopes : Scopes) : List (Expr Binding) → Prop
  | [] => True
  | x :: xs => x.Fit strict scopes ∧ Expr.AllFit strict scopes xs

end

mutual

/-- The uses of variables in a statement are bound to where the scopes have them, and its operators
are known. -/
def Stmt.Fit (strict : Prop) (scopes : Scopes) : Stmt Binding → Prop
  | .expr e => e.Fit strict scopes
  | .print _ e => e.Fit strict scopes
  | .var _ none => True
  | .var name (some e) => e.Fit strict (scopes.record name.lexeme false)
  | .block _ body => Stmt.AllFit strict ([] :: scopes) body
  | .ifElse _ test yes none => test.Fit strict scopes ∧ yes.Fit strict scopes
  | .ifElse _ test yes (some no) =>
    test.Fit strict scopes ∧ yes.Fit strict scopes ∧ no.Fit strict scopes
  | .while _ test body => test.Fit strict scopes ∧ body.Fit strict scopes
  | .function name params body =>
    Stmt.AllFit strict (Scopes.declareParams ([] :: scopes.record name.lexeme true) params).1 body
  | .return _ none => True
  | .return _ (some e) => e.Fit strict scopes
  | .branch _ => True

/-- Statements fit the scopes, each those behind the ones before it. -/
def Stmt.AllFit (strict : Prop) (scopes : Scopes) : List (Stmt Binding) → Prop
  | [] => True
  | s :: ss => s.Fit strict scopes ∧ Stmt.AllFit strict (scopes.after s) ss

end

namespace Scopes

variable {strict : Prop}

/-- A statement that is no declaration adds nothing to the scopes. -/
theorem after_of_plain {β : Type} (scopes : Scopes) {s : Stmt β} (h : s.isDeclaration = false) :
    scopes.after s = scopes := by
  cases s with
  | var name init => cases h
  | function name params body => cases h
  | _ => rfl

/-- What a statement declares does not depend on what is known of its uses of variables. -/
theorem after_resolveStmt (around : Surroundings) (scopes scopes' : Scopes) (s : Stmt Unit) :
    scopes'.after (scopes.resolveStmt around s).2.tree = scopes'.after s := by
  cases s with
  | ifElse t test yes no => cases no <;> rfl
  | _ => rfl

mutual

/-- What the resolver makes of a formed expression fits. -/
theorem fit_resolveExpr {scopes : Scopes} (ho : scopes.Opening) :
    (e : Expr Unit) → e.Formed → (strict → (scopes.resolveExpr e).errors = []) →
      (scopes.resolveExpr e).tree.Fit strict scopes
  | .literal _ _, _, _ => trivial
  | .grouping _ x, hf, he => fit_resolveExpr ho x hf he
  | .unary _ x, hf, he => ⟨hf.1, fit_resolveExpr ho x hf.2 he⟩
  | .binary x _ y, hf, he =>
    ⟨fit_resolveExpr ho x hf.1 fun hs ↦ (List.append_eq_nil_iff.mp (he hs)).1, hf.2.1,
      fit_resolveExpr ho y hf.2.2 fun hs ↦ (List.append_eq_nil_iff.mp (he hs)).2⟩
  | .logical x _ y, hf, he =>
    ⟨fit_resolveExpr ho x hf.1 fun hs ↦ (List.append_eq_nil_iff.mp (he hs)).1,
      fit_resolveExpr ho y hf.2 fun hs ↦ (List.append_eq_nil_iff.mp (he hs)).2⟩
  | .variable name _, _, he => by
    refine ⟨rfl, fun hs ↦ ho.ready ?_⟩
    have hnil := he hs
    cases hu : scopes.isUnready name.lexeme with
    | false => rfl
    | true => simp [resolveExpr, hu] at hnil
  | .assign _ _ x, hf, he => ⟨rfl, fit_resolveExpr ho x hf he⟩
  | .call c _ args, hf, he =>
    ⟨fit_resolveExpr ho c hf.1 fun hs ↦ (List.append_eq_nil_iff.mp (he hs)).1,
      fit_resolveExprs ho args hf.2 fun hs ↦ (List.append_eq_nil_iff.mp (he hs)).2⟩

private theorem fit_resolveExprs {scopes : Scopes} (ho : scopes.Opening) :
    (es : List (Expr Unit)) → Expr.AllFormed es →
      (strict → (scopes.resolveExprs es).errors = []) →
      Expr.AllFit strict scopes (scopes.resolveExprs es).tree
  | [], _, _ => trivial
  | x :: xs, hf, he =>
    ⟨fit_resolveExpr ho x hf.1 fun hs ↦ (List.append_eq_nil_iff.mp (he hs)).1,
      fit_resolveExprs ho xs hf.2 fun hs ↦ (List.append_eq_nil_iff.mp (he hs)).2⟩

end

/-- A statement that is no declaration leaves the scopes as they are, and the others leave what
they declare in them. -/
theorem resolveStmt_fst (around : Surroundings) (scopes : Scopes) :
    (s : Stmt Unit) → s.Formed → (scopes.resolveStmt around s).1 = scopes.after s
  | .expr _, _ => rfl
  | .print _ _, _ => rfl
  | .var _ _, _ => rfl
  | .block _ _, _ => rfl
  | .ifElse _ _ yes none, hf => by
    have hyes := resolveStmt_fst around scopes yes hf.2.1
    rw [after_of_plain scopes hf.2.2] at hyes
    exact hyes
  | .ifElse _ _ yes (some no), hf => by
    have hyes := resolveStmt_fst around scopes yes hf.2.1.1
    rw [after_of_plain scopes hf.2.1.2] at hyes
    have hno := resolveStmt_fst around scopes no hf.2.2.1
    rw [after_of_plain scopes hf.2.2.2] at hno
    change ((scopes.resolveStmt around yes).1.resolveStmt around no).1 = scopes
    rw [hyes, hno]
  | .while _ _ body, hf => by
    have hbody := resolveStmt_fst { around with inLoop := true } scopes body hf.2.1
    rw [after_of_plain scopes hf.2.2] at hbody
    exact hbody
  | .function _ _ _, _ => rfl
  | .return _ _, _ => rfl
  | .branch _, _ => rfl

/-- The resolver, too, adds nothing to the scopes for a statement that is no declaration. -/
theorem resolveStmt_fst_of_plain (around : Surroundings) (scopes : Scopes) {s : Stmt Unit}
    (hf : s.Formed) (hplain : s.isDeclaration = false) :
    (scopes.resolveStmt around s).1 = scopes := by
  rw [resolveStmt_fst around scopes s hf, after_of_plain scopes hplain]

mutual

/-- What the resolver makes of a formed statement fits. -/
theorem fit_resolveStmt {scopes : Scopes} (hset : scopes.Settled) (around : Surroundings) :
    (s : Stmt Unit) → s.Formed → (strict → (scopes.resolveStmt around s).2.errors = []) →
      (scopes.resolveStmt around s).2.tree.Fit strict scopes
  | .expr e, hf, he => fit_resolveExpr hset.opening e hf he
  | .print _ e, hf, he => fit_resolveExpr hset.opening e hf he
  | .var _ none, _, _ => trivial
  | .var name (some e), hf, he =>
    fit_resolveExpr (hset.opening_record name.lexeme false) e hf fun hs ↦
      (List.append_eq_nil_iff.mp (he hs)).2
  | .block _ body, hf, he => fit_resolveStmts hset.cons_nil around body hf he
  | .ifElse _ test yes none, hf, he =>
    ⟨fit_resolveExpr hset.opening test hf.1 fun hs ↦ (List.append_eq_nil_iff.mp (he hs)).1,
      fit_resolveStmt hset around yes hf.2.1 fun hs ↦ (List.append_eq_nil_iff.mp (he hs)).2⟩
  | .ifElse t test yes (some no), hf, he => by
    -- the second branch is resolved in the scopes behind the first, which are the same
    have hscopes := resolveStmt_fst_of_plain around scopes hf.2.1.1 hf.2.1.2
    have herrors : strict → (scopes.resolveExpr test).errors = [] ∧
        (scopes.resolveStmt around yes).2.errors = [] ∧
        ((scopes.resolveStmt around yes).1.resolveStmt around no).2.errors = [] := by
      intro hs
      have h := List.append_eq_nil_iff.mp (he hs)
      exact ⟨h.1, List.append_eq_nil_iff.mp h.2⟩
    rw [hscopes] at herrors
    refine ⟨fit_resolveExpr hset.opening test hf.1 fun hs ↦ (herrors hs).1,
      fit_resolveStmt hset around yes hf.2.1.1 fun hs ↦ (herrors hs).2.1, ?_⟩
    rw [hscopes]
    exact fit_resolveStmt hset around no hf.2.2.1 fun hs ↦ (herrors hs).2.2
  | .while _ test body, hf, he =>
    ⟨fit_resolveExpr hset.opening test hf.1 fun hs ↦ (List.append_eq_nil_iff.mp (he hs)).1,
      fit_resolveStmt hset _ body hf.2.1 fun hs ↦ (List.append_eq_nil_iff.mp (he hs)).2⟩
  | .function name params body, hf, he =>
    fit_resolveStmts ((hset.record name.lexeme).cons_nil.declareParams params) _ body hf fun hs ↦
      (List.append_eq_nil_iff.mp (List.append_eq_nil_iff.mp (he hs)).2).2
  | .return _ none, _, _ => trivial
  | .return _ (some e), hf, he =>
    fit_resolveExpr hset.opening e hf fun hs ↦ (List.append_eq_nil_iff.mp (he hs)).2
  | .branch _, _, _ => trivial

private theorem fit_resolveStmts {scopes : Scopes} (hset : scopes.Settled) (around : Surroundings) :
    (ss : List (Stmt Unit)) → Stmt.AllFormed ss →
      (strict → (scopes.resolveStmts around ss).errors = []) →
      Stmt.AllFit strict scopes (scopes.resolveStmts around ss).tree
  | [], _, _ => trivial
  | s :: ss, hf, he => by
    have hscopes := resolveStmt_fst around scopes s hf.1
    have herrors : strict → (scopes.resolveStmt around s).2.errors = [] ∧
        ((scopes.resolveStmt around s).1.resolveStmts around ss).errors = [] :=
      fun hs ↦ List.append_eq_nil_iff.mp (he hs)
    refine ⟨fit_resolveStmt hset around s hf.1 fun hs ↦ (herrors hs).1, ?_⟩
    rw [hscopes] at herrors
    rw [hscopes, after_resolveStmt]
    exact fit_resolveStmts (hset.after s) around ss hf.2 fun hs ↦ (herrors hs).2

end

end Scopes

/-- What the resolver makes of a formed program fits, strictly if there are no errors. -/
theorem Program.fit_resolve {strict : Prop} {lenient : Bool} {p : Program Unit}
    (hf : Stmt.AllFormed p) (he : strict → (p.resolve lenient).errors = []) :
    Stmt.AllFit strict [] (p.resolve lenient).tree :=
  Scopes.fit_resolveStmts Scopes.settled_nil _ p hf he

/-- What the resolver makes of a formed expression at top level fits. -/
theorem Expr.fit_resolve {strict : Prop} {e : Expr Unit} (hf : e.Formed)
    (he : strict → e.resolve.errors = []) : e.resolve.tree.Fit strict [] :=
  Scopes.fit_resolveExpr Scopes.settled_nil.opening e hf he

/-! ## Contexts have the scopes of the resolver -/

namespace Context

/-- A name is recorded in the scopes of a context. -/
theorem scopes_record (c : Context) (name : Bytes) (ready : Bool) :
    (c.record name ready).scopes = c.scopes.record name ready := by
  cases c <;> rfl

/-- Behind a statement, a context has the scopes that are behind it. -/
theorem scopes_after (c : Context) (s : Stmt Binding) :
    (c.after s).scopes = c.scopes.after s := by
  cases s with
  | var name init => exact scopes_record c name.lexeme true
  | function name params body => exact scopes_record c name.lexeme true
  | _ => rfl

/-- A statement that is no declaration adds nothing to a context. -/
theorem after_of_plain (c : Context) {s : Stmt Binding} (h : s.isDeclaration = false) :
    c.after s = c := by
  cases s with
  | var name init => cases h
  | function name params body => cases h
  | _ => rfl

/-- Parameters are recorded in the scopes of a context. -/
theorem scopes_recordParams (c : Context) (params : List Token) :
    (c.recordParams params).scopes = (c.scopes.declareParams params).1 := by
  induction params generalizing c with
  | nil => rfl
  | cons p ps ih =>
    rw [recordParams, ih, scopes_record]
    rfl

end Context
end Lox
