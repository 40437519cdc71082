import Lox.Proofs.Scope.Fit
import Lox.Proofs.Scope.Rename
import Lox.Proofs.Scope.Sequence

/-!
# Fresh names for local variables

A local variable or a parameter of a program without static errors can be given any name that does
not occur in the program. Resolving the renamed program binds each use to the scope that it was
bound to, and finds no error either (`Program.resolve_renames`).
-/

namespace Lox

section Names

variable {x z name : Bytes}

private theorem newName_false (x z name : Bytes) : newName false x z name = name := rfl

private theorem newName_of_ne (affected : Bool) (z : Bytes) (h : name ≠ x) :
    newName affected x z name = name := by
  simp [newName, h]

/-- The new names, as a renaming: the two names change places. -/
theorem newName_eq (h : name ≠ z) (affected : Bool) :
    newName affected x z name = (if affected then Equiv.swap x z else 1 : Renaming) name := by
  by_cases hx : name = x
  · subst hx
    cases affected <;> simp [newName]
  · rw [newName_of_ne affected z hx]
    cases affected with
    | true => exact (Equiv.swap_apply_of_ne_of_ne hx h).symm
    | false => rfl

/-- Different names stay different, if none of them is the new one. -/
theorem newName_inj {name' : Bytes} (h : name ≠ z) (h' : name' ≠ z)
    (heq : newName true x z name = newName true x z name') : name = name' := by
  rw [newName_eq h, newName_eq h'] at heq
  exact (Equiv.injective _) heq

end Names

/-- The name that a statement declares, if it does. -/
def Stmt.declared? {β : Type} : Stmt β → Option Bytes
  | .var name _ => some name.lexeme
  | .function name _ _ => some name.lexeme
  | _ => none

/-- The name of the function that a statement declares, if it does. -/
def Stmt.function? {β : Type} : Stmt β → Option Bytes
  | .function name _ _ => some name.lexeme
  | _ => none

private theorem Stmt.function?_of_plain {β : Type} {s : Stmt β} (h : s.isDeclaration = false) :
    s.function? = none := by
  cases s with
  | function name params body => cases h
  | _ => rfl

/-! ## Scopes with a name renamed -/

/-- A scope in which the name `x` is `z`. -/
def Scope.rename (x z : Bytes) (s : Scope) : Scope := s.map fun e ↦ (newName true x z e.1, e.2)

namespace Scope

variable {x z name : Bytes} {s : Scope}

private theorem declares_cons (name n : Bytes) (b : Bool) (s : Scope) :
    Scope.declares ((n, b) :: s) name = (name == n || s.declares name) := by
  simp only [declares, List.lookup_cons]
  cases name == n <;> rfl

private theorem rename_of_declares (h : s.declares x = false) (z : Bytes) : s.rename x z = s := by
  induction s with
  | nil => rfl
  | cons e s ih =>
    rw [declares_cons, Bool.or_eq_false_iff, beq_eq_false_iff_ne] at h
    have he : newName true x z e.1 = e.1 := newName_of_ne true z (Ne.symm h.1)
    rw [rename, List.map_cons, he, ← rename, ih h.2]

/-- A name is found in a scope by its new name. -/
theorem lookup_rename (hz : s.declares z = false) (hn : name ≠ z) :
    (s.rename x z).lookup (newName true x z name) = s.lookup name := by
  induction s with
  | nil => rfl
  | cons e s ih =>
    rw [declares_cons, Bool.or_eq_false_iff, beq_eq_false_iff_ne] at hz
    rw [rename, List.map_cons, ← rename, List.lookup_cons, List.lookup_cons, ih hz.2]
    by_cases he : name = e.1
    · subst he
      simp
    · have hne : newName true x z name ≠ newName true x z e.1 :=
        fun h ↦ he (newName_inj hn (Ne.symm hz.1) h)
      simp [beq_eq_false_iff_ne.mpr he, beq_eq_false_iff_ne.mpr hne]

private theorem declares_rename (hz : s.declares z = false) (hn : name ≠ z) :
    (s.rename x z).declares (newName true x z name) = s.declares name := by
  rw [declares, lookup_rename hz hn, ← declares]

private theorem lookup_eq_none (h : s.declares name = false) : s.lookup name = none :=
  Option.isSome_eq_false_iff.mp h |> Option.isNone_iff_eq_none.mp

/-- A name that a scope does not have is none of its new names either. -/
theorem lookup_rename_eq_none (hz : s.declares z = false) (hn : name ≠ z)
    (h : s.declares name = false) : (s.rename x z).lookup name = none := by
  by_cases hx : name = x
  · subst hx
    rw [rename_of_declares h, lookup_eq_none h]
  · have hlookup := lookup_rename (x := x) hz hn
    rw [newName_of_ne true z hx, lookup_eq_none h] at hlookup
    exact hlookup

private theorem lookup_newName (hz : s.declares z = false) (h : s.declares name = false)
    (affected : Bool) : s.lookup (newName affected x z name) = none := by
  unfold newName
  split
  · exact lookup_eq_none hz
  · exact lookup_eq_none h

end Scope

/-- The same scope, from one scope further in. -/
def Binding.further : Binding → Binding
  | .scope d => .scope (d + 1)
  | .global => .global

/-- Seen from one scope further in, no variable is one of the innermost scope. -/
@[simp] theorem Binding.further_ne_zero (b : Binding) : b.further ≠ .scope 0 := by
  cases b <;> nofun

/-- Seen from one scope further in, a scope is one more scope out. -/
@[simp] theorem Binding.further_eq_succ (b : Binding) (d : Nat) :
    b.further = .scope (d + 1) ↔ b = .scope d := by
  cases b <;> simp [further]

namespace Scopes

/-- Scopes in which the name `x` of the scope `d` scopes out is `z`. -/
def renameAt (x z : Bytes) (d : Nat) (scopes : Scopes) : Scopes :=
  scopes.modify d (Scope.rename x z)

/-- No scope has the name. -/
def Lacks (z : Bytes) (scopes : Scopes) : Prop := ∀ s ∈ scopes, s.declares z = false

variable {x z name : Bytes} {scopes : Scopes} {d : Nat}

private theorem renameAt_zero (x z : Bytes) (s : Scope) (rest : Scopes) :
    Scopes.renameAt x z 0 (s :: rest) = s.rename x z :: rest := rfl

private theorem renameAt_succ (x z : Bytes) (d : Nat) (s : Scope) (rest : Scopes) :
    Scopes.renameAt x z (d + 1) (s :: rest) = s :: rest.renameAt x z d := rfl

private theorem lacks_nil (z : Bytes) : Lacks z [] := List.forall_mem_nil _

private theorem Lacks.cons_nil (h : scopes.Lacks z) : Lacks z ([] :: scopes) :=
  List.forall_mem_cons.mpr ⟨rfl, h⟩

private theorem Lacks.record (h : scopes.Lacks z) (hn : name ≠ z) (ready : Bool) :
    (scopes.record name ready).Lacks z := by
  cases scopes with
  | nil => exact h
  | cons s rest =>
    obtain ⟨hs, hrest⟩ := List.forall_mem_cons.mp h
    refine List.forall_mem_cons.mpr ⟨?_, hrest⟩
    rw [Scope.declares_cons, hs, Bool.or_false, beq_eq_false_iff_ne]
    exact Ne.symm hn

private theorem Lacks.declareParams (h : scopes.Lacks z) {params : List Token}
    (hps : ∀ p ∈ params, p.lexeme ≠ z) : (scopes.declareParams params).1.Lacks z := by
  induction params generalizing scopes with
  | nil => exact h
  | cons p ps ih =>
    obtain ⟨hp, hps⟩ := List.forall_mem_cons.mp hps
    exact ih (h.record hp true) hps

private theorem Lacks.after (h : scopes.Lacks z) {s : Stmt Unit}
    (hs : ∀ t ∈ s.names, t.lexeme ≠ z) : (scopes.after s).Lacks z := by
  cases s with
  | var name init =>
    refine h.record (hs name ?_) true
    cases init <;> exact List.mem_cons_self
  | function name params body => exact h.record (hs name List.mem_cons_self) true
  | _ => exact h

-- Where a name is found from one scope further in.
private theorem find_cons (s : Scope) (rest : Scopes) (name : Bytes) :
    find (s :: rest) name = if s.declares name then .scope 0 else (find rest name).further := by
  unfold find
  rw [List.findIdx?_cons]
  by_cases hs : s.declares name
  · simp [hs]
  · simp only [hs, Bool.false_eq_true, if_false]
    cases rest.findIdx? (·.declares name) <;> rfl

/-- Each name is found where it was, if a name that is found in the renamed scope is looked for by
its new name. -/
theorem find_renameAt (hz : scopes.Lacks z) (hn : name ≠ z) :
    (scopes.renameAt x z d).find (newName (scopes.find name = .scope d) x z name) =
      scopes.find name := by
  induction scopes generalizing d with
  | nil =>
    rw [renameAt, List.modify_nil]
    rfl
  | cons s rest ih =>
    obtain ⟨hs, hrest⟩ := List.forall_mem_cons.mp hz
    by_cases hd : s.declares name
    · cases d with
      | zero => simp [renameAt_zero, find_cons, hd, Scope.declares_rename hs hn]
      | succ d => simp [renameAt_succ, find_cons, hd, newName_false]
    · rw [Bool.not_eq_true] at hd
      cases d with
      | zero =>
        have hnone : (s.rename x z).declares name = false := by
          rw [Scope.declares, Scope.lookup_rename_eq_none hs hn hd]
          rfl
        simp [renameAt_zero, find_cons, hd, newName_false, hnone]
      | succ d =>
        have hnone : s.declares (newName (find rest name = .scope d) x z name) = false := by
          rw [Scope.declares, Scope.lookup_newName hs hd]
          rfl
        simp [renameAt_succ, find_cons, hd, hnone, ih hrest]

/-- A name is ready for use by its new name if it was. -/
theorem isUnready_renameAt (hz : scopes.Lacks z) (hn : name ≠ z) :
    (scopes.renameAt x z d).isUnready (newName (scopes.find name = .scope d) x z name) =
      scopes.isUnready name := by
  cases scopes with
  | nil =>
    rw [renameAt, List.modify_nil]
    rfl
  | cons s rest =>
    have hs := (List.forall_mem_cons.mp hz).1
    by_cases hd : s.declares name
    · cases d with
      | zero => simp [renameAt_zero, find_cons, isUnready, hd, Scope.lookup_rename hs hn]
      | succ d => simp [renameAt_succ, find_cons, isUnready, hd, newName_false]
    · rw [Bool.not_eq_true] at hd
      cases d with
      | zero =>
        simp [renameAt_zero, find_cons, isUnready, hd, newName_false, Scope.lookup_eq_none hd,
          Scope.lookup_rename_eq_none hs hn hd]
      | succ d =>
        simp [renameAt_succ, find_cons, isUnready, hd, Scope.lookup_eq_none hd,
          Scope.lookup_newName hs hd]

private theorem record_renameAt (x z : Bytes) (d : Nat) (scopes : Scopes) (name : Bytes)
    (ready : Bool) :
    (scopes.renameAt x z d).record (newName (d = 0) x z name) ready =
      (scopes.record name ready).renameAt x z d := by
  cases scopes with
  | nil =>
    rw [renameAt, List.modify_nil]
    exact (List.modify_nil ..).symm
  | cons s rest => cases d <;> rfl

/-- What is not declared twice is not by its new name. -/
theorem redeclaration_renameAt (hz : scopes.Lacks z) {t : Token} (ht : t.lexeme ≠ z)
    (h : scopes.redeclaration t = []) :
    (scopes.renameAt x z d).redeclaration (t.rename (d = 0) x z) = [] := by
  cases scopes with
  | nil =>
    rw [renameAt, List.modify_nil]
    rfl
  | cons s rest =>
    have hs := (List.forall_mem_cons.mp hz).1
    have hnone : s.declares t.lexeme = false := by
      cases hd : s.declares t.lexeme with
      | false => rfl
      | true => simp [redeclaration, hd] at h
    cases d with
    | zero =>
      simp [renameAt_zero, redeclaration, Scope.declares_rename hs ht, hnone]
    | succ d =>
      simp [renameAt_succ, redeclaration, newName_false, hnone]

private theorem declareParams_renameAt (hz : scopes.Lacks z) {params : List Token}
    (hps : ∀ p ∈ params, p.lexeme ≠ z) (h : (scopes.declareParams params).2 = []) :
    (scopes.renameAt x z d).declareParams (params.map (Token.rename (d = 0) x z)) =
      ((scopes.declareParams params).1.renameAt x z d, []) := by
  induction params generalizing scopes with
  | nil => rfl
  | cons p ps ih =>
    obtain ⟨hp, hps⟩ := List.forall_mem_cons.mp hps
    obtain ⟨hredeclaration, hmore⟩ := List.append_eq_nil_iff.mp h
    have hrest := ih (hz.record hp true) hps hmore
    have hname : (p.rename (d = 0) x z).lexeme = newName (d = 0) x z p.lexeme := rfl
    rw [List.map_cons, declareParams, hname, record_renameAt, hrest,
      redeclaration_renameAt hz hp hredeclaration]
    rfl

/-! ## Resolving what was renamed -/

/-- The new names in each of `n` scopes, if `x` is called `z` in the scope `d` scopes out. -/
def renamings (x z : Bytes) (d n : Nat) : List Renaming :=
  (List.replicate n 1).set d (Equiv.swap x z)

private theorem renamings_zero (x z : Bytes) (n : Nat) :
    renamings x z 0 (n + 1) = Equiv.swap x z :: List.replicate n 1 := rfl

private theorem renamings_succ (x z : Bytes) (d n : Nat) :
    renamings x z (d + 1) (n + 1) = 1 :: renamings x z d n := rfl

private theorem renamed_rename {t : Token} (ht : t.lexeme ≠ z) (affected : Bool) :
    t.Renamed True (if affected then Equiv.swap x z else 1) (t.rename affected x z) :=
  ⟨⟨rfl, fun _ ↦ rfl⟩, newName_eq ht affected⟩

/-- A use has the new name that the scope gives it to which it is bound. -/
theorem renaming?_renamings (x z : Bytes) (d : Nat) (scopes : Scopes) (name : Bytes) :
    (scopes.find name).renaming? (renamings x z d scopes.length) =
      some (if decide (scopes.find name = .scope d) then Equiv.swap x z else 1) := by
  cases hf : scopes.find name with
  | global => rfl
  | scope e =>
    obtain ⟨s, hs, -⟩ := find_eq_scope hf
    have he : e < scopes.length := (List.getElem?_eq_some_iff.mp hs).1
    rw [Binding.renaming?, renamings, List.getElem?_set]
    by_cases hde : d = e
    · subst hde
      simp [he]
    · simp [hde, he, Ne.symm hde]

/-- A declaration has the new name that the innermost scope gives it. -/
theorem headD_renamings (x z : Bytes) {d n : Nat} (hd : d < n) :
    (renamings x z d n).headD 1 = if decide (d = 0) then Equiv.swap x z else 1 := by
  cases n with
  | zero => cases hd
  | succ n => cases d <;> rfl

/-- Resolving the expression with `x` called `z` gives it again, without errors, and it is like the
one that was resolved before. -/
structure RenamedExpr (x z : Bytes) (d : Nat) (scopes : Scopes) (e : Expr Binding) : Prop where
  resolve : (scopes.renameAt x z d).resolveExpr (e.renameAt x z d).unbound = ⟨e.renameAt x z d, []⟩
  like : Expr.Like True (renamings x z d scopes.length) e (e.renameAt x z d)

/-- Resolving the expressions with `x` called `z` gives them again, without errors, and they are
like those that were resolved before. -/
structure RenamedExprs (x z : Bytes) (d : Nat) (scopes : Scopes) (es : List (Expr Binding)) :
    Prop where
  resolve : (scopes.renameAt x z d).resolveExprs (Expr.unboundAll (Expr.renameAllAt x z d es)) =
    ⟨Expr.renameAllAt x z d es, []⟩
  like : Expr.AllLike True (renamings x z d scopes.length) es (Expr.renameAllAt x z d es)

mutual

private theorem renamed_resolveExpr (hz : scopes.Lacks z) :
    (e : Expr Unit) → (∀ t ∈ e.names, t.lexeme ≠ z) → (scopes.resolveExpr e).errors = [] →
      RenamedExpr x z d scopes (scopes.resolveExpr e).tree
  | .literal t v, _, _ => ⟨rfl, .literal t t v⟩
  | .grouping t e, hn, he => by
    have h := renamed_resolveExpr hz e hn he
    refine ⟨?_, .grouping t t h.like⟩
    simp only [resolveExpr, Expr.renameAt, Expr.unbound, Expr.mapUses, h.resolve]
  | .unary t e, hn, he => by
    have h := renamed_resolveExpr hz e hn he
    refine ⟨?_, .unary (.refl t) h.like⟩
    simp only [resolveExpr, Expr.renameAt, Expr.unbound, Expr.mapUses, h.resolve]
  | .binary e t e', hn, he => by
    obtain ⟨hn, hn'⟩ := List.forall_mem_append.mp hn
    obtain ⟨he, he'⟩ := List.append_eq_nil_iff.mp he
    have h := renamed_resolveExpr hz e hn he
    have h' := renamed_resolveExpr hz e' hn' he'
    refine ⟨?_, .binary h.like (.refl t) h'.like⟩
    simp only [resolveExpr, Expr.renameAt, Expr.unbound, Expr.mapUses, h.resolve, h'.resolve,
      List.append_nil]
  | .logical e t e', hn, he => by
    obtain ⟨hn, hn'⟩ := List.forall_mem_append.mp hn
    obtain ⟨he, he'⟩ := List.append_eq_nil_iff.mp he
    have h := renamed_resolveExpr hz e hn he
    have h' := renamed_resolveExpr hz e' hn' he'
    refine ⟨?_, .logical h.like (.refl t) h'.like⟩
    simp only [resolveExpr, Expr.renameAt, Expr.unbound, Expr.mapUses, h.resolve, h'.resolve,
      List.append_nil]
  | .variable name _, hn, he => by
    have hname := hn name (List.mem_singleton_self name)
    refine ⟨?_, .variable (renaming?_renamings x z d scopes name.lexeme) (renamed_rename hname _)⟩
    have hready : scopes.isUnready name.lexeme = false := by
      cases hu : scopes.isUnready name.lexeme with
      | false => rfl
      | true => simp [resolveExpr, hu] at he
    simp only [resolveExpr, Expr.renameAt, Expr.unbound, Expr.mapUses, Token.rename,
      find_renameAt hz hname, isUnready_renameAt hz hname, hready, Bool.false_eq_true, if_false]
  | .assign name _ e, hn, he => by
    obtain ⟨hname, hn⟩ := List.forall_mem_cons.mp hn
    have h := renamed_resolveExpr hz e hn he
    refine ⟨?_, .assign (renaming?_renamings x z d scopes name.lexeme) (renamed_rename hname _)
      h.like⟩
    simp only [resolveExpr, Expr.renameAt, Expr.unbound, Expr.mapUses, Token.rename,
      find_renameAt hz hname, h.resolve]
  | .call c t args, hn, he => by
    obtain ⟨hn, hn'⟩ := List.forall_mem_append.mp hn
    obtain ⟨he, he'⟩ := List.append_eq_nil_iff.mp he
    have hc := renamed_resolveExpr hz c hn he
    have hargs := renamed_resolveExprs hz args hn' he'
    refine ⟨?_, .call hc.like (.refl t) hargs.like⟩
    simp only [resolveExpr, Expr.renameAt, Expr.unbound, Expr.mapUses, hc.resolve, hargs.resolve,
      List.append_nil]

private theorem renamed_resolveExprs (hz : scopes.Lacks z) :
    (es : List (Expr Unit)) → (∀ t ∈ Expr.namesAll es, t.lexeme ≠ z) →
      (scopes.resolveExprs es).errors = [] →
      RenamedExprs x z d scopes (scopes.resolveExprs es).tree
  | [], _, _ => ⟨rfl, .nil⟩
  | e :: es, hn, he => by
    obtain ⟨hn, hn'⟩ := List.forall_mem_append.mp hn
    obtain ⟨he, he'⟩ := List.append_eq_nil_iff.mp he
    have h := renamed_resolveExpr hz e hn he
    have h' := renamed_resolveExprs hz es hn' he'
    refine ⟨?_, .cons h.like h'.like⟩
    simp only [resolveExprs, Expr.renameAllAt, Expr.unboundAll, Expr.mapUsesList, h.resolve,
      h'.resolve, List.append_nil]

end

/-- Resolving the statement with `x` called `z` gives it again, without errors, and it is like the
one that was resolved before. -/
structure RenamedStmt (x z : Bytes) (d : Nat) (around : Surroundings) (scopes : Scopes)
    (s : Stmt Binding) : Prop where
  resolve : (scopes.renameAt x z d).resolveStmt around (s.renameAt x z d).unbound =
    ((scopes.after s).renameAt x z d, ⟨s.renameAt x z d, []⟩)
  like : Stmt.Like True (renamings x z d scopes.length) s (s.renameAt x z d)

/-- Resolving the statements with `x` called `z` gives them again, without errors, and they are like
those that were resolved before. -/
structure RenamedStmts (x z : Bytes) (d : Nat) (around : Surroundings) (scopes : Scopes)
    (ss : List (Stmt Binding)) : Prop where
  resolve :
    (scopes.renameAt x z d).resolveStmts around (Stmt.unboundAll (Stmt.renameAllAt x z d ss)) =
      ⟨Stmt.renameAllAt x z d ss, []⟩
  like : Stmt.AllLike True (renamings x z d scopes.length) ss (Stmt.renameAllAt x z d ss)

-- A statement that declares nothing leaves the scopes as they are.
private theorem RenamedStmt.resolve_plain {around : Surroundings} {s : Stmt Unit}
    (h : RenamedStmt x z d around scopes (scopes.resolveStmt around s).2.tree)
    (hplain : s.isDeclaration = false) :
    (scopes.renameAt x z d).resolveStmt around
        ((scopes.resolveStmt around s).2.tree.renameAt x z d).unbound =
      (scopes.renameAt x z d, ⟨(scopes.resolveStmt around s).2.tree.renameAt x z d, []⟩) := by
  have hagain := h.resolve
  rwa [after_resolveStmt, after_of_plain scopes hplain] at hagain

private theorem renamed_innermost (hd : d < scopes.length) {t : Token} (ht : t.lexeme ≠ z) :
    t.Renamed True ((renamings x z d scopes.length).headD 1) (t.rename (d = 0) x z) := by
  rw [headD_renamings x z hd]
  exact renamed_rename ht _

-- The parameters of a function keep their names where a variable around it is renamed.
private theorem declareParams_around (hz : scopes.Lacks z) {params : List Token}
    (hps : ∀ p ∈ params, p.lexeme ≠ z) (h : (declareParams ([] :: scopes) params).2 = []) :
    declareParams ([] :: scopes.renameAt x z d) params =
      ((declareParams ([] :: scopes) params).1.renameAt x z (d + 1), []) := by
  have hagain := declareParams_renameAt (x := x) (d := d + 1) hz.cons_nil hps h
  rwa [decide_eq_false (Nat.succ_ne_zero d), Token.map_rename_false] at hagain

-- A function whose name is kept is renamed as its body is.
private theorem renamed_function {around : Surroundings} {name : Token} {params : List Token}
    {body : List (Stmt Binding)} (hz : scopes.Lacks z) (hd : d < scopes.length)
    (hname : name.lexeme ≠ z) (hparams : ∀ p ∈ params, p.lexeme ≠ z)
    (hkept : newName (d = 0) x z name.lexeme = name.lexeme)
    (hredeclaration : scopes.redeclaration name = [])
    (heparams : (declareParams ([] :: scopes.record name.lexeme true) params).2 = [])
    (h : RenamedStmts x z (d + 1) { around with inFunction := true, inLoop := false }
      (declareParams ([] :: scopes.record name.lexeme true) params).1 body) :
    RenamedStmt x z d around scopes (.function name params body) := by
  have houter : (scopes.renameAt x z d).record name.lexeme true =
      (scopes.record name.lexeme true).renameAt x z d := by
    rw [← record_renameAt, hkept]
  have hagain := redeclaration_renameAt (x := x) (d := d) hz hname hredeclaration
  rw [Token.rename, hkept] at hagain
  have hinner := declareParams_around (x := x) (d := d) (hz.record hname true) hparams heparams
  have hlike := h.like
  rw [length_inside, renamings_succ] at hlike
  refine ⟨?_, .function 1 (.refl name) ?_ (List.forall₂_same.mpr fun p _ ↦ .refl p) hlike⟩
  · simp only [resolveStmt, Stmt.renameAt, Stmt.unbound, Stmt.mapUses, houter, hagain, hinner,
      h.resolve, List.append_nil]
    rfl
  · rw [headD_renamings x z hd, ← newName_eq hname, hkept]

mutual

private theorem renamed_resolveStmt {scopes : Scopes} {d : Nat} (around : Surroundings)
    (hz : scopes.Lacks z) (hd : d < scopes.length) :
    (s : Stmt Unit) → s.Formed → (∀ t ∈ s.names, t.lexeme ≠ z) → (d = 0 → s.function? ≠ some x) →
      (scopes.resolveStmt around s).2.errors = [] →
      RenamedStmt x z d around scopes (scopes.resolveStmt around s).2.tree
  | .expr e, _, hn, _, he => by
    have h := renamed_resolveExpr (x := x) (d := d) hz e hn he
    refine ⟨?_, .expr h.like⟩
    simp only [resolveStmt, Stmt.renameAt, Stmt.unbound, Stmt.mapUses, h.resolve]
    rfl
  | .print t e, _, hn, _, he => by
    have h := renamed_resolveExpr (x := x) (d := d) hz e hn he
    refine ⟨?_, .print t t h.like⟩
    simp only [resolveStmt, Stmt.renameAt, Stmt.unbound, Stmt.mapUses, h.resolve]
    rfl
  | .var name none, _, hn, _, he => by
    have hname := hn name (List.mem_singleton_self name)
    refine ⟨?_, .declare (renamed_innermost hd hname)⟩
    have hredeclaration := redeclaration_renameAt (x := x) (d := d) hz hname
      (List.append_eq_nil_iff.mp he).1
    simp only [resolveStmt, resolveExpr?, Stmt.renameAt, Stmt.unbound, Stmt.mapUses,
      Token.lexeme_rename, record_renameAt, hredeclaration, List.append_nil]
    rfl
  | .var name (some e), _, hn, _, he => by
    obtain ⟨hname, hn⟩ := List.forall_mem_cons.mp hn
    obtain ⟨hredeclaration, he⟩ := List.append_eq_nil_iff.mp he
    have h := renamed_resolveExpr (x := x) (d := d) (hz.record hname false) e hn he
    have hlike := h.like
    rw [length_record] at hlike
    refine ⟨?_, .init (renamed_innermost hd hname) hlike⟩
    simp only [resolveStmt, resolveExpr?, Stmt.renameAt, Stmt.unbound, Stmt.mapUses,
      Token.lexeme_rename, record_renameAt, redeclaration_renameAt hz hname hredeclaration,
      h.resolve, List.append_nil]
    rfl
  | .block t body, hf, hn, _, he => by
    have h := renamed_resolveStmts (d := d + 1) around hz.cons_nil (Nat.succ_lt_succ hd) body hf hn
      (fun h ↦ nomatch h) he
    refine ⟨?_, .block t t 1 h.like⟩
    have hagain := h.resolve
    rw [renameAt_succ] at hagain
    simp only [resolveStmt, Stmt.renameAt, Stmt.unbound, Stmt.mapUses, hagain]
    rfl
  | .ifElse t test yes none, hf, hn, _, he => by
    obtain ⟨hn, hn'⟩ := List.forall_mem_append.mp hn
    obtain ⟨he, he'⟩ := List.append_eq_nil_iff.mp he
    have htest := renamed_resolveExpr (x := x) (d := d) hz test hn he
    have hyes := renamed_resolveStmt around hz hd yes hf.2.1 hn'
      (fun _ ↦ by simp [Stmt.function?_of_plain hf.2.2]) he'
    refine ⟨?_, .ifOnly t t htest.like hyes.like⟩
    simp only [resolveStmt, Stmt.renameAt, Stmt.unbound, Stmt.mapUses, htest.resolve,
      hyes.resolve_plain hf.2.2, List.append_nil]
    rfl
  | .ifElse t test yes (some no), hf, hn, _, he => by
    obtain ⟨hn, hn'⟩ := List.forall_mem_append.mp hn
    obtain ⟨hnyes, hnno⟩ := List.forall_mem_append.mp hn'
    obtain ⟨he, he'⟩ := List.append_eq_nil_iff.mp he
    obtain ⟨heyes, heno⟩ := List.append_eq_nil_iff.mp he'
    have hscopes := resolveStmt_fst_of_plain around scopes hf.2.1.1 hf.2.1.2
    rw [hscopes] at heno
    have htest := renamed_resolveExpr (x := x) (d := d) hz test hn he
    have hyes := renamed_resolveStmt around hz hd yes hf.2.1.1 hnyes
      (fun _ ↦ by simp [Stmt.function?_of_plain hf.2.1.2]) heyes
    have hno := renamed_resolveStmt around hz hd no hf.2.2.1 hnno
      (fun _ ↦ by simp [Stmt.function?_of_plain hf.2.2.2]) heno
    simp only [resolveStmt, hscopes]
    refine ⟨?_, .ifElse t t htest.like hyes.like hno.like⟩
    simp only [resolveStmt, Stmt.renameAt, Stmt.unbound, Stmt.mapUses, htest.resolve,
      hyes.resolve_plain hf.2.1.2, hno.resolve_plain hf.2.2.2, List.append_nil]
    rfl
  | .while t test body, hf, hn, _, he => by
    obtain ⟨hn, hn'⟩ := List.forall_mem_append.mp hn
    obtain ⟨he, he'⟩ := List.append_eq_nil_iff.mp he
    have htest := renamed_resolveExpr (x := x) (d := d) hz test hn he
    have hbody := renamed_resolveStmt { around with inLoop := true } hz hd body hf.2.1 hn'
      (fun _ ↦ by simp [Stmt.function?_of_plain hf.2.2]) he'
    refine ⟨?_, .while t t htest.like hbody.like⟩
    simp only [resolveStmt, Stmt.renameAt, Stmt.unbound, Stmt.mapUses, htest.resolve,
      hbody.resolve_plain hf.2.2, List.append_nil]
    rfl
  | .function name params body, hf, hn, hfun, he => by
    obtain ⟨hname, hn⟩ := List.forall_mem_cons.mp hn
    obtain ⟨hparams, hbody⟩ := List.forall_mem_append.mp hn
    obtain ⟨hredeclaration, he⟩ := List.append_eq_nil_iff.mp he
    obtain ⟨heparams, hebody⟩ := List.append_eq_nil_iff.mp he
    -- the name of the function is not the one that is renamed in its scope
    have hkept : newName (d = 0) x z name.lexeme = name.lexeme := by
      by_cases h0 : d = 0
      · exact newName_of_ne _ z fun h ↦ hfun h0 (congrArg some h)
      · simp [h0, newName_false]
    have hdeep : d + 1 <
        (declareParams ([] :: scopes.record name.lexeme true) params).1.length := by
      rw [length_inside]
      exact Nat.succ_lt_succ hd
    exact renamed_function hz hd hname hparams hkept hredeclaration heparams
      (renamed_resolveStmts _ ((hz.record hname true).cons_nil.declareParams hparams) hdeep body hf
        hbody (fun h ↦ nomatch h) hebody)
  | .return t none, _, _, _, he => by
    refine ⟨?_, .returnNil (.refl t)⟩
    have hnone := (List.append_eq_nil_iff.mp he).1
    simp only [resolveStmt, resolveExpr?, Stmt.renameAt, Stmt.unbound, Stmt.mapUses, hnone,
      List.append_nil]
    rfl
  | .return t (some e), _, hn, _, he => by
    obtain ⟨hnone, he⟩ := List.append_eq_nil_iff.mp he
    have h := renamed_resolveExpr (x := x) (d := d) hz e hn he
    refine ⟨?_, .return (.refl t) h.like⟩
    simp only [resolveStmt, resolveExpr?, Stmt.renameAt, Stmt.unbound, Stmt.mapUses, hnone,
      h.resolve, List.append_nil]
    rfl
  | .branch t, _, _, _, he => by
    refine ⟨?_, .branch (.refl t)⟩
    simp only [resolveStmt] at he
    simp only [resolveStmt, Stmt.renameAt, Stmt.unbound, Stmt.mapUses, he]
    rfl

private theorem renamed_resolveStmts {scopes : Scopes} {d : Nat} (around : Surroundings)
    (hz : scopes.Lacks z) (hd : d < scopes.length) :
    (ss : List (Stmt Unit)) → Stmt.AllFormed ss → (∀ t ∈ Stmt.namesAll ss, t.lexeme ≠ z) →
      (d = 0 → ∀ s ∈ ss, s.function? ≠ some x) → (scopes.resolveStmts around ss).errors = [] →
      RenamedStmts x z d around scopes (scopes.resolveStmts around ss).tree
  | [], _, _, _, _ => ⟨rfl, .nil⟩
  | s :: ss, hf, hn, hfun, he => by
    obtain ⟨hns, hnss⟩ := List.forall_mem_append.mp hn
    obtain ⟨hes, hess⟩ := List.append_eq_nil_iff.mp he
    have hs := renamed_resolveStmt around hz hd s hf.1 hns
      (fun h ↦ (List.forall_mem_cons.mp (hfun h)).1) hes
    have hagain := hs.resolve
    rw [after_resolveStmt] at hagain
    have hlen := length_resolveStmt around scopes s
    rw [resolveStmt_fst around scopes s hf.1] at hess hlen
    have hss := renamed_resolveStmts around (hz.after hns) (hlen.symm ▸ hd) ss hf.2 hnss
      (fun h ↦ (List.forall_mem_cons.mp (hfun h)).2) hess
    have hlike := hss.like
    rw [hlen] at hlike
    simp only [resolveStmts, resolveStmt_fst around scopes s hf.1]
    refine ⟨?_, .cons hs.like hlike⟩
    simp only [resolveStmts, Stmt.renameAllAt, Stmt.unboundAll, Stmt.mapUsesList, hagain,
      hss.resolve, List.append_nil]

end

/-! ## Declarations in one scope -/

-- The innermost scope has one more name behind a declaration.
private theorem after_cons (s : Scope) (rest : Scopes) (st : Stmt Unit) :
    ∃ s', Scopes.after (s :: rest) st = s' :: rest ∧
      ∀ name, s'.declares name = (st.declared? == some name || s.declares name) := by
  have hdeclare : ∀ n name : Bytes, Scope.declares ((n, true) :: s) name =
      (some n == some name || s.declares name) := by
    intro n name
    rw [Scope.declares_cons, Option.some_beq_some, BEq.comm]
  cases st with
  | var name init => exact ⟨_, rfl, hdeclare name.lexeme⟩
  | function name params body => exact ⟨_, rfl, hdeclare name.lexeme⟩
  | _ => exact ⟨s, rfl, fun name ↦ by simp [Stmt.declared?]⟩

private theorem declares_declareParams {s : Scope} (rest : Scopes) {params : List Token}
    (h : s.declares name ∨ ∃ p ∈ params, p.lexeme = name) :
    ∃ s', (declareParams (s :: rest) params).1 = s' :: rest ∧ s'.declares name := by
  induction params generalizing s with
  | nil => exact ⟨s, rfl, h.resolve_right (by simp)⟩
  | cons p ps ih =>
    refine ih (s := (p.lexeme, true) :: s) ?_
    rw [Scope.declares_cons]
    rcases h with h | ⟨p', hp', rfl⟩
    · exact .inl (by simp [h])
    · rcases List.mem_cons.mp hp' with rfl | hp'
      · exact .inl (by simp)
      · exact .inr ⟨p', hp', rfl⟩

-- A statement without errors declares no name that its scope has.
private theorem declares_eq_false {around : Surroundings} {s : Scope} {rest : Scopes}
    {st : Stmt Unit} (h : (resolveStmt around (s :: rest) st).2.errors = [])
    (hn : st.declared? = some name) : s.declares name = false := by
  have hredeclaration : ∀ t : Token, redeclaration (s :: rest) t = [] → t.lexeme = name →
      s.declares name = false := by
    rintro t ht rfl
    cases hd : s.declares t.lexeme with
    | false => rfl
    | true => simp [redeclaration, hd] at ht
  cases st with
  | var t init =>
    exact hredeclaration t (List.append_eq_nil_iff.mp h).1 (Option.some.inj hn)
  | function t params body =>
    exact hredeclaration t (List.append_eq_nil_iff.mp h).1 (Option.some.inj hn)
  | _ => cases hn

-- Statements without errors do not declare a name that their scope has.
private theorem declared?_ne {around : Surroundings} {s : Scope} {rest : Scopes}
    {ss : List (Stmt Unit)} (hf : Stmt.AllFormed ss)
    (he : (resolveStmts around (s :: rest) ss).errors = []) (hn : s.declares name) :
    ∀ st ∈ ss, st.declared? ≠ some name := by
  induction ss generalizing s with
  | nil => exact List.forall_mem_nil _
  | cons st ss ih =>
    obtain ⟨hest, hess⟩ := List.append_eq_nil_iff.mp he
    rw [resolveStmt_fst around _ st hf.1] at hess
    obtain ⟨s', hs', hdeclares⟩ := after_cons s rest st
    rw [hs'] at hess
    refine List.forall_mem_cons.mpr ⟨fun h ↦ ?_, ih hf.2 hess (by simp [hdeclares, hn])⟩
    rw [declares_eq_false hest h] at hn
    cases hn

private theorem declared?_of_function? {st : Stmt Unit} (h : st.function? = some name) :
    st.declared? = some name := by
  cases st with
  | function t params body => exact h
  | _ => cases h

-- No function has the name of a variable that is declared beside it.
private theorem function?_ne {around : Surroundings} {s : Scope} {rest : Scopes}
    {ss : List (Stmt Unit)} (hf : Stmt.AllFormed ss)
    (he : (resolveStmts around (s :: rest) ss).errors = []) (hx : Stmt.Declares x ss) :
    ∀ st ∈ ss, st.function? ≠ some x := by
  induction ss generalizing s with
  | nil => exact List.forall_mem_nil _
  | cons st ss ih =>
    obtain ⟨hest, hess⟩ := List.append_eq_nil_iff.mp he
    rw [resolveStmt_fst around _ st hf.1] at hess
    obtain ⟨s', hs', hdeclares⟩ := after_cons s rest st
    rw [hs'] at hess
    have hlater : st.declared? = some x → ∀ st' ∈ ss, st'.declared? ≠ some x :=
      fun h ↦ declared?_ne hf.2 hess (by simp [hdeclares, h])
    obtain ⟨t, init, hmem, rfl⟩ := hx
    rcases List.mem_cons.mp hmem with rfl | hmem
    · refine List.forall_mem_cons.mpr ⟨nofun, fun st' hst' h ↦ ?_⟩
      exact hlater rfl st' hst' (declared?_of_function? h)
    · refine List.forall_mem_cons.mpr ⟨fun h ↦ ?_, ih hf.2 hess ⟨t, init, hmem, rfl⟩⟩
      exact hlater (declared?_of_function? h) _ hmem rfl

/-! ## Programs with a variable renamed -/

mutual

private theorem unbound_resolveExpr (scopes : Scopes) :
    (e : Expr Unit) → (scopes.resolveExpr e).tree.unbound = e
  | .literal t v => rfl
  | .grouping t e => congrArg (Expr.grouping t) (unbound_resolveExpr scopes e)
  | .unary t e => congrArg (Expr.unary t) (unbound_resolveExpr scopes e)
  | .binary e t e' => by
    simp only [resolveExpr, Expr.unbound, Expr.mapUses, unbound_resolveExpr scopes e,
      unbound_resolveExpr scopes e']
  | .logical e t e' => by
    simp only [resolveExpr, Expr.unbound, Expr.mapUses, unbound_resolveExpr scopes e,
      unbound_resolveExpr scopes e']
  | .variable name _ => rfl
  | .assign name _ e => congrArg (Expr.assign name ()) (unbound_resolveExpr scopes e)
  | .call c t args => by
    simp only [resolveExpr, Expr.unbound, Expr.mapUses, unbound_resolveExpr scopes c,
      unboundAll_resolveExprs scopes args]

private theorem unboundAll_resolveExprs (scopes : Scopes) :
    (es : List (Expr Unit)) → Expr.unboundAll (scopes.resolveExprs es).tree = es
  | [] => rfl
  | e :: es => by
    simp only [resolveExprs, Expr.unboundAll, Expr.mapUsesList, unbound_resolveExpr scopes e,
      unboundAll_resolveExprs scopes es]

end

mutual

private theorem unbound_resolveStmt (around : Surroundings) (scopes : Scopes) :
    (s : Stmt Unit) → (scopes.resolveStmt around s).2.tree.unbound = s
  | .expr e => congrArg Stmt.expr (unbound_resolveExpr scopes e)
  | .print t e => congrArg (Stmt.print t) (unbound_resolveExpr scopes e)
  | .var name none => rfl
  | .var name (some e) =>
    congrArg (fun e ↦ Stmt.var name (some e)) (unbound_resolveExpr _ e)
  | .block t body => congrArg (Stmt.block t) (unboundAll_resolveStmts around _ body)
  | .ifElse t test yes none => by
    simp only [resolveStmt, Stmt.unbound, Stmt.mapUses, unbound_resolveExpr scopes test,
      unbound_resolveStmt around scopes yes]
  | .ifElse t test yes (some no) => by
    simp only [resolveStmt, Stmt.unbound, Stmt.mapUses, unbound_resolveExpr scopes test,
      unbound_resolveStmt around scopes yes, unbound_resolveStmt around _ no]
  | .while t test body => by
    simp only [resolveStmt, Stmt.unbound, Stmt.mapUses, unbound_resolveExpr scopes test,
      unbound_resolveStmt _ scopes body]
  | .function name params body =>
    congrArg (Stmt.function name params) (unboundAll_resolveStmts _ _ body)
  | .return t none => rfl
  | .return t (some e) =>
    congrArg (fun e ↦ Stmt.return t (some e)) (unbound_resolveExpr scopes e)
  | .branch t => rfl

/-- Taking the bindings away from resolved statements gives them as they were. -/
theorem unboundAll_resolveStmts (around : Surroundings) (scopes : Scopes) :
    (ss : List (Stmt Unit)) → Stmt.unboundAll (scopes.resolveStmts around ss).tree = ss
  | [] => rfl
  | s :: ss => by
    simp only [resolveStmts, Stmt.unboundAll, Stmt.mapUsesList, unbound_resolveStmt around scopes s,
      unboundAll_resolveStmts around _ ss]

end

private theorem mapUsesList_eq_map {β γ : Type} (f : β → γ) (ss : List (Stmt β)) :
    Stmt.mapUsesList f ss = ss.map (Stmt.mapUses f) := by
  induction ss with
  | nil => rfl
  | cons s ss ih => rw [Stmt.mapUsesList, ih, List.map_cons]

private theorem declares_of_resolveStmts {around : Surroundings} {ss : List (Stmt Unit)}
    (h : Stmt.Declares x (scopes.resolveStmts around ss).tree) : Stmt.Declares x ss := by
  obtain ⟨name, init, hmem, rfl⟩ := h
  have hss := unboundAll_resolveStmts around scopes ss
  rw [Stmt.unboundAll, mapUsesList_eq_map] at hss
  have hmem' := List.mem_map_of_mem (f := Stmt.unbound) hmem
  rw [hss] at hmem'
  cases init with
  | none => exact ⟨name, none, hmem', rfl⟩
  | some e => exact ⟨name, some e.unbound, hmem', rfl⟩

/-- Resolving the second statement gives it again, without errors, and it is like the first one. -/
structure KeptStmt (around : Surroundings) (scopes : Scopes) (s s' : Stmt Binding) : Prop where
  resolve : scopes.resolveStmt around s'.unbound = (scopes.after s, ⟨s', []⟩)
  like : Stmt.Like True (List.replicate scopes.length 1) s s'

/-- Resolving the second statements gives them again, without errors, and they are like the first
ones. -/
structure KeptStmts (around : Surroundings) (scopes : Scopes) (ss ss' : List (Stmt Binding)) :
    Prop where
  resolve : scopes.resolveStmts around (Stmt.unboundAll ss') = ⟨ss', []⟩
  like : Stmt.AllLike True (List.replicate scopes.length 1) ss ss'

-- A statement that declares nothing leaves the scopes as they are.
private theorem KeptStmt.resolve_plain {around : Surroundings} {s : Stmt Unit} {s' : Stmt Binding}
    (h : KeptStmt around scopes (scopes.resolveStmt around s).2.tree s')
    (hplain : s.isDeclaration = false) :
    scopes.resolveStmt around s'.unbound = (scopes, ⟨s', []⟩) := by
  have hagain := h.resolve
  rwa [after_resolveStmt, after_of_plain scopes hplain] at hagain

private theorem kept_expr {e : Expr Unit} (he : (scopes.resolveExpr e).errors = []) :
    scopes.resolveExpr (scopes.resolveExpr e).tree.unbound = ⟨(scopes.resolveExpr e).tree, []⟩ ∧
      Expr.Like True (List.replicate scopes.length 1) (scopes.resolveExpr e).tree
        (scopes.resolveExpr e).tree := by
  rw [unbound_resolveExpr, ← he]
  refine ⟨rfl, ?_⟩
  have h := (alike_resolveExpr (Relabel.keeps_same True) scopes e).tree
  rwa [Expr.relabel_same] at h

private theorem kept_stmt {around : Surroundings} {s : Stmt Unit} (hf : s.Formed)
    (he : (scopes.resolveStmt around s).2.errors = []) :
    KeptStmt around scopes (scopes.resolveStmt around s).2.tree
      (scopes.resolveStmt around s).2.tree := by
  refine ⟨?_, ?_⟩
  · rw [unbound_resolveStmt, after_resolveStmt, ← he, ← resolveStmt_fst around scopes s hf]
  · have h := (alike_resolveStmt (Relabel.keeps_same True) around scopes s).tree
    rwa [Stmt.relabel_same] at h

private theorem kept_stmts {around : Surroundings} {ss : List (Stmt Unit)}
    (he : (scopes.resolveStmts around ss).errors = []) :
    KeptStmts around scopes (scopes.resolveStmts around ss).tree
      (scopes.resolveStmts around ss).tree := by
  refine ⟨?_, ?_⟩
  · rw [unboundAll_resolveStmts, ← he]
  · have h := (alike_resolveStmts (Relabel.keeps_same True) around scopes ss).tree
    rwa [Stmt.relabelAll_same] at h

-- The statements of a block in which a variable is renamed.
private theorem kept_block {around : Surroundings} (hz : scopes.Lacks z) {body : List (Stmt Unit)}
    (hf : Stmt.AllFormed body) (hn : ∀ t ∈ Stmt.namesAll body, t.lexeme ≠ z)
    (he : (resolveStmts around ([] :: scopes) body).errors = [])
    (hx : Stmt.Declares x (resolveStmts around ([] :: scopes) body).tree) :
    RenamedStmts x z 0 around ([] :: scopes) (resolveStmts around ([] :: scopes) body).tree :=
  renamed_resolveStmts around hz.cons_nil (Nat.succ_pos _) body hf hn
    (fun _ ↦ function?_ne hf he (declares_of_resolveStmts hx)) he

-- No function in the body of a function has the name of a parameter, or of a variable beside it.
private theorem function?_ne_of_params {around : Surroundings} {params : List Token}
    {body : List (Stmt Unit)} (hf : Stmt.AllFormed body)
    (he : (resolveStmts around (declareParams ([] :: scopes) params).1 body).errors = [])
    (hx : (∃ p ∈ params, p.lexeme = x) ∨
      Stmt.Declares x (resolveStmts around (declareParams ([] :: scopes) params).1 body).tree) :
    ∀ s ∈ body, s.function? ≠ some x := by
  rcases hx with hx | hx
  · obtain ⟨s, hs, hdeclares⟩ := declares_declareParams (s := []) scopes (.inr hx)
    rw [hs] at he
    exact fun s hs h ↦ declared?_ne hf he hdeclares s hs (declared?_of_function? h)
  · obtain ⟨s, rest, hs⟩ := List.exists_cons_of_length_eq_add_one
      (length_declareParams ([] :: scopes) params)
    have hx' := declares_of_resolveStmts hx
    rw [hs] at he
    exact function?_ne hf he hx'

mutual

/-- What a statement is resolved to can be renamed. -/
theorem kept_renames {scopes : Scopes} (around : Surroundings) (hz : scopes.Lacks z) :
    (s : Stmt Unit) → s.Formed → (∀ t ∈ s.names, t.lexeme ≠ z) →
      (scopes.resolveStmt around s).2.errors = [] → {s' : Stmt Binding} →
      Stmt.Renames x z (scopes.resolveStmt around s).2.tree s' →
      KeptStmt around scopes (scopes.resolveStmt around s).2.tree s'
  | .expr _, _, _, _, _, h => nomatch h
  | .print _ _, _, _, _, _, h => nomatch h
  | .var _ none, _, _, _, _, h => nomatch h
  | .var _ (some _), _, _, _, _, h => nomatch h
  | .block t body, hf, hn, he, _, h => by
    cases h with
    | block _ hx =>
      have hbody := kept_block hz hf hn he hx
      have hagain' : resolveStmts around ([] :: scopes) _ = _ := hbody.resolve
      refine ⟨?_, .block t t (Equiv.swap x z) hbody.like⟩
      simp only [Stmt.unbound, Stmt.mapUses, resolveStmt]
      rw [hagain']
      rfl
    | inBlock _ hbody =>
      have h := allKept_renames around hz.cons_nil body hf hn he hbody
      refine ⟨?_, .block t t 1 h.like⟩
      simp only [Stmt.unbound, Stmt.mapUses, resolveStmt, h.resolve]
      rfl
  | .ifElse t test yes none, hf, hn, he, _, h => by
    obtain ⟨hetest, heyes⟩ := List.append_eq_nil_iff.mp he
    obtain ⟨hagain, hlike⟩ := kept_expr hetest
    cases h with
    | inYes _ _ _ h =>
      have hyes := kept_renames around hz yes hf.2.1 (List.forall_mem_append.mp hn).2 heyes h
      refine ⟨?_, .ifOnly t t hlike hyes.like⟩
      simp only [Stmt.unbound, Stmt.mapUses, resolveStmt, hagain, hyes.resolve_plain hf.2.2,
        List.append_nil]
      rfl
  | .ifElse t test yes (some no), hf, hn, he, _, h => by
    obtain ⟨hnyes, hnno⟩ := List.forall_mem_append.mp (List.forall_mem_append.mp hn).2
    obtain ⟨hetest, he⟩ := List.append_eq_nil_iff.mp he
    obtain ⟨heyes, heno⟩ := List.append_eq_nil_iff.mp he
    have hscopes := resolveStmt_fst_of_plain around scopes hf.2.1.1 hf.2.1.2
    rw [hscopes] at heno
    simp only [resolveStmt, hscopes] at h ⊢
    obtain ⟨hagain, hlike⟩ := kept_expr hetest
    have hboth : ∀ {yes' no' : Stmt Binding},
        KeptStmt around scopes (scopes.resolveStmt around yes).2.tree yes' →
        KeptStmt around scopes (scopes.resolveStmt around no).2.tree no' →
        KeptStmt around scopes (.ifElse t (scopes.resolveExpr test).tree
            (scopes.resolveStmt around yes).2.tree (some (scopes.resolveStmt around no).2.tree))
          (.ifElse t (scopes.resolveExpr test).tree yes' (some no')) := by
      intro yes' no' hyes hno
      refine ⟨?_, .ifElse t t hlike hyes.like hno.like⟩
      simp only [Stmt.unbound, Stmt.mapUses, resolveStmt, hagain, hyes.resolve_plain hf.2.1.2,
        hno.resolve_plain hf.2.2.2, List.append_nil]
      rfl
    cases h with
    | inYes _ _ _ h =>
      exact hboth (kept_renames around hz yes hf.2.1.1 hnyes heyes h) (kept_stmt hf.2.2.1 heno)
    | inNo _ _ _ h =>
      exact hboth (kept_stmt hf.2.1.1 heyes) (kept_renames around hz no hf.2.2.1 hnno heno h)
  | .while t test body, hf, hn, he, _, h => by
    obtain ⟨hetest, hebody⟩ := List.append_eq_nil_iff.mp he
    obtain ⟨hagain, hlike⟩ := kept_expr hetest
    cases h with
    | inWhile _ _ h =>
      have hbody := kept_renames { around with inLoop := true } hz body hf.2.1
        (List.forall_mem_append.mp hn).2 hebody h
      refine ⟨?_, .while t t hlike hbody.like⟩
      simp only [Stmt.unbound, Stmt.mapUses, resolveStmt, hagain, hbody.resolve_plain hf.2.2,
        List.append_nil]
      rfl
  | .function name params body, hf, hn, he, _, h => by
    obtain ⟨hname, hn⟩ := List.forall_mem_cons.mp hn
    obtain ⟨hnparams, hnbody⟩ := List.forall_mem_append.mp hn
    obtain ⟨hredeclaration, he⟩ := List.append_eq_nil_iff.mp he
    obtain ⟨heparams, hebody⟩ := List.append_eq_nil_iff.mp he
    have hlack := (hz.record hname true).cons_nil
    have hfixed : (List.replicate scopes.length (1 : Renaming)).headD 1 name.lexeme =
        name.lexeme := by
      rw [headD_replicate]
      rfl
    cases h with
    | function _ hx =>
      have hbody := renamed_resolveStmts (d := 0)
        { around with inFunction := true, inLoop := false }
        (hlack.declareParams hnparams) (length_inside .. ▸ Nat.succ_pos _) body hf hnbody
        (fun _ ↦ function?_ne_of_params hf hebody hx) hebody
      have hlike := hbody.like
      rw [length_inside, renamings_zero] at hlike
      have hinner : declareParams ([] :: scopes.record name.lexeme true)
          (params.map (Token.rename true x z)) = _ :=
        declareParams_renameAt (d := 0) hlack hnparams heparams
      refine ⟨?_, .function (Equiv.swap x z) (.refl name) hfixed ?_ hlike⟩
      · simp only [Stmt.unbound, Stmt.mapUses, resolveStmt, hredeclaration, hinner, hbody.resolve,
          List.append_nil]
        rfl
      · exact List.forall₂_map_right_iff.mpr (List.forall₂_same.mpr fun p hp ↦
          renamed_rename (hnparams p hp) true)
    | inFunction _ _ h =>
      have hbody := allKept_renames { around with inFunction := true, inLoop := false }
        (hlack.declareParams hnparams) body hf hnbody hebody h
      have hlike := hbody.like
      rw [length_inside, List.replicate_succ] at hlike
      refine ⟨?_, .function 1 (.refl name) hfixed
        (List.forall₂_same.mpr fun p _ ↦ .refl p) hlike⟩
      simp only [Stmt.unbound, Stmt.mapUses, resolveStmt, hredeclaration, heparams, hbody.resolve,
        List.append_nil]
      rfl
  | .return _ none, _, _, _, _, h => nomatch h
  | .return _ (some _), _, _, _, _, h => nomatch h
  | .branch _, _, _, _, _, h => nomatch h

private theorem allKept_renames {scopes : Scopes} (around : Surroundings) (hz : scopes.Lacks z) :
    (ss : List (Stmt Unit)) → Stmt.AllFormed ss → (∀ t ∈ Stmt.namesAll ss, t.lexeme ≠ z) →
      (scopes.resolveStmts around ss).errors = [] → {ss' : List (Stmt Binding)} →
      Stmt.AllRenames x z (scopes.resolveStmts around ss).tree ss' →
      KeptStmts around scopes (scopes.resolveStmts around ss).tree ss'
  | [], _, _, _, _, h => nomatch h
  | s :: ss, hf, hn, he, _, h => by
    obtain ⟨hns, hnss⟩ := List.forall_mem_append.mp hn
    obtain ⟨hes, hess⟩ := List.append_eq_nil_iff.mp he
    have hlen := length_resolveStmt around scopes s
    rw [resolveStmt_fst around scopes s hf.1] at hess hlen
    simp only [resolveStmts, resolveStmt_fst around scopes s hf.1] at h ⊢
    have hboth : ∀ {s' : Stmt Binding} {ss' : List (Stmt Binding)},
        KeptStmt around scopes (scopes.resolveStmt around s).2.tree s' →
        KeptStmts around (scopes.after s) ((scopes.after s).resolveStmts around ss).tree ss' →
        KeptStmts around scopes ((scopes.resolveStmt around s).2.tree ::
          ((scopes.after s).resolveStmts around ss).tree) (s' :: ss') := by
      intro s' ss' hs hss
      have hagain := hs.resolve
      rw [after_resolveStmt] at hagain
      have hlike := hss.like
      rw [hlen] at hlike
      refine ⟨?_, .cons hs.like hlike⟩
      simp only [Stmt.unboundAll, Stmt.mapUsesList, resolveStmts, hagain, hss.resolve,
        List.append_nil]
    cases h with
    | here _ h => exact hboth (kept_renames around hz s hf.1 hns hes h) (kept_stmts hess)
    | later _ h =>
      exact hboth (kept_stmt hf.1 hes) (allKept_renames around (hz.after hns) ss hf.2 hnss hess h)

end

end Scopes

/-- A local variable or parameter of a program without static errors can be given a name that does
not occur in the program. Resolving the renamed program binds each use as it was bound, without
errors. -/
theorem Program.resolve_renames {x z : Bytes} {lenient : Bool} {p : Program Unit}
    (hf : Stmt.AllFormed p) (hn : ∀ t ∈ Stmt.namesAll p, t.lexeme ≠ z)
    (he : (p.resolve lenient).errors = []) {p' : Program Binding}
    (h : Stmt.AllRenames x z (p.resolve lenient).tree p') :
    Program.resolve lenient (Stmt.unboundAll p') = ⟨p', []⟩ ∧
      Stmt.AllLike True [] (p.resolve lenient).tree p' :=
  let hkept := Scopes.allKept_renames (.topLevel lenient) (Scopes.lacks_nil z) p hf hn he h
  ⟨hkept.resolve, hkept.like⟩

end Lox
