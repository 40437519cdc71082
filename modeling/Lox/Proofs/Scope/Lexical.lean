import Lox.Proofs.Parser.Makes
import Lox.Proofs.Scope.Situation
import Lox.Token.Scan

/-!
# Lexical scope

What a use of a variable is bound to can be said without the resolver, from where the parts of a
program are: a block or function around the use declares the variable if the declaration is directly
in it and comes before the use, and of these scopes it is the innermost. The resolver finds the same
(`uses_are_bound_lexically`), since its scopes at each part are those around the part, with what was
declared in them before it.
-/

namespace Lox

namespace Program

section Declarations

variable {β : Type}

/-- The blocks and functions around a part, the innermost first. -/
def scopesAround (p : Program β) : Address → List Address
  | [] => []
  | _ :: a =>
    if (p.part? a).any Part.opens then a :: p.scopesAround a else p.scopesAround a

/-- The part at an address declares a name. -/
def DeclaresAt (p : Program β) (c : Address) (x : Bytes) : Prop :=
  ∃ part t, p.part? c = some part ∧ part.declared? = some t ∧ t.lexeme = x

/-- A name is declared directly in the block or function `q`, before `a`. -/
def Declares (p : Program β) (q : Address) (x : Bytes) (a : Address) : Prop :=
  ∃ c, c.Before a ∧ (p.scopesAround c).head? = some q ∧ p.DeclaresAt c x

/-- A use of a variable is bound as its place in the program says: to a scope if one around it
declares the variable, and then to the innermost one, by the number of scopes from the innermost
scope around the use out to it. -/
structure BindsLexically (p : Program β) (a : Address) (x : Bytes) (b : Binding) : Prop where
  isLocal : b ≠ .global ↔ ∃ q ∈ p.scopesAround a, p.Declares q x a
  depth : ∀ d, b = .scope d ↔ ∃ q, (p.scopesAround a)[d]? = some q ∧ p.Declares q x a ∧
    ∀ q' ∈ (p.scopesAround a).take d, ¬ p.Declares q' x a

variable {p : Program β} {a c q : Address} {i : Nat} {x : Bytes}

private theorem scopesAround_cons {part : Part β} (h : p.part? a = some part) (i : Nat) :
    p.scopesAround (i :: a) = (if part.opens then [a] else []) ++ p.scopesAround a := by
  rw [scopesAround, h, Option.any_some]
  split <;> rfl

/-- Scopes around a part enclose it. -/
theorem encloses_of_mem_scopesAround (h : q ∈ p.scopesAround a) : q.Encloses a := by
  induction a with
  | nil => cases h
  | cons i a ih =>
    rw [scopesAround] at h
    rw [Address.encloses_iff]
    split at h
    · rcases List.mem_cons.mp h with rfl | h
      · exact .inl rfl
      · exact .inr (ih h)
    · exact .inr (ih h)

private theorem nodup_scopesAround (p : Program β) (a : Address) : (p.scopesAround a).Nodup := by
  induction a with
  | nil => exact .nil
  | cons i a ih =>
    rw [scopesAround]
    split
    · exact List.nodup_cons.mpr ⟨fun h ↦ (encloses_of_mem_scopesAround h).2 rfl, ih⟩
    · exact ih

private theorem declaresAt_iff {part : Part β} (h : p.part? a = some part) :
    p.DeclaresAt a x ↔ ∃ t, part.declared? = some t ∧ t.lexeme = x := by
  constructor
  · rintro ⟨part', t, hpart, ht⟩
    rw [h] at hpart
    cases hpart
    exact ⟨t, ht⟩
  · rintro ⟨t, ht⟩
    exact ⟨part, t, h, ht⟩

/-- What is declared before the first child of a part is what is declared before the part, or by
it. -/
theorem declares_first : p.Declares q x (0 :: a) ↔
    p.Declares q x a ∨ (p.scopesAround a).head? = some q ∧ p.DeclaresAt a x := by
  constructor
  · rintro ⟨c, hc, hq, hx⟩
    rcases Address.before_first.mp hc with hc | rfl
    · exact .inl ⟨c, hc, hq, hx⟩
    · exact .inr ⟨hq, hx⟩
  · rintro (⟨c, hc, hq, hx⟩ | ⟨hq, hx⟩)
    · exact ⟨c, Address.before_first.mpr (.inl hc), hq, hx⟩
    · exact ⟨a, Address.before_first.mpr (.inr rfl), hq, hx⟩

/-- Before what a scope consists of nothing is declared in it. -/
theorem not_declares_self : ¬ p.Declares a x (0 :: a) := by
  rintro ⟨c, hc, hq, -⟩
  obtain ⟨hac, hne⟩ := encloses_of_mem_scopesAround (List.mem_of_head? hq)
  rcases Address.before_first.mp hc with hc | rfl
  · exact Address.not_before_of_suffix hac hc
  · exact hne rfl

/-- In a formed program a declaration in a part is directly in a scope around the part only if it is
the part itself. -/
theorem eq_of_declaresAt (hf : Stmt.AllFormed p) (hsuffix : i :: a <:+ c)
    (hq : q ∈ p.scopesAround (i :: a)) (hhead : (p.scopesAround c).head? = some q)
    (hx : p.DeclaresAt c x) : c = i :: a := by
  cases c with
  | nil => exact absurd hsuffix (by simp)
  | cons j d =>
    rcases List.suffix_cons_iff.mp hsuffix with heq | hd
    · exact heq.symm
    -- otherwise the parent of the declaration is a scope in the part
    obtain ⟨child, t, hchild, ht, -⟩ := hx
    obtain ⟨parent, hparent, hmem⟩ := part?_cons hchild
    have hopens : parent.opens = true := by
      by_contra hopens
      have hnone := (formed_part? hf hparent).plain (Bool.not_eq_true _ ▸ hopens) ?_
        (List.mem_of_getElem? hmem)
      · rw [hnone] at ht
        cases ht
      · rintro q rfl
        cases d with
        | nil => simp at hd
        | cons k d => exact part?_cons_ne_program hparent
    rw [scopesAround_cons hparent, hopens] at hhead
    cases hhead
    have hlt := (encloses_of_mem_scopesAround hq)
    exact absurd (hlt.1.eq_of_length (Nat.le_antisymm hlt.1.length_le hd.length_le)) hlt.2

/-- What is declared before a later child of a part is what is declared before the child in front of
it, or by that child. -/
theorem declares_next (hf : Stmt.AllFormed p) (hq : q ∈ p.scopesAround (i :: a)) :
    p.Declares q x ((i + 1) :: a) ↔
      p.Declares q x (i :: a) ∨
        (p.scopesAround (i :: a)).head? = some q ∧ p.DeclaresAt (i :: a) x := by
  constructor
  · rintro ⟨c, hc, hhead, hx⟩
    rcases Address.before_next.mp hc with hc | hc
    · exact .inl ⟨c, hc, hhead, hx⟩
    · cases eq_of_declaresAt hf hc hq hhead hx
      exact .inr ⟨hhead, hx⟩
  · rintro (⟨c, hc, hhead, hx⟩ | ⟨hhead, hx⟩)
    · exact ⟨c, Address.before_next.mpr (.inl hc), hhead, hx⟩
    · exact ⟨i :: a, Address.before_next.mpr (.inr (List.suffix_refl _)), hhead, hx⟩

end Declarations

/-! ## The scopes of the resolver -/

/-- Scopes of the resolver are those at the addresses, with what was declared in them before `a`. -/
abbrev Reflects (p : Program Unit) (around : List Address) (a : Address) (scopes : Scopes) : Prop :=
  List.Forall₂ (fun q s ↦ ∀ x, s.declares x = true ↔ p.Declares q x a) around scopes

section Scopes

variable {p : Program Unit} {a a' : Address} {around : List Address} {scopes : Scopes}

private theorem forall₂_congr {α γ : Type} {R R' : α → γ → Prop} {xs : List α} {ys : List γ}
    (h : List.Forall₂ R xs ys) (hcongr : ∀ x ∈ xs, ∀ y, R x y → R' x y) :
    List.Forall₂ R' xs ys := by
  induction h with
  | nil => exact .nil
  | cons hxy _ ih =>
    exact .cons (hcongr _ List.mem_cons_self _ hxy)
      (ih fun x hx ↦ hcongr x (List.mem_cons_of_mem _ hx))

private theorem declares_cons (s : Scope) (name x : Bytes) (ready : Bool) :
    Scope.declares ((name, ready) :: s) x = true ↔ s.declares x = true ∨ name = x := by
  by_cases h : x = name
  · simp [Scope.declares, h]
  · have hb : (x == name) = false := beq_eq_false_iff_ne.mpr h
    simp [Scope.declares, List.lookup_cons, hb, Ne.symm h]

-- If only the part at `a` stands between `a` and `a'`, then it is what is recorded for `a'`.
private theorem Reflects.declare {part : Part Unit} (h : p.Reflects around a scopes)
    (hnodup : around.Nodup) (hpart : p.part? a = some part)
    (hstep : ∀ q ∈ around, ∀ x, p.Declares q x a' ↔
      p.Declares q x a ∨ around.head? = some q ∧ p.DeclaresAt a x) (ready : Bool) :
    p.Reflects around a'
      (part.declared?.elim scopes fun t ↦ scopes.record t.lexeme ready) := by
  cases ht : part.declared? with
  | none =>
    have hnot : ∀ x, ¬ p.DeclaresAt a x := fun x hx ↦ by
      obtain ⟨t, hsome, -⟩ := (declaresAt_iff hpart).mp hx
      rw [ht] at hsome
      cases hsome
    refine forall₂_congr h fun q hq s hs x ↦ ?_
    rw [hs x, hstep q hq x]
    simp [hnot x]
  | some t =>
    have hdecl : ∀ x, p.DeclaresAt a x ↔ t.lexeme = x := fun x ↦ by
      rw [declaresAt_iff hpart, ht]
      simp
    cases h with
    | nil => exact .nil
    | @cons q s around scopes hs hrest =>
      obtain ⟨hq, -⟩ := List.nodup_cons.mp hnodup
      refine .cons (fun x ↦ ?_) (forall₂_congr hrest fun q' hq' s' hs' x ↦ ?_)
      · rw [declares_cons, hs x, hstep q List.mem_cons_self x, hdecl x]
        simp
      · rw [hs' x, hstep q' (List.mem_cons_of_mem _ hq') x]
        have hne : q ≠ q' := by
          rintro rfl
          exact hq hq'
        simp [hne]

/-- The resolver meets each part in the scopes around it. -/
theorem reflects_visit? (hf : Stmt.AllFormed p) {lenient : Bool} {σ : Situation}
    {part : Part Unit} (h : p.visit? lenient a = some (σ, part)) :
    p.Reflects (p.scopesAround a) a σ.scopes := by
  refine visit_induction (motive := fun a σ ↦ p.Reflects (p.scopesAround a) a σ.scopes) .nil
    ?enter ?pass h
  case enter =>
    intro a σ part hv hσ
    have hpart := part?_of_visit? hv
    obtain ⟨ready, hscopes⟩ := σ.scopes_inside part
    have hdeclared := hσ.declare (nodup_scopesAround p a) hpart
      (fun q _ x ↦ declares_first) ready
    rw [hscopes, scopesAround_cons hpart]
    split
    · refine .cons (fun x ↦ ?_) hdeclared
      simp [Scope.declares, not_declares_self]
    · exact hdeclared
  case pass =>
    intro i a σ part hv hσ
    have hpart := part?_of_visit? hv
    rw [σ.scopes_behind (formed_part? hf hpart)]
    exact hσ.declare (nodup_scopesAround p _) hpart (fun q hq x ↦ declares_next hf hq) true

private theorem find_cons (s : Scope) (scopes : Scopes) (x : Bytes) :
    Scopes.find (s :: scopes) x =
      if s.declares x then .scope 0
      else match scopes.find x with
        | .scope d => .scope (d + 1)
        | .global => .global := by
  unfold Scopes.find
  rw [List.findIdx?_cons]
  cases s.declares x with
  | true => rfl
  | false => cases List.findIdx? (fun s ↦ Scope.declares s x) scopes <;> rfl

-- In such scopes names are found as their place in the program says.
private theorem Reflects.find {x : Bytes} (h : p.Reflects around a scopes) :
    (scopes.find x ≠ .global ↔ ∃ q ∈ around, p.Declares q x a) ∧
      ∀ d, scopes.find x = .scope d ↔
        ∃ q, around[d]? = some q ∧ p.Declares q x a ∧
          ∀ q' ∈ around.take d, ¬ p.Declares q' x a := by
  induction h with
  | nil =>
    refine ⟨⟨fun h ↦ absurd rfl h, ?_⟩, fun d ↦ ⟨nofun, ?_⟩⟩
    · rintro ⟨q, hq, -⟩
      cases hq
    · rintro ⟨q, hq, -⟩
      cases hq
  | @cons q s around scopes hs hrest ih =>
    rw [find_cons]
    by_cases hx : s.declares x
    · have hq := (hs x).mp hx
      rw [if_pos hx]
      refine ⟨⟨fun _ ↦ ⟨q, List.mem_cons_self, hq⟩, fun _ ↦ nofun⟩, fun d ↦ ?_⟩
      cases d with
      | zero => simp [hq]
      | succ d =>
        refine ⟨nofun, ?_⟩
        rintro ⟨_, -, -, hnot⟩
        exact absurd hq (hnot q List.mem_cons_self)
    · have hq : ¬ p.Declares q x a := fun hq ↦ hx ((hs x).mpr hq)
      rw [if_neg hx]
      obtain ⟨hlocal, hdepth⟩ := ih
      cases hfind : Scopes.find scopes x with
      | global =>
        rw [hfind] at hlocal hdepth
        refine ⟨?_, fun d ↦ ?_⟩
        · simpa [hq] using hlocal
        · cases d with
          | zero => simp [hq]
          | succ d => simpa [hq] using hdepth d
      | scope k =>
        rw [hfind] at hlocal hdepth
        refine ⟨?_, fun d ↦ ?_⟩
        · simpa [hq] using hlocal
        · cases d with
          | zero => simp [hq]
          | succ d => simpa [hq] using hdepth d

end Scopes

/-- What a use of a variable becomes is bound lexically. -/
theorem bindsLexically_of_visit? {p : Program Unit} (hf : Stmt.AllFormed p) {lenient : Bool}
    {a : Address} {σ : Situation} {part : Part Unit} (h : p.visit? lenient a = some (σ, part))
    (x : Bytes) : p.BindsLexically a x (σ.scopes.find x) := by
  obtain ⟨hlocal, hdepth⟩ := (reflects_visit? hf h).find (x := x)
  exact ⟨hlocal, hdepth⟩

end Program

/-! ## Expressions by themselves -/

mutual

-- Without scopes all uses of variables are global, and there is nothing to complain about.
private theorem resolveExpr_nil : (e : Expr Unit) →
    (Scopes.resolveExpr [] e).errors = [] ∧
      (Scopes.resolveExpr [] e).tree = e.mapUses fun _ ↦ Binding.global
  | .literal _ _ => ⟨rfl, rfl⟩
  | .grouping _ x =>
    let hx := resolveExpr_nil x
    ⟨hx.1, congrArg (Expr.grouping _) hx.2⟩
  | .unary _ x =>
    let hx := resolveExpr_nil x
    ⟨hx.1, congrArg (Expr.unary _) hx.2⟩
  | .binary x _ y => by
    obtain ⟨hx, hx'⟩ := resolveExpr_nil x
    obtain ⟨hy, hy'⟩ := resolveExpr_nil y
    simp only [Scopes.resolveExpr, Expr.mapUses, hx, hy, hx', hy', List.append_nil, and_self]
  | .logical x _ y => by
    obtain ⟨hx, hx'⟩ := resolveExpr_nil x
    obtain ⟨hy, hy'⟩ := resolveExpr_nil y
    simp only [Scopes.resolveExpr, Expr.mapUses, hx, hy, hx', hy', List.append_nil, and_self]
  | .variable _ _ => ⟨rfl, rfl⟩
  | .assign _ _ x =>
    let hx := resolveExpr_nil x
    ⟨hx.1, congrArg (Expr.assign _ _) hx.2⟩
  | .call c _ args => by
    obtain ⟨hc, hc'⟩ := resolveExpr_nil c
    obtain ⟨hargs, hargs'⟩ := resolveExprs_nil args
    simp only [Scopes.resolveExpr, Expr.mapUses, hc, hargs, hc', hargs', List.append_nil, and_self]

private theorem resolveExprs_nil : (es : List (Expr Unit)) →
    (Scopes.resolveExprs [] es).errors = [] ∧
      (Scopes.resolveExprs [] es).tree = Expr.mapUsesList (fun _ ↦ Binding.global) es
  | [] => ⟨rfl, rfl⟩
  | e :: es => by
    obtain ⟨he, he'⟩ := resolveExpr_nil e
    obtain ⟨hes, hes'⟩ := resolveExprs_nil es
    simp only [Scopes.resolveExprs, Expr.mapUsesList, he, hes, he', hes', List.append_nil, and_self]

end

/-- In every program that is parsed from tokens, whatever errors there are in it, each use of a
variable is bound to the innermost block or function around it that declares the variable before it,
and to the global scope if there is none. An expression by itself has no scopes around it: all uses
in it are global, and it has no errors. -/
theorem uses_are_bound_lexically (ts : List Token) (lenient : Bool) :
    let p := (parseTokens ts).tree
    let resolved := (p.resolve lenient).tree
    (∀ a name, p.part? a = some (.expr (.variable name ())) →
      ∃ b, resolved.part? a = some (.expr (.variable name b)) ∧
        p.BindsLexically a name.lexeme b) ∧
    (∀ a name value, p.part? a = some (.expr (.assign name () value)) →
      ∃ b value', resolved.part? a = some (.expr (.assign name b value')) ∧
        p.BindsLexically a name.lexeme b) ∧
    ∀ e : Expr Unit, e.resolve.errors = [] ∧ e.resolve.tree = e.mapUses fun _ ↦ .global := by
  intro p resolved
  have hf : Stmt.AllFormed p := (parseTokens_built ts).formed
  refine ⟨fun a name ha ↦ ?_, fun a name value ha ↦ ?_, resolveExpr_nil⟩
  · obtain ⟨σ, hv⟩ := p.exists_visit? lenient ha
    refine ⟨_, ?_, Program.bindsLexically_of_visit? hf hv name.lexeme⟩
    rw [Program.part?_resolve, hv]
    rfl
  · obtain ⟨σ, hv⟩ := p.exists_visit? lenient ha
    refine ⟨_, (σ.scopes.resolveExpr value).tree, ?_,
      Program.bindsLexically_of_visit? hf hv name.lexeme⟩
    rw [Program.part?_resolve, hv]
    rfl

-- The tokens of a program in which a block uses a variable of the block around it, before it
-- declares one of the same name, and which declares the outer one twice.
private def shadowTokens : List Token :=
  (scan (Bytes.ofString "{ var a; { a = a; var a; } var a; }")).tokens

private theorem shadowTokens_eq : shadowTokens =
    let keyword : Token := ⟨.var, Bytes.ofString "var", .nil, 1⟩
    let name : Token := ⟨.identifier, [97], .nil, 1⟩
    let equals : Token := ⟨.equal, [61], .nil, 1⟩
    let semicolon : Token := ⟨.semicolon, [59], .nil, 1⟩
    let opening : Token := ⟨.leftBrace, [123], .nil, 1⟩
    let closing : Token := ⟨.rightBrace, [125], .nil, 1⟩
    [opening, keyword, name, semicolon, opening, name, equals, name, semicolon, keyword, name,
      semicolon, closing, keyword, name, semicolon, closing, .endOf 1] := by
  decide +kernel

private theorem part?_shadowTokens : (parseTokens shadowTokens).tree.part? [0, 0, 1, 0] =
    some (.expr (.assign ⟨.identifier, [97], .nil, 1⟩ ()
      (.variable ⟨.identifier, [97], .nil, 1⟩ ()))) := by
  rw [shadowTokens_eq]
  rfl

private theorem part?_resolve_shadowTokens :
    ((parseTokens shadowTokens).tree.resolve false).tree.part? [0, 0, 1, 0] =
      some (.expr (.assign ⟨.identifier, [97], .nil, 1⟩ (.scope 1)
        (.variable ⟨.identifier, [97], .nil, 1⟩ (.scope 1)))) := by
  rw [shadowTokens_eq]
  rfl

/-- Both uses are bound to the outer variable. -/
theorem uses_are_bound_lexically_shadowed :
    let p := (parseTokens shadowTokens).tree
    let a : Token := ⟨.identifier, [97], .nil, 1⟩
    p.part? [0, 0, 1, 0] = some (.expr (.assign a () (.variable a ()))) ∧
    p.part? [0, 0, 0, 1, 0] = some (.expr (.variable a ())) ∧
    p.BindsLexically [0, 0, 1, 0] [97] (.scope 1) ∧
    p.BindsLexically [0, 0, 0, 1, 0] [97] (.scope 1) := by
  intro p a
  obtain ⟨hvariable, hassign, -⟩ := uses_are_bound_lexically shadowTokens false
  have hinner : p.part? [0, 0, 0, 1, 0] = some (.expr (.variable a ())) := by
    rw [Program.part?, part?_shadowTokens]
    rfl
  refine ⟨part?_shadowTokens, hinner, ?_, ?_⟩
  · obtain ⟨b, value, hb, hbinds⟩ := hassign _ _ _ part?_shadowTokens
    rw [part?_resolve_shadowTokens] at hb
    cases hb
    exact hbinds
  · obtain ⟨b, hb, hbinds⟩ := hvariable _ _ hinner
    rw [Program.part?, part?_resolve_shadowTokens] at hb
    cases hb
    exact hbinds

end Lox
