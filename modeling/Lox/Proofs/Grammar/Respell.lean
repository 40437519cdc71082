import Lox.Proofs.Grammar.Stmt
import Lox.Proofs.Scope.Rename
import Lox.Proofs.Token.Respell

/-!
# Trees with another name in some places

Which names stand in a tree has no part in the grammar. If tokens form a program, then the program
with another name in some places is formed by the tokens with this name in these places
(`DerivesProgram.respell`). A program with a local variable renamed is such a program
(`Stmt.AllRenames.respelled`).
-/

namespace Lox

/-- An expression, or the same with the name `z` in some places where the name `x` stands. -/
inductive Expr.Respelled (x z : Bytes) : Expr Unit → Expr Unit → Prop
  | literal (t : Token) (v : Literal) : Expr.Respelled x z (.literal t v) (.literal t v)
  | grouping (t : Token) {e e' : Expr Unit} (he : Expr.Respelled x z e e') :
    Expr.Respelled x z (.grouping t e) (.grouping t e')
  | unary (op : Token) {e e' : Expr Unit} (he : Expr.Respelled x z e e') :
    Expr.Respelled x z (.unary op e) (.unary op e')
  | binary (op : Token) {l l' r r' : Expr Unit} (hl : Expr.Respelled x z l l')
    (hr : Expr.Respelled x z r r') : Expr.Respelled x z (.binary l op r) (.binary l' op r')
  | logical (op : Token) {l l' r r' : Expr Unit} (hl : Expr.Respelled x z l l')
    (hr : Expr.Respelled x z r r') : Expr.Respelled x z (.logical l op r) (.logical l' op r')
  | variable (name : Token) (affected : Bool) :
    Expr.Respelled x z (.variable name ()) (.variable (name.rename affected x z) ())
  | assign (name : Token) (affected : Bool) {e e' : Expr Unit} (he : Expr.Respelled x z e e') :
    Expr.Respelled x z (.assign name () e) (.assign (name.rename affected x z) () e')
  | call (paren : Token) {callee callee' : Expr Unit} {args args' : List (Expr Unit)}
    (hcallee : Expr.Respelled x z callee callee')
    (hargs : List.Forall₂ (Expr.Respelled x z) args args') :
    Expr.Respelled x z (.call callee paren args) (.call callee' paren args')

/-- A statement, or the same with the name `z` in some places where the name `x` stands. -/
inductive Stmt.Respelled (x z : Bytes) : Stmt Unit → Stmt Unit → Prop
  | expr {e e' : Expr Unit} (he : e.Respelled x z e') : Stmt.Respelled x z (.expr e) (.expr e')
  | print (t : Token) {e e' : Expr Unit} (he : e.Respelled x z e') :
    Stmt.Respelled x z (.print t e) (.print t e')
  | var (name : Token) (affected : Bool) {init init' : Option (Expr Unit)}
    (hinit : Option.Rel (Expr.Respelled x z) init init') :
    Stmt.Respelled x z (.var name init) (.var (name.rename affected x z) init')
  | block (t : Token) {body body' : List (Stmt Unit)}
    (hbody : List.Forall₂ (Stmt.Respelled x z) body body') :
    Stmt.Respelled x z (.block t body) (.block t body')
  | ifElse (t : Token) {test test' : Expr Unit} {yes yes' : Stmt Unit}
    {no no' : Option (Stmt Unit)} (htest : test.Respelled x z test')
    (hyes : Stmt.Respelled x z yes yes') (hno : Option.Rel (Stmt.Respelled x z) no no') :
    Stmt.Respelled x z (.ifElse t test yes no) (.ifElse t test' yes' no')
  | while (t : Token) {test test' : Expr Unit} {body body' : Stmt Unit}
    (htest : test.Respelled x z test') (hbody : Stmt.Respelled x z body body') :
    Stmt.Respelled x z (.while t test body) (.while t test' body')
  | function (name : Token) (params : List Token) (affected : Bool) {body body' : List (Stmt Unit)}
    (hbody : List.Forall₂ (Stmt.Respelled x z) body body') :
    Stmt.Respelled x z (.function name params body)
      (.function name (params.map (Token.rename affected x z)) body')
  | return (t : Token) {result result' : Option (Expr Unit)}
    (hresult : Option.Rel (Expr.Respelled x z) result result') :
    Stmt.Respelled x z (.return t result) (.return t result')
  | branch (t : Token) : Stmt.Respelled x z (.branch t) (.branch t)

section Renames

variable {x z : Bytes}

/-! ## Renamed variables -/

/-- A function with other names in its body only. -/
theorem Stmt.Respelled.functionBody (name : Token) (params : List Token)
    {body body' : List (Stmt Unit)} (hbody : List.Forall₂ (Stmt.Respelled x z) body body') :
    Stmt.Respelled x z (.function name params body) (.function name params body') := by
  have h := Stmt.Respelled.function name params false hbody
  rwa [Token.map_rename_false] at h

mutual

private theorem Expr.respelled_refl : (e : Expr Unit) → e.Respelled x z e
  | .literal t v => .literal t v
  | .grouping t e => .grouping t e.respelled_refl
  | .unary t e => .unary t e.respelled_refl
  | .binary l t r => .binary t l.respelled_refl r.respelled_refl
  | .logical l t r => .logical t l.respelled_refl r.respelled_refl
  | .variable name _ => .variable name false
  | .assign name _ e => .assign name false e.respelled_refl
  | .call callee t args => .call t callee.respelled_refl (Expr.allRespelled_refl args)

private theorem Expr.allRespelled_refl :
    (es : List (Expr Unit)) → List.Forall₂ (Expr.Respelled x z) es es
  | [] => .nil
  | e :: es => .cons e.respelled_refl (Expr.allRespelled_refl es)

end

mutual

private theorem Stmt.respelled_refl : (s : Stmt Unit) → s.Respelled x z s
  | .expr e => .expr e.respelled_refl
  | .print t e => .print t e.respelled_refl
  | .var name none => .var name false .none
  | .var name (some e) => .var name false (.some e.respelled_refl)
  | .block t body => .block t (Stmt.allRespelled_refl body)
  | .ifElse t test yes none => .ifElse t test.respelled_refl yes.respelled_refl .none
  | .ifElse t test yes (some no) =>
    .ifElse t test.respelled_refl yes.respelled_refl (.some no.respelled_refl)
  | .while t test body => .while t test.respelled_refl body.respelled_refl
  | .function name params body => .functionBody name params (Stmt.allRespelled_refl body)
  | .return t none => .return t .none
  | .return t (some e) => .return t (.some e.respelled_refl)
  | .branch t => .branch t

private theorem Stmt.allRespelled_refl :
    (ss : List (Stmt Unit)) → List.Forall₂ (Stmt.Respelled x z) ss ss
  | [] => .nil
  | s :: ss => .cons s.respelled_refl (Stmt.allRespelled_refl ss)

end

mutual

private theorem Expr.respelled_renameAt (d : Nat) :
    (e : Expr Binding) → e.unbound.Respelled x z (e.renameAt x z d).unbound
  | .literal t v => .literal t v
  | .grouping t e => .grouping t (e.respelled_renameAt d)
  | .unary t e => .unary t (e.respelled_renameAt d)
  | .binary l t r => .binary t (l.respelled_renameAt d) (r.respelled_renameAt d)
  | .logical l t r => .logical t (l.respelled_renameAt d) (r.respelled_renameAt d)
  | .variable name _ => .variable name _
  | .assign name _ e => .assign name _ (e.respelled_renameAt d)
  | .call callee t args =>
    .call t (callee.respelled_renameAt d) (Expr.allRespelled_renameAllAt d args)

private theorem Expr.allRespelled_renameAllAt (d : Nat) : (es : List (Expr Binding)) →
    List.Forall₂ (Expr.Respelled x z) (Expr.unboundAll es)
      (Expr.unboundAll (Expr.renameAllAt x z d es))
  | [] => .nil
  | e :: es => .cons (e.respelled_renameAt d) (Expr.allRespelled_renameAllAt d es)

end

mutual

private theorem Stmt.respelled_renameAt (d : Nat) :
    (s : Stmt Binding) → s.unbound.Respelled x z (s.renameAt x z d).unbound
  | .expr e => .expr (e.respelled_renameAt d)
  | .print t e => .print t (e.respelled_renameAt d)
  | .var name none => .var name _ .none
  | .var name (some e) => .var name _ (.some (e.respelled_renameAt d))
  | .block t body => .block t (Stmt.allRespelled_renameAllAt (d + 1) body)
  | .ifElse t test yes none =>
    .ifElse t (test.respelled_renameAt d) (yes.respelled_renameAt d) .none
  | .ifElse t test yes (some no) =>
    .ifElse t (test.respelled_renameAt d) (yes.respelled_renameAt d)
      (.some (no.respelled_renameAt d))
  | .while t test body => .while t (test.respelled_renameAt d) (body.respelled_renameAt d)
  | .function name params body =>
    .functionBody name params (Stmt.allRespelled_renameAllAt (d + 1) body)
  | .return t none => .return t .none
  | .return t (some e) => .return t (.some (e.respelled_renameAt d))
  | .branch t => .branch t

private theorem Stmt.allRespelled_renameAllAt (d : Nat) : (ss : List (Stmt Binding)) →
    List.Forall₂ (Stmt.Respelled x z) (Stmt.unboundAll ss)
      (Stmt.unboundAll (Stmt.renameAllAt x z d ss))
  | [] => .nil
  | s :: ss => .cons (s.respelled_renameAt d) (Stmt.allRespelled_renameAllAt d ss)

end

mutual

private theorem Stmt.Renames.respelled : {s s' : Stmt Binding} → Stmt.Renames x z s s' →
    s.unbound.Respelled x z s'.unbound
  | _, _, .block t _ => .block t (Stmt.allRespelled_renameAllAt 0 _)
  | _, _, .function name _ => .function name _ true (Stmt.allRespelled_renameAllAt 0 _)
  | _, _, .inBlock t h => .block t h.respelled
  | _, _, .inFunction name params h => .functionBody name params h.respelled
  | _, _, .inYes t test none h => .ifElse t test.unbound.respelled_refl h.respelled .none
  | _, _, .inYes t test (some no) h =>
    .ifElse t test.unbound.respelled_refl h.respelled (.some no.unbound.respelled_refl)
  | _, _, .inNo t test yes h =>
    .ifElse t test.unbound.respelled_refl yes.unbound.respelled_refl (.some h.respelled)
  | _, _, .inWhile t test h => .while t test.unbound.respelled_refl h.respelled

/-- A program with a local variable renamed is the same but for some names. -/
theorem Stmt.AllRenames.respelled : {ss ss' : List (Stmt Binding)} → Stmt.AllRenames x z ss ss' →
    List.Forall₂ (Stmt.Respelled x z) (Stmt.unboundAll ss) (Stmt.unboundAll ss')
  | _, _, .here ss h => .cons h.respelled (Stmt.allRespelled_refl (Stmt.unboundAll ss))
  | _, _, .later s h => .cons s.unbound.respelled_refl h.respelled

end

end Renames

namespace Grammar

variable {x z : Bytes}

/-! ## Expressions -/

private theorem respelled_rename {t : Token} (h : t.kind = .identifier) (affected : Bool) :
    t.Respelled x z (t.rename affected x z) := by
  unfold Token.rename newName
  split
  · rename_i hx
    exact .name h (beq_iff_eq.mp (Bool.and_eq_true_iff.mp hx).2)
  · exact .same

-- Pieces of a token list that are respelled one by one.
private theorem Listed.respell {pieces pieces' : List (List Token)} {ts : List Token}
    (h : Listed pieces ts)
    (hpieces : List.Forall₂ (List.Forall₂ (Token.Respelled x z)) pieces pieces') :
    ∃ ts', List.Forall₂ (Token.Respelled x z) ts ts' ∧ Listed pieces' ts' := by
  induction h generalizing pieces' with
  | nil =>
    cases hpieces
    exact ⟨[], .nil, .nil⟩
  | one =>
    cases hpieces with
    | cons hts hnil =>
      cases hnil
      exact ⟨_, hts, .one _⟩
  | cons hne hcomma _ ih =>
    cases hpieces with
    | cons hus hpieces =>
      obtain ⟨ts', hts', hlisted⟩ := ih hpieces
      refine ⟨_, List.rel_append hus (.cons .same hts'), .cons ?_ hcomma hlisted⟩
      rintro rfl
      cases hpieces
      exact hne rfl

-- An operator between two operands that are respelled.
private theorem respelled_node {l : Level} {node : Expr Unit → Token → Expr Unit → Expr Unit}
    (hnode : l.node? = some node) {op : Token} {a b e : Expr Unit}
    (h : (node a op b).Respelled x z e) :
    ∃ a' b', e = node a' op b' ∧ a.Respelled x z a' ∧ b.Respelled x z b' := by
  have hcases : node = .logical ∨ node = .binary := by
    cases l <;> simp only [Level.node?, Option.some.injEq, reduceCtorEq] at hnode <;> simp [← hnode]
  rcases hcases with rfl | rfl
  · cases h with
    | logical _ ha hb => exact ⟨_, _, rfl, ha, hb⟩
  · cases h with
    | binary _ ha hb => exact ⟨_, _, rfl, ha, hb⟩

-- Arguments that are respelled one by one.
private theorem exists_args {args : List (List Token × Expr Unit)}
    (h : ∀ a ∈ args, ∀ e, a.2.Respelled x z e →
      ∃ ts, List.Forall₂ (Token.Respelled x z) a.1 ts ∧ Derives .assignment ts e)
    {es : List (Expr Unit)} (hes : List.Forall₂ (Expr.Respelled x z) (args.map Prod.snd) es) :
    ∃ args' : List (List Token × Expr Unit), es = args'.map Prod.snd ∧
      List.Forall₂ (List.Forall₂ (Token.Respelled x z)) (args.map Prod.fst) (args'.map Prod.fst) ∧
      ∀ a ∈ args', Derives .assignment a.1 a.2 := by
  induction args generalizing es with
  | nil =>
    cases hes
    exact ⟨[], rfl, .nil, by simp⟩
  | cons a args ih =>
    obtain ⟨ha, h⟩ := List.forall_mem_cons.mp h
    cases hes with
    | @cons _ e _ es he hes =>
      obtain ⟨ts, hts, hd⟩ := ha e he
      obtain ⟨args', rfl, hpieces, hargs'⟩ := ih h hes
      exact ⟨(ts, e) :: args', rfl, .cons hts hpieces, List.forall_mem_cons.mpr ⟨hd, hargs'⟩⟩

/-- An expression with another name in some places is formed by tokens with this name in these
places. -/
theorem Derives.respell {l : Level} {ts : List Token} {e : Expr Unit} (h : Derives l ts e)
    {e' : Expr Unit} (he : e.Respelled x z e') :
    ∃ ts', List.Forall₂ (Token.Respelled x z) ts ts' ∧ Derives l ts' e' := by
  induction h generalizing e' with
  | tighter _ ih =>
    obtain ⟨ts', hts', hd⟩ := ih he
    exact ⟨ts', hts', .tighter hd⟩
  | assign hname hequals _ ih =>
    cases he with
    | assign _ affected he =>
      obtain ⟨ts', hts', hd⟩ := ih he
      exact ⟨_, .cons (respelled_rename hname affected) (.cons .same hts'),
        .assign hname hequals hd⟩
  | chain hnode hop _ _ ihx ihy =>
    obtain ⟨a', b', rfl, ha, hb⟩ := respelled_node hnode he
    obtain ⟨ts', hts', hda⟩ := ihx ha
    obtain ⟨us', hus', hdb⟩ := ihy hb
    exact ⟨_, List.rel_append hts' (.cons .same hus'), .chain hnode hop hda hdb⟩
  | unary hop _ ih =>
    cases he with
    | unary _ he =>
      obtain ⟨ts', hts', hd⟩ := ih he
      exact ⟨_, .cons .same hts', .unary hop hd⟩
  | call _ hleft _ hlisted hcount hright ihcallee ihargs =>
    cases he with
    | call _ hcallee hargs =>
      obtain ⟨ts', hts', hd⟩ := ihcallee hcallee
      obtain ⟨args', rfl, hpieces, hargs'⟩ := exists_args (fun a ha e he ↦ ihargs a ha he) hargs
      obtain ⟨us', hus', hlisted'⟩ := hlisted.respell hpieces
      have hlength : args'.length ≤ 255 := by
        have hlength := hpieces.length_eq
        rw [List.length_map, List.length_map] at hlength
        omega
      exact ⟨_, List.rel_append hts' (.cons .same (List.rel_append hus' (.cons .same .nil))),
        .call hd hleft hargs' hlisted' hlength hright⟩
  | literal hv =>
    cases he
    exact ⟨_, .cons .same .nil, .literal hv⟩
  | «variable» hname =>
    cases he with
    | «variable» _ affected =>
      exact ⟨_, .cons (respelled_rename hname affected) .nil, .variable hname⟩
  | grouping hleft _ hright ih =>
    cases he with
    | grouping _ he =>
      obtain ⟨ts', hts', hd⟩ := ih he
      exact ⟨_, .cons .same (List.rel_append hts' (.cons .same .nil)), .grouping hleft hd hright⟩

/-! ## Statements -/

private theorem Optional.respell {ts : List Token} {e : Option (Expr Unit)} (h : Optional ts e)
    {e' : Option (Expr Unit)} (he : Option.Rel (Expr.Respelled x z) e e') :
    ∃ ts', List.Forall₂ (Token.Respelled x z) ts ts' ∧ Optional ts' e' := by
  cases h with
  | none =>
    cases he
    exact ⟨[], .nil, .none⟩
  | some h =>
    cases he with
    | some he =>
      obtain ⟨ts', hts', hd⟩ := h.respell he
      exact ⟨ts', hts', .some hd⟩

private theorem VarDeclaration.respell {ts : List Token} {s : Stmt Unit} (h : VarDeclaration ts s)
    {s' : Stmt Unit} (hs : s.Respelled x z s') :
    ∃ ts', List.Forall₂ (Token.Respelled x z) ts ts' ∧ VarDeclaration ts' s' := by
  cases h with
  | plain hkeyword hname hsemicolon =>
    cases hs with
    | var _ affected hinit =>
      cases hinit
      exact ⟨_, .cons .same (.cons (respelled_rename hname affected) (.cons .same .nil)),
        .plain hkeyword hname hsemicolon⟩
  | initialized hkeyword hname hequals hinit hsemicolon =>
    cases hs with
    | var _ affected hs =>
      cases hs with
      | some he =>
        obtain ⟨ts', hts', hd⟩ := hinit.respell he
        exact ⟨_, .cons .same (.cons (respelled_rename hname affected)
            (.cons .same (List.rel_append hts' (.cons .same .nil)))),
          .initialized hkeyword hname hequals hd hsemicolon⟩

private theorem ExprStatement.respell {ts : List Token} {s : Stmt Unit} (h : ExprStatement ts s)
    {s' : Stmt Unit} (hs : s.Respelled x z s') :
    ∃ ts', List.Forall₂ (Token.Respelled x z) ts ts' ∧ ExprStatement ts' s' := by
  cases h with
  | intro he hsemicolon =>
    cases hs with
    | expr hs =>
      obtain ⟨ts', hts', hd⟩ := he.respell hs
      exact ⟨_, List.rel_append hts' (.cons .same .nil), .intro hd hsemicolon⟩

private theorem Initializer.respell {ts : List Token} {s : Option (Stmt Unit)}
    (h : Initializer ts s) {s' : Option (Stmt Unit)}
    (hs : Option.Rel (Stmt.Respelled x z) s s') :
    ∃ ts', List.Forall₂ (Token.Respelled x z) ts ts' ∧ Initializer ts' s' := by
  cases h with
  | none hsemicolon =>
    cases hs
    exact ⟨_, .cons .same .nil, .none hsemicolon⟩
  | var h =>
    cases hs with
    | some hs =>
      obtain ⟨ts', hts', hd⟩ := h.respell hs
      exact ⟨ts', hts', .var hd⟩
  | expr h =>
    cases hs with
    | some hs =>
      obtain ⟨ts', hts', hd⟩ := h.respell hs
      exact ⟨ts', hts', .expr hd⟩

private theorem Parameters.respell {ts params : List Token} (h : Parameters ts params)
    (affected : Bool) :
    ∃ ts', List.Forall₂ (Token.Respelled x z) ts ts' ∧
      Parameters ts' (params.map (Token.rename affected x z)) := by
  have hpieces : List.Forall₂ (List.Forall₂ (Token.Respelled x z)) (params.map ([·]))
      ((params.map (Token.rename affected x z)).map ([·])) := by
    rw [List.map_map]
    exact List.forall₂_map_right_iff.mpr (List.forall₂_map_left_iff.mpr (List.forall₂_same.mpr
      fun p hp ↦ .cons (respelled_rename (h.names p hp) affected) .nil))
  obtain ⟨ts', hts', hlisted⟩ := h.listed.respell hpieces
  refine ⟨ts', hts', ?_, hlisted, ?_⟩
  · intro p hp
    obtain ⟨q, hq, rfl⟩ := List.mem_map.mp hp
    exact h.names q hq
  · rw [List.length_map]
    exact h.count

section Loops

variable {keyword : Token} {before behind : List (Stmt Unit)} {s s' : Stmt Unit}

private theorem exists_append {α : Type} {R : α → α → Prop} {l₁ l₂ m : List α}
    (h : List.Forall₂ R (l₁ ++ l₂) m) :
    ∃ m₁ m₂, m = m₁ ++ m₂ ∧ List.Forall₂ R l₁ m₁ ∧ List.Forall₂ R l₂ m₂ := by
  induction l₁ generalizing m with
  | nil => exact ⟨[], m, rfl, .nil, h⟩
  | cons a l₁ ih =>
    cases h with
    | cons ha h =>
      obtain ⟨m₁, m₂, rfl, h₁, h₂⟩ := ih h
      exact ⟨_ :: m₁, m₂, rfl, .cons ha h₁, h₂⟩

private theorem exists_enclosed (h : (enclosed keyword before s behind).Respelled x z s') :
    ∃ before' t behind', s' = enclosed keyword before' t behind' ∧
      List.Forall₂ (Stmt.Respelled x z) before before' ∧ s.Respelled x z t ∧
      List.Forall₂ (Stmt.Respelled x z) behind behind' := by
  unfold enclosed at h
  split at h
  · rename_i hempty
    simp only [Bool.and_eq_true, List.isEmpty_iff] at hempty
    obtain ⟨rfl, rfl⟩ := hempty
    exact ⟨[], s', [], rfl, .nil, h, .nil⟩
  · rename_i hempty
    cases h with
    | block _ hbody =>
      obtain ⟨before', rest, rfl, hbefore, hrest⟩ := exists_append hbody
      cases hrest with
      | @cons _ t _ behind' hs hbehind =>
        refine ⟨before', t, behind', ?_, hbefore, hs, hbehind⟩
        rw [enclosed, if_neg]
        intro hempty'
        simp only [Bool.and_eq_true, List.isEmpty_iff] at hempty' hempty
        rw [hempty'.1, List.forall₂_nil_right_iff] at hbefore
        rw [hempty'.2, List.forall₂_nil_right_iff] at hbehind
        exact hempty ⟨hbefore, hbehind⟩

-- A `for` loop with another name in some places stands for the loop with this name in its parts.
private theorem exists_whileForm {init : Option (Stmt Unit)} {test increment : Option (Expr Unit)}
    (h : (whileForm keyword init test increment s).Respelled x z s') :
    ∃ init' test' increment' t, s' = whileForm keyword init' test' increment' t ∧
      Option.Rel (Stmt.Respelled x z) init init' ∧ Option.Rel (Expr.Respelled x z) test test' ∧
      Option.Rel (Expr.Respelled x z) increment increment' ∧ s.Respelled x z t := by
  obtain ⟨before', loop, behind', rfl, hbefore, hloop, hbehind⟩ := exists_enclosed h
  cases hbehind
  cases hloop with
  | «while» _ htest hbody =>
    obtain ⟨before'', t, behind', rfl, hbefore'', ht, hbehind⟩ := exists_enclosed hbody
    cases hbefore''
    obtain ⟨init', rfl, hinit⟩ : ∃ init', before' = Option.toList init' ∧
        Option.Rel (Stmt.Respelled x z) init init' := by
      cases init with
      | none =>
        cases hbefore
        exact ⟨none, rfl, .none⟩
      | some s =>
        cases hbefore with
        | cons hs hnil =>
          cases hnil
          exact ⟨some _, rfl, .some hs⟩
    obtain ⟨increment', rfl, hincrement⟩ : ∃ increment',
        behind' = (Option.toList increment').map .expr ∧
          Option.Rel (Expr.Respelled x z) increment increment' := by
      cases increment with
      | none =>
        cases hbehind
        exact ⟨none, rfl, .none⟩
      | some e =>
        cases hbehind with
        | cons he hnil =>
          cases hnil
          cases he with
          | expr he => exact ⟨some _, rfl, .some he⟩
    cases test with
    | none =>
      cases htest
      exact ⟨init', none, increment', t, rfl, hinit, .none, hincrement, ht⟩
    | some e => exact ⟨init', some _, increment', t, rfl, hinit, .some htest, hincrement, ht⟩

end Loops

-- Statements that are respelled one by one.
private theorem exists_respelled_parts {nearest : Prop} {body : List Part}
    (h : ∀ d ∈ body, ∀ s, d.stmt.Respelled x z s →
      ∃ ts, List.Forall₂ (Token.Respelled x z) d.tokens ts ∧
        DerivesStmt nearest .declaration d.isOpen ts s)
    {ss : List (Stmt Unit)} (hss : List.Forall₂ (Stmt.Respelled x z) (body.map Part.stmt) ss) :
    ∃ body' : List Part, ss = body'.map Part.stmt ∧
      List.Forall₂ (Token.Respelled x z) (body.flatMap Part.tokens) (body'.flatMap Part.tokens) ∧
      ∀ d ∈ body', DerivesStmt nearest .declaration d.isOpen d.tokens d.stmt := by
  induction body generalizing ss with
  | nil =>
    cases hss
    exact ⟨[], rfl, .nil, by simp⟩
  | cons d body ih =>
    obtain ⟨hd, h⟩ := List.forall_mem_cons.mp h
    cases hss with
    | @cons _ s _ ss hs hss =>
      obtain ⟨ts, hts, hds⟩ := hd s hs
      obtain ⟨body', rfl, htokens, hbody'⟩ := ih h hss
      exact ⟨⟨ts, s, d.isOpen⟩ :: body', rfl, List.rel_append hts htokens,
        List.forall_mem_cons.mpr ⟨hds, hbody'⟩⟩

/-- A statement with another name in some places is formed by tokens with this name in these
places. -/
theorem DerivesStmt.respell {nearest : Prop} {place : Place} {isOpen : Bool} {ts : List Token}
    {s : Stmt Unit} (h : DerivesStmt nearest place isOpen ts s) {s' : Stmt Unit}
    (hs : s.Respelled x z s') :
    ∃ ts', List.Forall₂ (Token.Respelled x z) ts ts' ∧ DerivesStmt nearest place isOpen ts' s' := by
  induction h generalizing s' with
  | statement _ ih =>
    obtain ⟨ts', hts', hd⟩ := ih hs
    exact ⟨ts', hts', .statement hd⟩
  | var h =>
    obtain ⟨ts', hts', hd⟩ := h.respell hs
    exact ⟨ts', hts', .var hd⟩
  | function hkeyword hname hleft hparams hright hopening _ hclosing ih =>
    cases hs with
    | function _ _ affected hbody =>
      obtain ⟨ts', hts', hparams'⟩ := hparams.respell (x := x) (z := z) affected
      obtain ⟨body', rfl, htokens, hbody'⟩ :=
        exists_respelled_parts (fun d hd s hs ↦ ih d hd hs) hbody
      exact ⟨_, .cons .same (.cons .same (.cons .same (List.rel_append hts'
          (.cons .same (.cons .same (List.rel_append htokens (.cons .same .nil))))))),
        .function hkeyword hname hleft hparams' hright hopening hbody' hclosing⟩
  | expr h =>
    obtain ⟨ts', hts', hd⟩ := h.respell hs
    exact ⟨ts', hts', .expr hd⟩
  | print hkeyword he hsemicolon =>
    cases hs with
    | print _ hs =>
      obtain ⟨ts', hts', hd⟩ := he.respell hs
      exact ⟨_, .cons .same (List.rel_append hts' (.cons .same .nil)),
        .print hkeyword hd hsemicolon⟩
  | «return» hkeyword hresult hsemicolon =>
    cases hs with
    | «return» _ hs =>
      obtain ⟨ts', hts', hd⟩ := hresult.respell hs
      exact ⟨_, .cons .same (List.rel_append hts' (.cons .same .nil)),
        .return hkeyword hd hsemicolon⟩
  | branch hkeyword hsemicolon =>
    cases hs
    exact ⟨_, Token.respelled_all_refl x z _, .branch hkeyword hsemicolon⟩
  | block hopening _ hclosing ih =>
    cases hs with
    | block _ hbody =>
      obtain ⟨body', rfl, htokens, hbody'⟩ :=
        exists_respelled_parts (fun d hd s hs ↦ ih d hd hs) hbody
      exact ⟨_, .cons .same (List.rel_append htokens (.cons .same .nil)),
        .block hopening hbody' hclosing⟩
  | «if» hkeyword hleft htest hright _ ih =>
    cases hs with
    | ifElse _ hs hyes hno =>
      cases hno
      obtain ⟨ts', hts', htest'⟩ := htest.respell hs
      obtain ⟨us', hus', hyes'⟩ := ih hyes
      exact ⟨_, .cons .same (.cons .same (List.rel_append hts' (.cons .same hus'))),
        .if hkeyword hleft htest' hright hyes'⟩
  | ifElse hkeyword hleft htest hright _ hels _ hnearest ihyes ihno =>
    cases hs with
    | ifElse _ hs hyes hno =>
      cases hno with
      | some hno =>
        obtain ⟨ts', hts', htest'⟩ := htest.respell hs
        obtain ⟨us', hus', hyes'⟩ := ihyes hyes
        obtain ⟨vs', hvs', hno'⟩ := ihno hno
        exact ⟨_, .cons .same (.cons .same (List.rel_append hts'
            (.cons .same (List.rel_append hus' (.cons .same hvs'))))),
          .ifElse hkeyword hleft htest' hright hyes' hels hno' hnearest⟩
  | «while» hkeyword hleft htest hright _ ih =>
    cases hs with
    | «while» _ hs hbody =>
      obtain ⟨ts', hts', htest'⟩ := htest.respell hs
      obtain ⟨us', hus', hbody'⟩ := ih hbody
      exact ⟨_, .cons .same (.cons .same (List.rel_append hts' (.cons .same hus'))),
        .while hkeyword hleft htest' hright hbody'⟩
  | «for» hkeyword hleft hinit htest hsemicolon hincrement hright _ ih =>
    obtain ⟨init', test', increment', body', rfl, hsinit, hstest, hsincrement, hsbody⟩ :=
      exists_whileForm hs
    obtain ⟨ts', hts', hinit'⟩ := hinit.respell hsinit
    obtain ⟨us', hus', htest'⟩ := htest.respell hstest
    obtain ⟨vs', hvs', hincrement'⟩ := hincrement.respell hsincrement
    obtain ⟨ws', hws', hbody'⟩ := ih hsbody
    exact ⟨_, .cons .same (.cons .same (List.rel_append hts' (List.rel_append hus'
        (.cons .same (List.rel_append hvs' (.cons .same hws')))))),
      .for hkeyword hleft hinit' htest' hsemicolon hincrement' hright hbody'⟩

/-- A program with another name in some places is formed by tokens with this name in these
places. -/
theorem DerivesProgram.respell {nearest : Prop} {ts : List Token} {p p' : Program Unit}
    (h : DerivesProgram nearest ts p) (hp : List.Forall₂ (Stmt.Respelled x z) p p') :
    ∃ ts', List.Forall₂ (Token.Respelled x z) ts ts' ∧ DerivesProgram nearest ts' p' := by
  obtain ⟨parts, hparts, rfl, rfl⟩ := h
  obtain ⟨parts', rfl, htokens, hparts'⟩ :=
    exists_respelled_parts (fun d hd s hs ↦ (hparts d hd).respell hs) hp
  exact ⟨_, htokens, parts', hparts', rfl, rfl⟩

end Grammar
end Lox
