import Lox.Proofs.Grammar.Respell
import Lox.Proofs.Parser.ReadsStmt
import Lox.Proofs.Repl
import Lox.Proofs.Scope.Fresh
import Lox.Proofs.Session
import Lox.Syntax.Traversal

/-!
# Names of local variables do not matter

A local variable or a parameter can be given another name, which no token of the source has. There
is a source with this name in the place of the declaration and of the uses that are bound to it. It
has no static errors either, its uses of variables are bound to the same scopes, and running it does
the same, whatever was run before (`Hosted.renamed_local_runs_alike`).
-/

namespace Lox

/-! ## Uses of variables -/

namespace Visit

/-- How the uses of variables that are met are bound, and which of them are assignments. -/
def bindings (visits : List (Visit Binding)) : List (Bool × Binding) :=
  (visits.filterMap use?).map Prod.snd

private theorem bindings_append (vs vs' : List (Visit Binding)) :
    bindings (vs ++ vs') = bindings vs ++ bindings vs' := by
  simp [bindings]

private theorem bindings_around (node : Node Binding) (children : List (Visit Binding)) :
    bindings (around (fun _ ↦ true) node children) =
      ((use? (.enter node)).map Prod.snd).toList ++ bindings children := by
  have hleave : (Visit.leave : Visit Binding).use? = none := rfl
  cases hnode : (Visit.enter node).use? <;> simp [around, bindings, hnode, hleave]

end Visit

section Uses

open Visit

variable {same : Prop}

mutual

private theorem Expr.Like.bindings_eq {names : List Renaming} :
    (e : Expr Binding) → {e' : Expr Binding} → Expr.Like same names e e' →
      bindings (ofExpr (fun _ ↦ true) e') = bindings (ofExpr (fun _ ↦ true) e)
  | .literal _ _, _, .literal _ _ _ => rfl
  | .grouping _ e, _, .grouping _ _ h => by
    simp only [ofExpr, bindings_around, use?, h.bindings_eq e]
  | .unary _ e, _, .unary _ h => by
    simp only [ofExpr, bindings_around, use?, h.bindings_eq e]
  | .binary l _ r, _, .binary hl _ hr => by
    simp only [ofExpr, bindings_around, bindings_append, use?, hl.bindings_eq l, hr.bindings_eq r]
  | .logical l _ r, _, .logical hl _ hr => by
    simp only [ofExpr, bindings_around, bindings_append, use?, hl.bindings_eq l, hr.bindings_eq r]
  | .variable _ _, _, .variable _ _ => rfl
  | .assign _ _ e, _, .assign _ _ h => by
    simp only [ofExpr, bindings_around, use?, h.bindings_eq e]
    rfl
  | .call c _ args, _, .call hc _ hargs => by
    simp only [ofExpr, bindings_around, bindings_append, use?, hc.bindings_eq c,
      hargs.bindings_eq args]

private theorem Expr.AllLike.bindings_eq {names : List Renaming} :
    (es : List (Expr Binding)) → {es' : List (Expr Binding)} → Expr.AllLike same names es es' →
      bindings (ofExprs (fun _ ↦ true) es') = bindings (ofExprs (fun _ ↦ true) es)
  | [], _, .nil => rfl
  | e :: es, _, .cons h hs => by
    simp only [ofExprs, bindings_append, h.bindings_eq e, hs.bindings_eq es]

end

mutual

private theorem Stmt.Like.bindings_eq : (s : Stmt Binding) → {s' : Stmt Binding} →
    {names : List Renaming} → Stmt.Like same names s s' →
      bindings (ofStmt (fun _ ↦ true) s') = bindings (ofStmt (fun _ ↦ true) s)
  | .expr e, _, _, .expr h => by
    simp only [ofStmt, bindings_around, use?, h.bindings_eq e]
  | .print _ e, _, _, .print _ _ h => by
    simp only [ofStmt, bindings_around, use?, h.bindings_eq e]
  | .var _ none, _, _, .declare _ => rfl
  | .var _ (some e), _, _, .init _ h => by
    simp only [ofStmt, bindings_around, use?, h.bindings_eq e]
  | .block _ body, _, _, .block _ _ _ h => by
    simp only [ofStmt, bindings_around, use?, h.bindings_eq body]
  | .ifElse _ test yes none, _, _, .ifOnly _ _ htest hyes => by
    simp only [ofStmt, bindings_around, bindings_append, use?, htest.bindings_eq test,
      hyes.bindings_eq yes]
  | .ifElse _ test yes (some no), _, _, .ifElse _ _ htest hyes hno => by
    simp only [ofStmt, bindings_around, bindings_append, use?, htest.bindings_eq test,
      hyes.bindings_eq yes, hno.bindings_eq no]
  | .while _ test body, _, _, .while _ _ htest hbody => by
    simp only [ofStmt, bindings_around, bindings_append, use?, htest.bindings_eq test,
      hbody.bindings_eq body]
  | .function _ _ body, _, _, .function _ _ _ _ h => by
    simp only [ofStmt, bindings_around, use?, h.bindings_eq body]
  | .return _ none, _, _, .returnNil _ => rfl
  | .return _ (some e), _, _, .return _ h => by
    simp only [ofStmt, bindings_around, use?, h.bindings_eq e]
  | .branch _, _, _, .branch _ => rfl

private theorem Stmt.AllLike.bindings_eq :
    (ss : List (Stmt Binding)) → {ss' : List (Stmt Binding)} → {names : List Renaming} →
      Stmt.AllLike same names ss ss' →
      bindings (ofStmts (fun _ ↦ true) ss') = bindings (ofStmts (fun _ ↦ true) ss)
  | [], _, _, .nil => rfl
  | s :: ss, _, _, .cons h hs => by
    simp only [ofStmts, bindings_append, h.bindings_eq s, hs.bindings_eq ss]

end

/-- Programs that are alike have their uses of variables bound to the same scopes. -/
theorem Program.map_snd_uses {p p' : Program Binding} (h : Stmt.AllLike same [] p p') :
    (Program.uses p').map Prod.snd = (Program.uses p).map Prod.snd :=
  h.bindings_eq p

end Uses

/-! ## A machine and itself -/

section Same

variable {strict : Prop}

private theorem renamed_head (n : Nat) (t : Token) :
    t.Renamed True ((List.replicate n (1 : Renaming)).headD 1) t := by
  rw [Scopes.headD_replicate]
  exact .refl t

mutual

/-- An expression that fits scopes is like itself. -/
theorem Expr.Fit.like_self {scopes : Scopes} : (e : Expr Binding) → e.Fit strict scopes →
    Expr.Like True (List.replicate scopes.length 1) e e
  | .literal t v, _ => .literal t t v
  | .grouping t e, h => .grouping t t (Expr.Fit.like_self e h)
  | .unary t e, h => .unary (.refl t) (Expr.Fit.like_self e h.2)
  | .binary l t r, h =>
    .binary (Expr.Fit.like_self l h.1) (.refl t) (Expr.Fit.like_self r h.2.2)
  | .logical l t r, h =>
    .logical (Expr.Fit.like_self l h.1) (.refl t) (Expr.Fit.like_self r h.2)
  | .variable name _, h =>
    .variable (h.1 ▸ scopes.renaming?_find name.lexeme) (.refl name)
  | .assign name _ e, h =>
    .assign (h.1 ▸ scopes.renaming?_find name.lexeme) (.refl name)
      (Expr.Fit.like_self e h.2)
  | .call c t args, h =>
    .call (Expr.Fit.like_self c h.1) (.refl t) (Expr.AllFit.like_self args h.2)

private theorem Expr.AllFit.like_self {scopes : Scopes} : (es : List (Expr Binding)) →
    Expr.AllFit strict scopes es → Expr.AllLike True (List.replicate scopes.length 1) es es
  | [], _ => .nil
  | e :: es, h => .cons (Expr.Fit.like_self e h.1) (Expr.AllFit.like_self es h.2)

end

private theorem Scopes.length_after {β : Type} (scopes : Scopes) (s : Stmt β) :
    (scopes.after s).length = scopes.length := by
  cases s with
  | var name _ => exact scopes.length_record name.lexeme true
  | function name _ _ => exact scopes.length_record name.lexeme true
  | _ => rfl

mutual

/-- A statement that fits scopes is like itself. -/
theorem Stmt.Fit.like_self {scopes : Scopes} : (s : Stmt Binding) → s.Fit strict scopes →
    Stmt.Like True (List.replicate scopes.length 1) s s
  | .expr e, h => .expr (Expr.Fit.like_self e h)
  | .print t e, h => .print t t (Expr.Fit.like_self e h)
  | .var name none, _ => .declare (renamed_head _ name)
  | .var name (some e), h => by
    have he := Expr.Fit.like_self e h
    rw [Scopes.length_record] at he
    exact .init (renamed_head _ name) he
  | .block t body, h => .block t t 1 (Stmt.AllFit.like_self body h)
  | .ifElse t test yes none, h =>
    .ifOnly t t (Expr.Fit.like_self test h.1) (Stmt.Fit.like_self yes h.2)
  | .ifElse t test yes (some no), h =>
    .ifElse t t (Expr.Fit.like_self test h.1) (Stmt.Fit.like_self yes h.2.1)
      (Stmt.Fit.like_self no h.2.2)
  | .while t test body, h =>
    .while t t (Expr.Fit.like_self test h.1) (Stmt.Fit.like_self body h.2)
  | .function name params body, h => by
    have hbody := Stmt.AllFit.like_self body h
    rw [Scopes.length_inside] at hbody
    refine .function 1 (.refl name) ?_ (List.forall₂_same.mpr fun p _ ↦ .refl p) hbody
    rw [Scopes.headD_replicate]
    rfl
  | .return t none, _ => .returnNil (.refl t)
  | .return t (some e), h => .return (.refl t) (Expr.Fit.like_self e h)
  | .branch t, _ => .branch (.refl t)

private theorem Stmt.AllFit.like_self {scopes : Scopes} : (ss : List (Stmt Binding)) →
    Stmt.AllFit strict scopes ss → Stmt.AllLike True (List.replicate scopes.length 1) ss ss
  | [], _ => .nil
  | s :: ss, h => by
    have hss := Stmt.AllFit.like_self ss h.2
    rw [Scopes.length_after] at hss
    exact .cons (Stmt.Fit.like_self s h.1) hss

end

-- The environments of open scopes have no other names.
private theorem Context.Matches.fits {h : Heap} {e : EnvId} {context : Context}
    (hcontext : context.Matches h e) :
    World.Fits (fun _ ↦ 1) h e (List.replicate context.length 1) := by
  induction context generalizing e with
  | nil => exact hcontext
  | cons o rest ih =>
    obtain ⟨-, -, -, p, hp, hrest⟩ := hcontext
    exact ⟨rfl, p, hp, ih hrest⟩

variable {k : Terms} {t : Trace} {m : Machine}

private theorem Terms.Good.like_self {v : Value} (h : k.Good t m v) :
    Value.Like True (fun _ ↦ 1) m.heap v v := by
  cases v with
  | function f =>
    have hbody := Stmt.AllFit.like_self f.body h.body
    rw [Scopes.length_declareParams, List.length_cons, Context.scopes, List.length_map] at hbody
    exact .function ⟨rfl, rfl, rfl, 1, _, h.scopes.fits,
      List.forall₂_same.mpr fun p _ ↦ .refl p, hbody⟩
  | builtin f => exact .builtin f fun _ ↦ trivial
  | nil => exact .nil
  | bool b => exact .bool b
  | number x => exact .number x
  | text s => exact .text s

/-- A sound machine is similar to itself. -/
theorem Terms.Sound.similar_self (h : k.Sound t m) : m.Similar True (fun _ ↦ 1) m := by
  refine ⟨rfl, h.exists_global, rfl, fun _ ↦ rfl, fun e x ↦ ?_, rfl,
    List.forall₂_same.mpr fun _ _ ↦ ⟨rfl, fun _ ↦ rfl⟩, rfl, rfl, rfl⟩
  rw [Equiv.Perm.one_apply]
  cases hv : m.heap.lookup e x with
  | none => exact .none
  | some v => exact .some (h.values e x v hv).like_self

end Same

/-! ## Runs -/

-- Outcomes of code that is alike, on the same lines.
private theorem result_of_similar {W : World} {o o' : Outcome Unit}
    (h : Outcome.Similar True (fun _ _ _ _ ↦ True) W o o') :
    o'.result.1 = o.result.1 ∧ o'.result.2.printed = o.result.2.printed := by
  cases h with
  | done hm _ => exact ⟨rfl, hm.printed⟩
  | failed hm hf =>
    refine ⟨?_, hm.printed⟩
    cases hf with
    | runtime _ hsame =>
      rw [hsame trivial]
      rfl
    | refl => rfl

/-- Sources without static errors whose programs are alike do the same on a sound machine. -/
theorem Terms.runSource_agrees {k : Terms} (hstrict : k.strict) {t : Trace} {m : Machine}
    (hsound : k.Sound t m) {lenient : Bool} {src src' : Bytes}
    (hp : (parseProgram src).errors = [])
    (hr : ((parseProgram src).tree.resolve lenient).errors = [])
    (hp' : (parseProgram src').errors = [])
    (hr' : ((parseProgram src').tree.resolve lenient).errors = [])
    (hlike : Stmt.AllLike True [] (boundProgram lenient src) (boundProgram lenient src'))
    (fuel : Nat) :
    (m.runSource fuel lenient src').1 = (m.runSource fuel lenient src).1 ∧
      (m.runSource fuel lenient src').2.printed = (m.runSource fuel lenient src).2.printed := by
  have hfit : Stmt.AllFit k.strict [] (boundProgram lenient src) :=
    Program.fit_resolve (parseTokens_built _).formed fun _ ↦ hr
  have htop : k.Sound t m.atTopLevel := hsound.of_eq rfl rfl
  obtain ⟨W, -, hend, -⟩ := Terms.interpret_agrees hstrict fuel hsound htop.similar_self hfit hlike
  rw [Machine.runSource_eq hp hr, Machine.runSource_eq hp' hr']
  exact result_of_similar hend

/-- The machine of a session with programs that have no static errors is sound. -/
theorem Hosted.exists_sound (clock : Option Int) (firstId : Nat) {script : List (Nat × Request)}
    (h : ∀ entry ∈ script, entry.2.Accepted) :
    ∃ t, Terms.Sound ⟨True, fun _ ↦ True⟩ t ((start clock firstId).after script).machine := by
  have hsession : Terms.SoundSession ⟨True, fun _ ↦ True⟩
      ((Recorded.start clock firstId).after script) :=
    (Terms.soundSession_start trivial clock firstId).after fun entry he ↦
      ⟨fun _ ↦ h entry he, fun _ _ _ _ _ ↦ trivial⟩
  have hsound := hsession.machine
  rw [Recorded.hosted_after] at hsound
  exact ⟨_, hsound⟩

-- The names in the program of a source are names of its tokens.
private theorem mem_tokens_of_mem_names {src : Bytes} {t : Token}
    (h : t ∈ Stmt.namesAll (parseProgram src).tree) : t ∈ (scan src).tokens :=
  List.takeWhile_sublist _ |>.subset
    (Multiset.mem_coe.mp (Multiset.mem_of_le (parseTokens_built (scan src).tokens).names.le h))

section Sources

open Grammar

variable {x z : Bytes} {src : Bytes} {p' : Program Unit}

private theorem kind_ne_eof_of_respelled {ts ts' : List Token} (hts : ∀ t ∈ ts, t.kind ≠ .eof)
    (h : List.Forall₂ (Token.Respelled x z) ts ts') : ∀ t ∈ ts', t.kind ≠ .eof := by
  induction h with
  | nil => exact List.forall_mem_nil _
  | cons ht _ ih =>
    obtain ⟨hkind, hts⟩ := List.forall_mem_cons.mp hts
    exact List.forall_mem_cons.mpr ⟨ht.kind ▸ hkind, ih hts⟩

/-- For a program with another name in some places there is a source with this name in these
places. -/
theorem exists_parseProgram_respelled (hp : (parseProgram src).errors = []) (hz : IsName z)
    (h : List.Forall₂ (Stmt.Respelled x z) (parseProgram src).tree p') :
    ∃ src', List.Forall₂ (Segment.Respelled x z) (Segment.segments src) (Segment.segments src') ∧
      parseProgram src' = ⟨p', []⟩ := by
  obtain ⟨hscan, herrors⟩ := List.append_eq_nil_iff.mp hp
  have hparse : parseTokens (tokensFrom 1 src ++ [.endOf (1 + src.newlines : Nat)]) =
      ⟨(parseProgram src).tree, []⟩ := by
    rw [← tokens_scan, ← herrors]
    rfl
  have hderives := (parseTokens_eq_iff kind_ne_eof_of_mem_tokensFrom rfl).mp hparse
  obtain ⟨ts', hts', hderives'⟩ := hderives.respell h
  obtain ⟨src', eof', hsegments, hscan', heof'⟩ :=
    exists_scan_respelled hz hscan (tokens_scan src) hts'
  have hnone := kind_ne_eof_of_respelled kind_ne_eof_of_mem_tokensFrom hts'
  refine ⟨src', hsegments, ?_⟩
  simp only [parseProgram, hscan', (parseTokens_eq_iff hnone heof').mpr hderives', List.nil_append]

end Sources

/-- Let a source have no static errors, and let a local variable or a parameter `x` of its program
be renamed to `z`, a name that no token of the source has. Then the renamed program has a source
too, which differs only in places where `x` stands. It has no static errors, and each use of a
variable is bound as it was. And in every session with programs that have no static errors, running
the source of the renamed program ends as running the first source does, with the same error if
there is one, and has printed the same. -/
theorem Hosted.renamed_local_runs_alike {x z : Bytes} {lenient : Bool} {src : Bytes}
    (hp : (parseProgram src).errors = [])
    (hr : ((parseProgram src).tree.resolve lenient).errors = [])
    (hz : IsName z) (hfresh : ∀ t ∈ (scan src).tokens, t.lexeme ≠ z) {p' : Program Binding}
    (h : Stmt.AllRenames x z ((parseProgram src).tree.resolve lenient).tree p') :
    (∃ src', List.Forall₂ (Segment.Respelled x z) (Segment.segments src) (Segment.segments src') ∧
      parseProgram src' = ⟨Stmt.unboundAll p', []⟩) ∧
    Program.resolve lenient (Stmt.unboundAll p') = ⟨p', []⟩ ∧
    (Program.uses p').map Prod.snd =
      (Program.uses ((parseProgram src).tree.resolve lenient).tree).map Prod.snd ∧
    ∀ src', parseProgram src' = ⟨Stmt.unboundAll p', []⟩ →
      ∀ clock firstId script, (∀ entry ∈ script, entry.2.Accepted) → ∀ fuel,
        let m := ((start clock firstId).after script).machine
        (m.runSource fuel lenient src').1 = (m.runSource fuel lenient src).1 ∧
          (m.runSource fuel lenient src').2.output = (m.runSource fuel lenient src).2.output := by
  have hformed := (parseTokens_built (scan src).tokens).formed
  obtain ⟨hresolve, hlike⟩ := Program.resolve_renames hformed
    (fun t ht ↦ hfresh t (mem_tokens_of_mem_names ht)) hr h
  have hrespelled := h.respelled
  rw [show Stmt.unboundAll ((parseProgram src).tree.resolve lenient).tree = (parseProgram src).tree
    from Scopes.unboundAll_resolveStmts _ _ _] at hrespelled
  refine ⟨exists_parseProgram_respelled hp hz hrespelled, hresolve, Program.map_snd_uses hlike, ?_⟩
  intro src' hparse' clock firstId script hscript fuel m
  obtain ⟨t, hsound⟩ := Hosted.exists_sound clock firstId hscript
  have hresolve' : (parseProgram src').tree.resolve lenient = ⟨p', []⟩ := by
    rw [hparse', hresolve]
  have hlike' : Stmt.AllLike True [] (boundProgram lenient src) (boundProgram lenient src') := by
    rw [boundProgram, boundProgram, hresolve']
    exact hlike
  obtain ⟨hresult, hprinted⟩ := Terms.runSource_agrees trivial hsound hp hr
    (congrArg Parsed.errors hparse') (congrArg Resolved.errors hresolve') hlike' fuel
  exact ⟨hresult, by rw [Machine.output, Machine.output, hprinted]⟩

-- A block with a variable, in it a block with another variable `a`, and behind them a variable that
-- is not declared.
private def shadowing (name : String) : Bytes :=
  Bytes.ofString ("\x7bvar " ++ name ++ ";\x7bvar a;a;\x7dprint " ++ name ++ ";\x7db;")

private def onFirstLine (k : Kind) (text : String) : Token := ⟨k, Bytes.ofString text, .nil, 1⟩

-- The statements of the block.
private def shadowed (name : String) : List (Stmt Binding) :=
  [.var (onFirstLine .identifier name) none,
    .block (onFirstLine .leftBrace "\x7b")
      [.var (onFirstLine .identifier "a") none,
        .expr (.variable (onFirstLine .identifier "a") (.scope 0))],
    .print (onFirstLine .print "print") (.variable (onFirstLine .identifier name) (.scope 0))]

private def shadowingProgram (name : String) : Program Binding :=
  [.block (onFirstLine .leftBrace "\x7b") (shadowed name),
    .expr (.variable (onFirstLine .identifier "b") .global)]

private def shadowingTokens (name : String) : List Token :=
  let opening := onFirstLine .leftBrace "\x7b"
  let keyword := onFirstLine .var "var"
  let outer := onFirstLine .identifier name
  let inner := onFirstLine .identifier "a"
  let semicolon := onFirstLine .semicolon ";"
  let closing := onFirstLine .rightBrace "\x7d"
  [opening, keyword, outer, semicolon, opening, keyword, inner, semicolon, inner, semicolon,
    closing, onFirstLine .print "print", outer, semicolon, closing,
    onFirstLine .identifier "b", semicolon, .endOf 1]

private theorem scan_shadowing :
    ∀ name ∈ ["a", "z"], scan (shadowing name) = ⟨shadowingTokens name, []⟩ := by
  decide +kernel

private theorem parse_shadowing {name : String} (h : name ∈ ["a", "z"]) :
    parseProgram (shadowing name) = ⟨Stmt.unboundAll (shadowingProgram name), []⟩ := by
  have htree : (parseTokens (shadowingTokens name)).tree =
      Stmt.unboundAll (shadowingProgram name) := by rfl
  have herrors : ∀ name ∈ ["a", "z"], (parseTokens (shadowingTokens name)).errors = [] := by
    decide +kernel
  rw [parseProgram, scan_shadowing name h]
  simp only [htree, herrors name h, List.append_nil]

private theorem resolve_shadowing :
    Program.resolve false (Stmt.unboundAll (shadowingProgram "a")) =
      ⟨shadowingProgram "a", []⟩ := by
  rfl

/-- The variable of the outer block is called `z`, and the one of the inner block is not. Both
programs print what they have to, and then fail. -/
theorem Hosted.renamed_local_runs_alike_shadowing :
    let x := Bytes.ofString "a"
    let z := Bytes.ofString "z"
    let cause := RuntimeError.Cause.undefinedVariable (Bytes.ofString "b")
    (parseProgram (shadowing "a")).errors = [] ∧
    ((parseProgram (shadowing "a")).tree.resolve false).errors = [] ∧
    IsName z ∧ (∀ t ∈ (scan (shadowing "a")).tokens, t.lexeme ≠ z) ∧
    Stmt.AllRenames x z ((parseProgram (shadowing "a")).tree.resolve false).tree
      (shadowingProgram "z") ∧
    parseProgram (shadowing "z") = ⟨Stmt.unboundAll (shadowingProgram "z"), []⟩ ∧
    ((Machine.start none 0).runSource 9 false (shadowing "z")).1 =
      .error (.fault (.runtime ⟨cause, 1, [⟨none, 1⟩]⟩)) ∧
    ((Machine.start none 0).runSource 9 false (shadowing "z")).2.output =
      Bytes.ofString "nil\n" := by
  intro x z cause
  have hresolve : (parseProgram (shadowing "a")).tree.resolve false =
      ⟨shadowingProgram "a", []⟩ := by
    rw [parse_shadowing (by decide), resolve_shadowing]
  have hp : (parseProgram (shadowing "a")).errors = [] := by rw [parse_shadowing (by decide)]
  have hr : ((parseProgram (shadowing "a")).tree.resolve false).errors = [] := by rw [hresolve]
  have hz : IsName z := by decide
  have hall : (scan (shadowing "a")).tokens.all (·.lexeme != Bytes.ofString "z") := by
    decide +kernel
  have hfresh : ∀ t ∈ (scan (shadowing "a")).tokens, t.lexeme ≠ z := fun t ht ↦
    bne_iff_ne.mp (List.all_eq_true.mp hall t ht)
  have hrenames : Stmt.AllRenames x z ((parseProgram (shadowing "a")).tree.resolve false).tree
      (shadowingProgram "z") := by
    rw [hresolve]
    exact .here _ (.block _ ⟨_, none, List.mem_cons_self, rfl⟩)
  have hparse := parse_shadowing (show "z" ∈ ["a", "z"] by decide)
  obtain ⟨hresult, houtput⟩ := (renamed_local_runs_alike hp hr hz hfresh hrenames).2.2.2 _ hparse
    none 0 [] (List.forall_mem_nil _) 9
  have hrun : (Machine.start none 0).runSource 9 false (shadowing "a") =
      (Run.interpret 9 (shadowingProgram "a") (Machine.start none 0)).result := by
    rw [Machine.runSource_eq hp hr, boundProgram, hresolve]
  refine ⟨hp, hr, hz, hfresh, hrenames, hparse, hresult.trans ?_, houtput.trans ?_⟩
  · change ((Machine.start none 0).runSource 9 false (shadowing "a")).1 = _
    rw [hrun]
    decide +kernel
  · change ((Machine.start none 0).runSource 9 false (shadowing "a")).2.output = _
    rw [hrun]
    decide +kernel

end Lox
