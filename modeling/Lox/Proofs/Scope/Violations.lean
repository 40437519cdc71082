import Mathlib.Data.List.Induction
import Lox.Proofs.Parser.Places
import Lox.Proofs.Scope.Rules

/-!
# What the resolver complains about

The errors of the resolver are the violations of its rules, each once, in the order of the parts
(`resolver_errors_are_the_violations`). It keeps track of what surrounds a part, and this is what
the rules ask about (`Program.Knows`); whether it has found errors before does not matter to it. So
the errors of a part by itself are its violations (`Program.mem_own`), and those of a whole program
are put together along its parts.
-/

namespace Lox

namespace Program

/-! ## What the resolver knows of the rules -/

/-- What the resolver knows at a part is what matters to the rules. -/
structure Knows (p : Program Unit) (lenient : Bool) (a : Address) (σ : Situation) : Prop where
  inFunction : σ.around.inFunction = true ↔ p.InFunction a
  inLoop : σ.around.inLoop = true ↔ p.InLoop a
  lenient : σ.around.lenient = lenient
  unready : ∀ x, σ.scopes.isUnready x = true ↔ p.InInitializer x a
  /-- All names are ready but those of the variables whose initializer this is. -/
  settled : (∀ v, v.Encloses a → ¬ p.IsVariable v) → σ.scopes.Settled

end Program

namespace Scopes

private theorem Settled.isUnready {scopes : Scopes} (h : scopes.Settled) (x : Bytes) :
    scopes.isUnready x = false := by
  cases scopes with
  | nil => rfl
  | cons s rest =>
    refine beq_eq_false_iff_ne.mpr fun heq ↦ ?_
    obtain ⟨l₁, l₂, hl, -⟩ := List.lookup_eq_some_iff.mp heq
    have hready := h s List.mem_cons_self (x, false) (by rw [hl]; simp)
    cases hready

private theorem Settled.isUnready_record {scopes : Scopes} (h : scopes.Settled) (name x : Bytes) :
    (scopes.record name false).isUnready x = true ↔ name = x ∧ scopes ≠ [] := by
  cases scopes with
  | nil => simp [Scopes.record, Scopes.isUnready]
  | cons s rest =>
    have hrest := h.isUnready x
    simp only [Scopes.isUnready] at hrest
    by_cases hx : x = name
    · simp [Scopes.record, Scopes.isUnready, hx]
    · have hb : (x == name) = false := beq_eq_false_iff_ne.mpr hx
      simp only [Scopes.record, Scopes.isUnready, List.lookup_cons, hb, hrest]
      simp [Ne.symm hx]

end Scopes

namespace Program

variable {p : Program Unit} {lenient : Bool} {a : Address} {σ : Situation} {part : Part Unit}
  {i : Nat}

-- What is known around the first part that a part consists of, besides its scopes.
private theorem Knows.enter_around (h : p.Knows lenient a σ) (hpart : p.part? a = some part) :
    ((σ.inside part).around.inFunction = true ↔ p.InFunction (0 :: a)) ∧
      ((σ.inside part).around.inLoop = true ↔ p.InLoop (0 :: a)) ∧
      (σ.inside part).around.lenient = lenient := by
  rw [inFunction_cons, inLoop_cons, isFunction_iff hpart, isLoop_iff hpart, ← h.inFunction,
    ← h.inLoop, ← h.lenient]
  cases part with
  | stmt s => cases s <;> simp [Situation.inside]
  | _ => simp [Situation.inside]

private theorem inInitializer_cons_of_not {β : Type} {q : Program β} {x : Bytes}
    (hv : ¬ q.IsVariable a) : q.InInitializer x (i :: a) ↔ q.InInitializer x a := by
  rw [inInitializer_cons, or_iff_right]
  rintro ⟨name, init, hvar, -⟩
  exact hv ⟨name, init, hvar⟩

-- Where the resolver meets no expression, all names are ready.
private theorem Knows.settled_of_ne (h : p.Knows lenient a σ) (hpart : p.part? a = some part)
    (hne : ∀ e, part ≠ .expr e) : σ.scopes.Settled := by
  refine h.settled fun v henc hv ↦ ?_
  obtain ⟨e, he⟩ := exists_expr_of_isVariable hv henc hpart
  exact hne e he

private theorem Knows.not_inInitializer (h : p.Knows lenient a σ) (hset : σ.scopes.Settled)
    (x : Bytes) : ¬ p.InInitializer x a := by
  rw [← h.unready, hset.isUnready]
  exact Bool.false_ne_true

-- In settled scopes no name is unready, and there is no initializer around them.
private theorem unready_of_settled {scopes : Scopes} (hset : scopes.Settled) {c : Address}
    (hnot : ∀ x, ¬ p.InInitializer x c) (x : Bytes) :
    scopes.isUnready x = true ↔ p.InInitializer x c :=
  ⟨fun hu ↦ absurd (hset.isUnready x ▸ hu) Bool.false_ne_true, fun hin ↦ absurd hin (hnot x)⟩

-- What is known of names at the first part that a part consists of.
private theorem Knows.enter_scopes (h : p.Knows lenient a σ) (hpart : p.part? a = some part)
    (hscopes : σ.scopes = [] ↔ p.scopesAround a = []) :
    (∀ x, (σ.inside part).scopes.isUnready x = true ↔ p.InInitializer x (0 :: a)) ∧
      ((∀ v, v.Encloses (0 :: a) → ¬ p.IsVariable v) → (σ.inside part).scopes.Settled) := by
  -- in what does not declare a variable nothing changes but that scopes are opened
  have hplain : ¬ p.IsVariable a → (∀ e, part ≠ .expr e) → (σ.inside part).scopes.Settled →
      (∀ x, (σ.inside part).scopes.isUnready x = true ↔ p.InInitializer x (0 :: a)) ∧
        ((∀ v, v.Encloses (0 :: a) → ¬ p.IsVariable v) → (σ.inside part).scopes.Settled) := by
    intro hv hne hset
    refine ⟨unready_of_settled hset fun x ↦ ?_, fun _ ↦ hset⟩
    rw [inInitializer_cons_of_not hv]
    exact h.not_inInitializer (h.settled_of_ne hpart hne) x
  have hvariable := isVariable_iff hpart
  cases part with
  | expr e =>
    have hv : ¬ p.IsVariable a := by simp [hvariable]
    refine ⟨fun x ↦ ?_, fun hout ↦ h.settled fun v henc ↦ hout v ?_⟩
    · rw [inInitializer_cons_of_not hv]
      exact h.unready x
    · exact Address.encloses_iff.mpr (.inr henc)
  | program q => exact hplain (by simp [hvariable]) nofun (h.settled_of_ne hpart nofun)
  | param t =>
    exact hplain (by simp [hvariable]) nofun ((h.settled_of_ne hpart nofun).record t.lexeme)
  | stmt s =>
    have hset := h.settled_of_ne hpart nofun
    cases s with
    | var name init =>
      refine ⟨fun x ↦ ?_, fun hout ↦ ?_⟩
      · have hunready := hset.isUnready_record name.lexeme x
        rw [inInitializer_cons, or_iff_left (h.not_inInitializer hset x)]
        refine hunready.trans ⟨fun ⟨hx, hne⟩ ↦ ?_, ?_⟩
        · exact ⟨name, init, hpart, hx, mt hscopes.mpr hne⟩
        · rintro ⟨name', init', hvar, hx, hne⟩
          rw [hpart] at hvar
          cases hvar
          exact ⟨hx, mt hscopes.mp hne⟩
      · exact absurd ⟨name, init, hpart⟩ (hout a (Address.encloses_iff.mpr (.inl rfl)))
    | block brace body => exact hplain (by simp [hvariable]) nofun hset.cons_nil
    | function name params body =>
      exact hplain (by simp [hvariable]) nofun (hset.record name.lexeme).cons_nil
    | _ => exact hplain (by simp [hvariable]) nofun hset

-- What is known behind a part.
private theorem Knows.behind (h : p.Knows lenient (i :: a) σ) (hf : Stmt.AllFormed p)
    (hpart : p.part? (i :: a) = some part) : p.Knows lenient ((i + 1) :: a) (σ.behind part) := by
  have haround : (σ.behind part).around = σ.around := by
    cases part <;> rfl
  have hscopes := σ.scopes_behind (formed_part? hf hpart)
  have hinitializer : ∀ x, p.InInitializer x ((i + 1) :: a) ↔ p.InInitializer x (i :: a) :=
    fun x ↦ inInitializer_cons.trans inInitializer_cons.symm
  have hsame : ∀ v : Address, v.Encloses ((i + 1) :: a) ↔ v.Encloses (i :: a) :=
    fun v ↦ Address.encloses_cons.trans Address.encloses_cons.symm
  constructor
  · rw [haround, h.inFunction, inFunction_cons, inFunction_cons]
  · rw [haround, h.inLoop, inLoop_cons, inLoop_cons]
  · rw [haround, h.lenient]
  all_goals rw [hscopes]
  · intro x
    rw [hinitializer]
    cases ht : part.declared? with
    | none => exact h.unready x
    | some t =>
      have hne : ∀ e, part ≠ .expr e := by
        rintro e rfl
        cases ht
      have hset := h.settled_of_ne hpart hne
      exact unready_of_settled (hset.record t.lexeme) (h.not_inInitializer hset) x
  · intro hout
    have hset := h.settled fun v henc ↦ hout v ((hsame v).mpr henc)
    cases part.declared? with
    | none => exact hset
    | some t => exact hset.record t.lexeme

/-- The resolver knows at each part what matters to the rules. -/
theorem knows_visit? (hf : Stmt.AllFormed p) (h : p.visit? lenient a = some (σ, part)) :
    p.Knows lenient a σ := by
  refine visit_induction (motive := p.Knows lenient) ?front ?enter ?pass h
  case front =>
    exact ⟨iff_of_false Bool.false_ne_true not_inFunction_nil,
      iff_of_false Bool.false_ne_true not_inLoop_nil, rfl,
      fun x ↦ iff_of_false Bool.false_ne_true not_inInitializer_nil,
      fun _ ↦ Scopes.settled_nil⟩
  case enter =>
    intro a σ part hv hσ
    have hpart := part?_of_visit? hv
    have hlength := (reflects_visit? hf hv).length_eq
    have hscopes : σ.scopes = [] ↔ p.scopesAround a = [] := by
      rw [← List.length_eq_zero_iff, ← hlength, List.length_eq_zero_iff]
    obtain ⟨hfunction, hloop, hlenient⟩ := hσ.enter_around hpart
    obtain ⟨hunready, hsettled⟩ := hσ.enter_scopes hpart hscopes
    exact ⟨hfunction, hloop, hlenient, hunready, hsettled⟩
  case pass =>
    intro i a σ part hv hσ
    exact hσ.behind hf (part?_of_visit? hv)

/-! ## Where errors are -/

/-- The names in a part and its keywords, among which are the tokens that errors are at. -/
def Part.anchors {β : Type} : Part β → List Token
  | .program p => Stmt.namesAll p ++ Stmt.keywordsAll p
  | .stmt s => s.names ++ s.keywords
  | .expr e => e.names
  | .param t => [t]

private theorem mem_anchors_stmts {β : Type} {ss : List (Stmt β)} {s : Stmt β} (hs : s ∈ ss)
    {t : Token} (ht : t ∈ (Part.stmt s).anchors) :
    t ∈ Stmt.namesAll ss ∨ t ∈ Stmt.keywordsAll ss := by
  induction ss with
  | nil => cases hs
  | cons s' ss ih =>
    simp only [Stmt.namesAll, Stmt.keywordsAll, List.mem_append]
    rcases List.mem_cons.mp hs with rfl | hs
    · rcases List.mem_append.mp ht with ht | ht
      · exact .inl (.inl ht)
      · exact .inr (.inl ht)
    · exact (ih hs).imp .inr .inr

private theorem mem_anchors_exprs {β : Type} {es : List (Expr β)} {e : Expr β} (he : e ∈ es)
    {t : Token} (ht : t ∈ e.names) : t ∈ Expr.namesAll es := by
  induction es with
  | nil => cases he
  | cons e' es ih =>
    rcases List.mem_cons.mp he with rfl | he
    · exact List.mem_append_left _ ht
    · exact List.mem_append_right _ (ih he)

/-- The anchors of a part are also those of the parts around it. -/
theorem Part.anchors_of_mem_children {β : Type} {part child : Part β} (h : child ∈ part.children)
    {t : Token} (ht : t ∈ child.anchors) : t ∈ part.anchors := by
  cases part with
  | program p =>
    obtain ⟨s, hs, rfl⟩ := List.mem_map.mp h
    exact List.mem_append.mpr (mem_anchors_stmts hs ht)
  | param t => cases h
  | expr e =>
    cases e with
    | call c paren args =>
      rcases List.mem_cons.mp h with rfl | h
      · exact List.mem_append_left _ ht
      · obtain ⟨e, he, rfl⟩ := List.mem_map.mp h
        exact List.mem_append_right _ (mem_anchors_exprs he ht)
    | _ => grind [Part.children, Part.anchors, Expr.names]
  | stmt s =>
    cases s with
    | block brace body =>
      obtain ⟨s, hs, rfl⟩ := List.mem_map.mp h
      exact List.mem_append.mpr (mem_anchors_stmts hs ht)
    | function name params body =>
      rcases List.mem_append.mp h with h | h
      · obtain ⟨t', hp, rfl⟩ := List.mem_map.mp h
        rw [List.mem_singleton.mp ht]
        exact List.mem_append_left _ (List.mem_cons_of_mem _ (List.mem_append_left _ hp))
      · obtain ⟨s, hs, rfl⟩ := List.mem_map.mp h
        rcases mem_anchors_stmts hs ht with ht | ht
        · exact List.mem_append_left _ (List.mem_cons_of_mem _ (List.mem_append_right _ ht))
        · exact List.mem_append_right _ ht
    | var name init => cases init <;> grind [Part.children, Part.anchors, Stmt.names]
    | ifElse paren test yes no =>
      cases no <;> grind [Part.children, Part.anchors, Stmt.names, Stmt.keywords]
    | «return» keyword result => cases result <;> grind [Part.children, Part.anchors, Stmt.names]
    | _ => grind [Part.children, Part.anchors, Stmt.names, Stmt.keywords]

/-- The anchors of a part are among those of the program. -/
theorem anchors_of_part? {β : Type} {p : Program β} {a : Address} {part : Part β}
    (h : p.part? a = some part) {t : Token} (ht : t ∈ part.anchors) :
    t ∈ (Part.program p).anchors := by
  induction a generalizing part with
  | nil =>
    cases h
    exact ht
  | cons i a ih =>
    obtain ⟨parent, hparent, hchild⟩ := part?_cons h
    exact ih hparent (Part.anchors_of_mem_children (List.mem_of_getElem? hchild) ht)

section Reports

variable {p : Program Unit} {lenient : Bool} {a : Address} {σ : Situation} {part : Part Unit}

-- An error at a token that is not the end of the source.
private theorem ofToken_of_ne {t : Token} (ht : t.kind ≠ .eof) (r : StaticError.Reason) :
    StaticError.ofToken t r = ⟨t.line, .lexeme t.lexeme, r⟩ := by
  rw [StaticError.ofToken, if_neg ht]

-- The declaration of a name is an error if the name was declared before in the scope.
private theorem mem_redeclaration {scopes : Scopes} (h : p.Reflects (p.scopesAround a) a scopes)
    {t : Token} (ht : t.kind ≠ .eof) {e : StaticError} : e ∈ scopes.redeclaration t ↔
      p.HasBefore t.lexeme a ∧ e = ⟨t.line, .lexeme t.lexeme, .alreadyDeclared t.lexeme⟩ := by
  unfold HasBefore Scopes.redeclaration
  generalize p.scopesAround a = around at h
  cases h with
  | nil => simp
  | @cons q s _ _ hs hrest =>
    have hdeclares := hs t.lexeme
    by_cases hx : s.declares t.lexeme
    · simp [hx, hdeclares.mp hx, ofToken_of_ne ht]
    · simp [hx, mt hdeclares.mpr hx]

/-- The errors of a part by itself are its violations of the rules. -/
theorem mem_own (hknows : p.Knows lenient a σ)
    (hreflects : p.Reflects (p.scopesAround a) a σ.scopes) (hpart : p.part? a = some part)
    (hkind : ∀ t ∈ part.anchors, t.kind ≠ .eof) {e : StaticError} :
    e ∈ σ.own part ↔ p.Violation lenient a e := by
  rw [violation_iff hpart]
  cases part with
  | program q => simp [Situation.own, Part.declared?]
  | param t =>
    have ht := hkind t List.mem_cons_self
    simp [Situation.own, Part.declared?, mem_redeclaration hreflects ht]
  | expr e =>
    cases e with
    | «variable» t u =>
      have ht := hkind t List.mem_cons_self
      simp [Situation.own, Part.declared?, ofToken_of_ne ht, ← hknows.unready]
    | _ => simp [Situation.own, Part.declared?]
  | stmt s =>
    cases s with
    | var name init =>
      have ht := hkind name (by cases init <;> exact List.mem_cons_self)
      simp [Situation.own, Part.declared?, mem_redeclaration hreflects ht]
    | function name params body =>
      have ht := hkind name List.mem_cons_self
      simp [Situation.own, Part.declared?, mem_redeclaration hreflects ht]
    | «return» t result =>
      have ht := hkind t (List.mem_append_right _ List.mem_cons_self)
      simp [Situation.own, Part.declared?, ofToken_of_ne ht, ← hknows.inFunction]
    | branch t =>
      have ht := hkind t List.mem_cons_self
      simp [Situation.own, Part.declared?, ofToken_of_ne ht, ← hknows.inLoop, ← hknows.lenient]
    | _ => simp [Situation.own, Part.declared?]

/-- A part by itself has at most one error. -/
theorem own_length_le (σ : Situation) (part : Part Unit) : (σ.own part).length ≤ 1 := by
  have hredeclaration : ∀ t : Token, (σ.scopes.redeclaration t).length ≤ 1 := by
    intro t
    unfold Scopes.redeclaration
    split
    · exact Nat.zero_le 1
    · split <;> simp
  cases part with
  | program q => exact Nat.zero_le 1
  | param t => exact hredeclaration t
  | expr e =>
    cases e with
    | «variable» t u =>
      simp only [Situation.own]
      split <;> simp
    | _ => exact Nat.zero_le 1
  | stmt s =>
    cases s with
    | var name init => exact hredeclaration name
    | function name params body => exact hredeclaration name
    | «return» t result =>
      simp only [Situation.own]
      split <;> simp
    | branch t =>
      simp only [Situation.own]
      split <;> simp
    | _ => exact Nat.zero_le 1

/-! ## The errors in order -/

/-- Errors are the violations in the parts of a region, each once, in the order of the parts. -/
def Lists (p : Program Unit) (lenient : Bool) (region : Address → Prop)
    (errors : List StaticError) : Prop :=
  ∃ faults : List (Address × StaticError), faults.Pairwise (fun x y ↦ x.1.Before y.1) ∧
    (∀ c e, (c, e) ∈ faults ↔ region c ∧ p.Violation lenient c e) ∧
    faults.map Prod.snd = errors

private theorem Lists.congr {region region' : Address → Prop} {errors : List StaticError}
    (h : p.Lists lenient region errors)
    (hcongr : ∀ c, (p.part? c).isSome → (region c ↔ region' c)) :
    p.Lists lenient region' errors := by
  obtain ⟨faults, hordered, hmem, heq⟩ := h
  refine ⟨faults, hordered, fun c e ↦ ?_, heq⟩
  rw [hmem]
  exact and_congr_left fun hv ↦ hcongr c hv.isSome_part?

private theorem Lists.append {region region' : Address → Prop} {errors errors' : List StaticError}
    (h : p.Lists lenient region errors) (h' : p.Lists lenient region' errors')
    (hbefore : ∀ c c', region c → region' c' → c.Before c') :
    p.Lists lenient (fun c ↦ region c ∨ region' c) (errors ++ errors') := by
  obtain ⟨faults, hordered, hmem, rfl⟩ := h
  obtain ⟨faults', hordered', hmem', rfl⟩ := h'
  refine ⟨faults ++ faults', List.pairwise_append.mpr ⟨hordered, hordered', ?_⟩, fun c e ↦ ?_,
    List.map_append⟩
  · rintro ⟨c, e⟩ hc ⟨c', e'⟩ hc'
    exact hbefore c c' ((hmem c e).mp hc).1 ((hmem' c' e').mp hc').1
  · rw [List.mem_append, hmem, hmem', or_and_right]

-- The errors of a part by itself.
private theorem lists_own (hmem : ∀ e, e ∈ σ.own part ↔ p.Violation lenient a e) :
    p.Lists lenient (· = a) (σ.own part) := by
  refine ⟨(σ.own part).map (a, ·), ?_, fun c e ↦ ?_, ?_⟩
  · have hle := own_length_le σ part
    match σ.own part, hle with
    | [], _ => exact .nil
    | [e], _ => exact List.pairwise_singleton _ _
  · simp only [List.mem_map, hmem, Prod.mk.injEq]
    constructor
    · rintro ⟨_, hv, rfl, rfl⟩
      exact ⟨rfl, hv⟩
    · rintro ⟨rfl, hv⟩
      exact ⟨e, hv, rfl, rfl⟩
  · simp [Function.comp_def]

-- The errors in parts that follow each other.
private theorem lists_children {vs : List (Situation × Part Unit)}
    (h : ∀ i v, vs[i]? = some v → p.Lists lenient (i :: a <:+ ·) (v.1.errors v.2)) :
    p.Lists lenient (fun c ↦ ∃ i < vs.length, i :: a <:+ c)
      (vs.flatMap fun v ↦ v.1.errors v.2) := by
  induction vs using List.reverseRecOn with
  | nil => exact ⟨[], .nil, by simp, rfl⟩
  | append_singleton vs v ih =>
    have hinit := ih fun i w hw ↦ h i w (by
      rw [List.getElem?_append_left (List.getElem?_eq_some_iff.mp hw).1]
      exact hw)
    have hlast := h vs.length v List.getElem?_concat_length
    rw [List.flatMap_append, List.flatMap_singleton]
    refine (hinit.append hlast ?_).congr fun c _ ↦ ?_
    · rintro c c' ⟨i, hi, hc⟩ hc'
      exact .earlier hi hc hc'
    · simp only [List.length_append, List.length_singleton, Nat.lt_succ_iff_lt_or_eq, or_and_right,
        exists_or, exists_eq_left]

-- The addresses in a part are that of the part itself and those in its children.
private theorem suffix_iff (hpart : p.part? a = some part) {c : Address}
    (hc : (p.part? c).isSome) :
    a <:+ c ↔ c = a ∨ ∃ i < part.children.length, i :: a <:+ c := by
  constructor
  · intro h
    obtain ⟨d, rfl⟩ := h
    rcases List.eq_nil_or_concat' d with rfl | ⟨d, i, rfl⟩
    · exact .inl rfl
    · have hsuffix : i :: a <:+ d ++ [i] ++ a := ⟨d, by simp⟩
      obtain ⟨child, hchild⟩ := Option.isSome_iff_exists.mp (isSome_part?_of_suffix hsuffix hc)
      obtain ⟨parent, hparent, hmem⟩ := part?_cons hchild
      rw [hpart] at hparent
      cases hparent
      exact .inr ⟨i, (List.getElem?_eq_some_iff.mp hmem).1, hsuffix⟩
  · rintro (rfl | ⟨i, -, h⟩)
    · exact List.suffix_refl c
    · exact (List.suffix_cons i a).trans h

/-- The errors that the resolver finds in a part are the violations in it. -/
theorem lists_errors (hf : Stmt.AllFormed p) (hkind : ∀ t ∈ (Part.program p).anchors, t.kind ≠ .eof)
    (h : p.visit? lenient a = some (σ, part)) : p.Lists lenient (a <:+ ·) (σ.errors part) := by
  induction part using Part.induction generalizing a σ with
  | h part ih =>
    have hpart := part?_of_visit? h
    have hown : p.Lists lenient (· = a) (σ.own part) :=
      lists_own fun e ↦ mem_own (knows_visit? hf h) (reflects_visit? hf h) hpart fun t ht ↦
        hkind t (anchors_of_part? hpart ht)
    have hchildren : p.Lists lenient
        (fun c ↦ ∃ i < ((σ.inside part).along part.children).length, i :: a <:+ c)
        (((σ.inside part).along part.children).flatMap fun v ↦ v.1.errors v.2) := by
      refine lists_children fun i v hv ↦ ?_
      have hvisit : p.visit? lenient (i :: a) = some v := by
        rw [visit?, h]
        exact hv
      have hmem : v.2 ∈ part.children := by
        rw [← (σ.inside part).map_snd_along part.children]
        exact List.mem_map_of_mem (List.mem_of_getElem? hv)
      exact ih v.2 hmem hvisit
    rw [Situation.length_along] at hchildren
    rw [σ.errors_eq]
    refine (hown.append hchildren ?_).congr fun c hc ↦ ?_
    · rintro c c' rfl ⟨i, -, hc'⟩
      exact .around (Address.encloses_of_suffix_cons hc')
    · exact (suffix_iff hpart hc).symm

end Reports

end Program

/-- In every program that is parsed from tokens, whatever errors there are in it, the errors of the
resolver are the violations of its rules, each once and at the token that breaks the rule, in the
order of the parts that they are in. -/
theorem resolver_errors_are_the_violations (ts : List Token) (lenient : Bool) :
    let p := (parseTokens ts).tree
    ∃ faults : List (Address × StaticError),
      faults.Pairwise (fun x y ↦ x.1.Before y.1) ∧
      (∀ a e, (a, e) ∈ faults ↔ p.Violation lenient a e) ∧
      (p.resolve lenient).errors = faults.map Prod.snd := by
  intro p
  have hbuilt := parseTokens_built ts
  have hkind : ∀ t ∈ (Program.Part.program p).anchors, t.kind ≠ .eof := by
    intro t ht
    rcases List.mem_append.mp ht with ht | ht
    · rw [hbuilt.names.kind t ht]
      decide
    · exact parseTokens_keywords ts t ht
  have hfront : p.visit? lenient [] = some (⟨.topLevel lenient, []⟩, .program p) := rfl
  obtain ⟨faults, hordered, hmem, herrors⟩ := Program.lists_errors hbuilt.formed hkind hfront
  refine ⟨faults, hordered, fun a e ↦ ?_, herrors.symm⟩
  rw [hmem]
  exact and_iff_right (List.nil_suffix)

/-- A local variable that is read in its own initializer and then declared again, before a `break`
outside of the block. -/
example :
    let a : Token := ⟨.identifier, [97], .nil, 1⟩
    let p : Program Unit := [.block ⟨.leftBrace, [123], .nil, 1⟩
      [.var a (some (.variable a ())), .var a none], .branch ⟨.break, [98], .nil, 2⟩]
    (p.resolve false).errors =
      [⟨1, .lexeme [97], .ownInitializer⟩, ⟨1, .lexeme [97], .alreadyDeclared [97]⟩,
        ⟨2, .lexeme [98], .branchOutsideLoop [98]⟩] := by
  decide

end Lox
