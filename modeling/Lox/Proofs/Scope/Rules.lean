import Lox.Proofs.Scope.Lexical

/-!
# The rules of the resolver

Where a program breaks a rule of the resolver can be said without the resolver, from where its parts
are (`Program.Violation`): a `return` in no function, a `break` or `continue` in no loop of its
function, a name that is declared again in one scope, and a local variable that is read in its own
initializer.

What is around the children of a part is the part and what is around that. From this follows for
each rule what holds inside a part, given what holds at the part.
-/

namespace Lox

namespace Program

section Rules

variable {β : Type}

/-- There is a function at an address. -/
def IsFunction (p : Program β) (f : Address) : Prop :=
  ∃ name params body, p.part? f = some (.stmt (.function name params body))

/-- There is a loop at an address. -/
def IsLoop (p : Program β) (w : Address) : Prop :=
  ∃ keyword test body, p.part? w = some (.stmt (.while keyword test body))

/-- There is a declaration of a variable at an address, which may have an initializer. -/
def IsVariable (p : Program β) (v : Address) : Prop :=
  ∃ name init, p.part? v = some (.stmt (.var name init))

/-- A part is in a function. -/
def InFunction (p : Program β) (a : Address) : Prop := ∃ f, f.Encloses a ∧ p.IsFunction f

/-- A part is in a loop of the innermost function around it, or of the program if there is none. -/
def InLoop (p : Program β) (a : Address) : Prop :=
  ∃ w, w.Encloses a ∧ p.IsLoop w ∧ ∀ f, f.Encloses a → p.IsFunction f → f.Encloses w

/-- A part is in the initializer of a local variable with a name. -/
def InInitializer (p : Program β) (x : Bytes) (a : Address) : Prop :=
  ∃ v name init, p.part? v = some (.stmt (.var name init)) ∧ name.lexeme = x ∧ v.Encloses a ∧
    p.scopesAround v ≠ []

/-- The innermost scope around a part has a declaration of a name before the part. -/
def HasBefore (p : Program β) (x : Bytes) (a : Address) : Prop :=
  ∃ q, (p.scopesAround a).head? = some q ∧ p.Declares q x a

/-- The part at an address breaks a rule of the resolver, with this error. -/
inductive Violation (p : Program β) (lenient : Bool) : Address → StaticError → Prop where
  | returnAtTopLevel {a : Address} {t : Token} {result : Option (Expr β)}
    (h : p.part? a = some (.stmt (.return t result))) (hout : ¬ p.InFunction a) :
    Violation p lenient a ⟨t.line, .lexeme t.lexeme, .returnAtTopLevel⟩
  | branchOutsideLoop {a : Address} {t : Token} (h : p.part? a = some (.stmt (.branch t)))
    (hout : ¬ p.InLoop a) (hstrict : lenient = false) :
    Violation p lenient a ⟨t.line, .lexeme t.lexeme, .branchOutsideLoop t.lexeme⟩
  | alreadyDeclared {a : Address} {part : Part β} {t : Token} (h : p.part? a = some part)
    (ht : part.declared? = some t) (hbefore : p.HasBefore t.lexeme a) :
    Violation p lenient a ⟨t.line, .lexeme t.lexeme, .alreadyDeclared t.lexeme⟩
  | ownInitializer {a : Address} {t : Token} {u : β}
    (h : p.part? a = some (.expr (.variable t u))) (hin : p.InInitializer t.lexeme a) :
    Violation p lenient a ⟨t.line, .lexeme t.lexeme, .ownInitializer⟩

variable {p : Program β} {a c : Address} {i j : Nat} {x : Bytes}

/-- Whether there is a function at an address is seen from the part. -/
theorem isFunction_iff {part : Part β} (h : p.part? a = some part) :
    p.IsFunction a ↔ ∃ name params body, part = .stmt (.function name params body) := by
  simp only [IsFunction, h, Option.some.injEq]

/-- Whether there is a loop at an address is seen from the part. -/
theorem isLoop_iff {part : Part β} (h : p.part? a = some part) :
    p.IsLoop a ↔ ∃ keyword test body, part = .stmt (.while keyword test body) := by
  simp only [IsLoop, h, Option.some.injEq]

/-- Whether there is a declaration of a variable at an address is seen from the part. -/
theorem isVariable_iff {part : Part β} (h : p.part? a = some part) :
    p.IsVariable a ↔ ∃ name init, part = .stmt (.var name init) := by
  simp only [IsVariable, h, Option.some.injEq]

/-- The program is in no function. -/
theorem not_inFunction_nil : ¬ p.InFunction [] :=
  fun ⟨_, hf, _⟩ ↦ Address.not_encloses_nil hf

/-- The program is in no loop. -/
theorem not_inLoop_nil : ¬ p.InLoop [] := fun ⟨_, hw, _⟩ ↦ Address.not_encloses_nil hw

/-- The program is in no initializer. -/
theorem not_inInitializer_nil : ¬ p.InInitializer x [] :=
  fun ⟨_, _, _, _, _, hv, _⟩ ↦ Address.not_encloses_nil hv

/-- A child is in a function if its parent is one, or is in one. -/
theorem inFunction_cons : p.InFunction (i :: a) ↔ p.IsFunction a ∨ p.InFunction a := by
  constructor
  · rintro ⟨f, henc, hf⟩
    rcases Address.encloses_iff.mp henc with rfl | henc
    · exact .inl hf
    · exact .inr ⟨f, henc, hf⟩
  · rintro (hf | ⟨f, henc, hf⟩)
    · exact ⟨a, Address.encloses_iff.mpr (.inl rfl), hf⟩
    · exact ⟨f, Address.encloses_iff.mpr (.inr henc), hf⟩

/-- A function ends the loops around it. -/
theorem inLoop_cons :
    p.InLoop (i :: a) ↔ p.IsLoop a ∨ ¬ p.IsFunction a ∧ p.InLoop a := by
  constructor
  · rintro ⟨w, henc, hw, hinner⟩
    rcases Address.encloses_iff.mp henc with rfl | henc
    · exact .inl hw
    · refine .inr ⟨fun hf ↦ ?_, w, henc, hw, fun f hfa hf ↦ ?_⟩
      · -- a function at `a` would be within the loop
        have haw := hinner a (Address.encloses_iff.mpr (.inl rfl)) hf
        exact haw.2 (haw.1.eq_of_length (Nat.le_antisymm haw.1.length_le henc.1.length_le))
      · exact hinner f (Address.encloses_iff.mpr (.inr hfa)) hf
  · rintro (hw | ⟨hnot, w, henc, hw, hinner⟩)
    · refine ⟨a, Address.encloses_iff.mpr (.inl rfl), hw, fun f henc hf ↦ ?_⟩
      rcases Address.encloses_iff.mp henc with rfl | henc
      · obtain ⟨_, _, _, hfun⟩ := hf
        obtain ⟨_, _, _, hloop⟩ := hw
        rw [hfun] at hloop
        cases hloop
      · exact henc
    · refine ⟨w, Address.encloses_iff.mpr (.inr henc), hw, fun f hfa hf ↦ ?_⟩
      rcases Address.encloses_iff.mp hfa with rfl | hfa
      · exact absurd hf hnot
      · exact hinner f hfa hf

/-- A child is in an initializer of a local variable if its parent declares one, or is in one. -/
theorem inInitializer_cons : p.InInitializer x (i :: a) ↔
    (∃ name init, p.part? a = some (.stmt (.var name init)) ∧ name.lexeme = x ∧
      p.scopesAround a ≠ []) ∨ p.InInitializer x a := by
  constructor
  · rintro ⟨v, name, init, hv, hx, henc, hlocal⟩
    rcases Address.encloses_iff.mp henc with rfl | henc
    · exact .inl ⟨name, init, hv, hx, hlocal⟩
    · exact .inr ⟨v, name, init, hv, hx, henc, hlocal⟩
  · rintro (⟨name, init, hv, hx, hlocal⟩ | ⟨v, name, init, hv, hx, henc, hlocal⟩)
    · exact ⟨a, name, init, hv, hx, Address.encloses_iff.mpr (.inl rfl), hlocal⟩
    · exact ⟨v, name, init, hv, hx, Address.encloses_iff.mpr (.inr henc), hlocal⟩

/-- Only expressions are in expressions. -/
theorem exists_expr_of_mem_children {e : Expr β} {child : Part β}
    (h : child ∈ (Part.expr e).children) : ∃ e', child = .expr e' := by
  cases e <;> grind [Part.children]

/-- Only expressions are in a declaration of a variable. -/
theorem exists_expr_of_isVariable {child : Part β} (hv : p.IsVariable c) (henc : c.Encloses a)
    (hchild : p.part? a = some child) : ∃ e, child = .expr e := by
  induction a generalizing child with
  | nil => exact absurd henc Address.not_encloses_nil
  | cons i a ih =>
    obtain ⟨parent, hparent, hmem⟩ := part?_cons hchild
    have hmem := List.mem_of_getElem? hmem
    rcases Address.encloses_iff.mp henc with rfl | henc
    · obtain ⟨name, init, rfl⟩ := (isVariable_iff hparent).mp hv
      obtain ⟨e, -, rfl⟩ := List.mem_map.mp hmem
      exact ⟨e, rfl⟩
    · obtain ⟨e, rfl⟩ := ih henc hparent
      exact exists_expr_of_mem_children hmem

/-! ## Breaking a rule -/

/-- What rules a part can break. -/
theorem violation_iff {part : Part β} (hpart : p.part? a = some part) {lenient : Bool}
    {e : StaticError} :
    p.Violation lenient a e ↔
      (∃ t result, part = .stmt (.return t result) ∧ ¬ p.InFunction a ∧
        e = ⟨t.line, .lexeme t.lexeme, .returnAtTopLevel⟩) ∨
      (∃ t, part = .stmt (.branch t) ∧ (¬ p.InLoop a ∧ lenient = false) ∧
        e = ⟨t.line, .lexeme t.lexeme, .branchOutsideLoop t.lexeme⟩) ∨
      (∃ t, part.declared? = some t ∧ p.HasBefore t.lexeme a ∧
        e = ⟨t.line, .lexeme t.lexeme, .alreadyDeclared t.lexeme⟩) ∨
      ∃ t u, part = .expr (.variable t u) ∧ p.InInitializer t.lexeme a ∧
        e = ⟨t.line, .lexeme t.lexeme, .ownInitializer⟩ := by
  constructor
  · intro hv
    cases hv with
    | @returnAtTopLevel t result h hout =>
      rw [hpart] at h
      exact .inl ⟨t, result, Option.some.inj h, hout, rfl⟩
    | @branchOutsideLoop t h hout hstrict =>
      rw [hpart] at h
      exact .inr (.inl ⟨t, Option.some.inj h, ⟨hout, hstrict⟩, rfl⟩)
    | @alreadyDeclared _ t h ht hbefore =>
      rw [hpart] at h
      cases h
      exact .inr (.inr (.inl ⟨t, ht, hbefore, rfl⟩))
    | @ownInitializer t u h hin =>
      rw [hpart] at h
      exact .inr (.inr (.inr ⟨t, u, Option.some.inj h, hin, rfl⟩))
  · rintro (⟨t, result, rfl, hout, rfl⟩ | ⟨t, rfl, ⟨hout, hstrict⟩, rfl⟩ | ⟨t, ht, hbefore, rfl⟩ |
      ⟨t, u, rfl, hin, rfl⟩)
    · exact .returnAtTopLevel hpart hout
    · exact .branchOutsideLoop hpart hout hstrict
    · exact .alreadyDeclared hpart ht hbefore
    · exact .ownInitializer hpart hin

/-- Only parts that are there can break rules. -/
theorem Violation.isSome_part? {lenient : Bool} {e : StaticError} (h : p.Violation lenient a e) :
    (p.part? a).isSome := by
  cases h with
  | _ h => rw [h]; rfl

end Rules

end Program

end Lox
