import Lox.Proofs.Syntax.Formed

/-!
# Where parts of a program are

A part of a program is named by its address: the way to it from the whole program, through the
children of the parts around it. An address lists the numbers of these children, that of the part
itself first, so that the address of a part ends in those of the parts around it.

In the order of a traversal, a part comes before another if it is around it, or if it is in an
earlier child of a part around both (`Address.Before`).
-/

namespace Lox

/-! ## Parts -/

namespace Program

/-- The whole program, or a statement, an expression or a parameter in it. -/
inductive Part (β : Type) where
  | program (p : Program β)
  | stmt (s : Stmt β)
  | expr (e : Expr β)
  | param (name : Token)

namespace Part

variable {β : Type}

/-- The parts that a part directly consists of, from left to right. -/
def children : Part β → List (Part β)
  | .program p => p.map .stmt
  | .stmt (.expr e) => [.expr e]
  | .stmt (.print _ e) => [.expr e]
  | .stmt (.var _ init) => init.toList.map .expr
  | .stmt (.block _ body) => body.map .stmt
  | .stmt (.ifElse _ test yes no) => .expr test :: .stmt yes :: no.toList.map .stmt
  | .stmt (.while _ test body) => [.expr test, .stmt body]
  | .stmt (.function _ params body) => params.map .param ++ body.map .stmt
  | .stmt (.return _ result) => result.toList.map .expr
  | .stmt (.branch _) => []
  | .expr (.literal _ _) => []
  | .expr (.grouping _ x) => [.expr x]
  | .expr (.unary _ x) => [.expr x]
  | .expr (.binary x _ y) => [.expr x, .expr y]
  | .expr (.logical x _ y) => [.expr x, .expr y]
  | .expr (.variable _ _) => []
  | .expr (.assign _ _ x) => [.expr x]
  | .expr (.call c _ args) => .expr c :: args.map .expr
  | .param _ => []

/-- The name that a part declares. -/
def declared? : Part β → Option Token
  | .stmt (.var name _) => some name
  | .stmt (.function name _ _) => some name
  | .param name => some name
  | _ => none

/-- Whether what a part consists of has a scope of its own. -/
def opens : Part β → Bool
  | .stmt (.block _ _) => true
  | .stmt (.function _ _ _) => true
  | _ => false

/-- The declarations of a part are in their places. -/
def Formed : Part β → Prop
  | .program p => Stmt.AllFormed p
  | .stmt s => s.Formed
  | .expr _ => True
  | .param _ => True

/-- The children of a part are smaller. -/
theorem sizeOf_lt_of_mem_children {part c : Part β} (h : c ∈ part.children) :
    sizeOf c < sizeOf part := by
  have hlist : ∀ {α : Type} [SizeOf α] {x : α} {xs : List α}, x ∈ xs → sizeOf x < sizeOf xs :=
    fun hx ↦ List.sizeOf_lt_of_mem hx
  unfold children at h
  split at h <;>
    simp only [List.mem_map, List.mem_cons, List.mem_append, List.not_mem_nil, or_false,
      Option.mem_toList] at h
  all_goals grind

/-- What holds of a part if it holds of all parts that it consists of holds of all parts. -/
theorem induction {motive : Part β → Prop}
    (h : ∀ part, (∀ c ∈ part.children, motive c) → motive part) (part : Part β) : motive part :=
  h part fun c _ ↦ induction h c
  termination_by sizeOf part
  decreasing_by exact sizeOf_lt_of_mem_children ‹_›

/-- No part consists of a program. -/
theorem program_notMem_children (part : Part β) (p : Program β) : program p ∉ part.children := by
  unfold children
  split <;> simp

/-- What a formed part consists of is formed. -/
theorem Formed.of_mem_children {part c : Part β} (h : part.Formed) (hc : c ∈ part.children) :
    c.Formed := by
  have hbody : ∀ {body : List (Stmt β)}, Stmt.AllFormed body → ∀ s ∈ body, (stmt s).Formed :=
    fun hf ↦ (Stmt.allFormed_iff _).mp hf
  cases c with
  | program p => exact absurd hc (program_notMem_children part p)
  | expr e => trivial
  | param t => trivial
  | stmt s =>
    unfold children at hc
    split at hc <;>
      simp only [List.mem_map, List.mem_cons, List.mem_append, List.not_mem_nil, or_false,
        Option.mem_toList, stmt.injEq, reduceCtorEq, and_false, exists_false, false_or,
        exists_eq_right] at hc
    · exact hbody h s hc
    · exact hbody h s hc
    · next no =>
      cases no with
      | none =>
        rcases hc with rfl | hno
        · exact h.2.1
        · cases hno
      | some no =>
        rcases hc with rfl | hno
        · exact h.2.1.1
        · cases hno
          exact h.2.2.1
    · rw [hc]
      exact h.2.1
    · exact hbody h s hc

/-- Only the program, blocks and functions directly consist of declarations. -/
theorem Formed.plain {part c : Part β} (h : part.Formed) (hopens : part.opens = false)
    (hprogram : ∀ p, part ≠ .program p) (hc : c ∈ part.children) : c.declared? = none := by
  have hplain : ∀ {s : Stmt β}, s.isDeclaration = false → (stmt s).declared? = none := by
    intro s hs
    cases s with
    | var name init => cases hs
    | function name params body => cases hs
    | _ => rfl
  cases part with
  | program p => exact absurd rfl (hprogram p)
  | param t => cases hc
  | expr e => cases e <;> grind [children, declared?]
  | stmt s =>
    cases s with
    | block brace body => cases hopens
    | function name params body => cases hopens
    | ifElse t test yes no =>
      cases no with
      | none =>
        rcases List.mem_cons.mp hc with rfl | hc
        · rfl
        · rw [List.mem_singleton.mp hc]
          exact hplain h.2.2
      | some no =>
        rcases List.mem_cons.mp hc with rfl | hc
        · rfl
        rcases List.mem_cons.mp hc with rfl | hc
        · exact hplain h.2.1.2
        · rw [List.mem_singleton.mp hc]
          exact hplain h.2.2.2
    | «while» t test body =>
      rcases List.mem_cons.mp hc with rfl | hc
      · rfl
      · rw [List.mem_singleton.mp hc]
        exact hplain h.2.2
    | _ => grind [children, declared?]

end Part

end Program

/-! ## Addresses -/

/-- The numbers of the children on the way to a part, the last one first. -/
abbrev Address := List Nat

namespace Address

variable {a b c : Address} {i : Nat}

/-- One part is around another. -/
def Encloses (a c : Address) : Prop := a <:+ c ∧ a ≠ c

/-- One part comes before another in the order of a traversal. -/
inductive Before : Address → Address → Prop where
  | around {c a : Address} (h : Encloses c a) : Before c a
  | earlier {b c a : Address} {i j : Nat} (hlt : i < j) (hc : i :: b <:+ c) (ha : j :: b <:+ a) :
    Before c a

/-- Around a part are its parent and what is around that. -/
theorem encloses_cons : Encloses c (i :: a) ↔ c <:+ a := by
  constructor
  · rintro ⟨h, hne⟩
    exact (List.suffix_cons_iff.mp h).resolve_left hne
  · intro h
    refine ⟨h.trans (List.suffix_cons i a), fun heq ↦ ?_⟩
    have hlen := h.length_le
    rw [heq, List.length_cons] at hlen
    omega

/-- A part is around a child of its own and of all parts that it is around. -/
theorem encloses_iff : Encloses c (i :: a) ↔ c = a ∨ Encloses c a := by
  rw [encloses_cons]
  constructor
  · intro h
    by_cases heq : c = a
    · exact .inl heq
    · exact .inr ⟨h, heq⟩
  · rintro (rfl | h)
    · exact List.suffix_refl c
    · exact h.1

/-- A part is around what is in its children. -/
theorem encloses_of_suffix_cons (h : i :: a <:+ c) : Encloses a c := by
  refine ⟨(List.suffix_cons i a).trans h, ?_⟩
  rintro rfl
  exact Nat.not_succ_le_self _ h.length_le

/-- Nothing is around the whole program. -/
theorem not_encloses_nil : ¬ Encloses c [] := fun h ↦ h.2 (List.suffix_nil.mp h.1)

/-- Two ways through one part to the same part are the same. -/
theorem cons_inj_of_suffix {j : Nat} (h : i :: b <:+ c) (h' : j :: b <:+ c) : i = j := by
  have heq := (List.suffix_of_suffix_length_le h h' (by simp)).eq_of_length (by simp)
  exact (List.cons.inj heq).1

/-- What is in a part does not come before it. -/
theorem not_before_of_suffix (h : a <:+ c) : ¬ Before c a := by
  rintro (⟨hca, hne⟩ | ⟨hlt, hc, ha⟩)
  · exact hne (hca.eq_of_length (Nat.le_antisymm hca.length_le h.length_le))
  · exact Nat.ne_of_lt hlt (cons_inj_of_suffix hc (ha.trans h))

/-- Before the first child of a part comes the part itself, and what is before it. -/
theorem before_first : Before c (0 :: a) ↔ Before c a ∨ c = a := by
  constructor
  · rintro (h | ⟨hlt, hc, ha⟩)
    · rcases encloses_iff.mp h with rfl | h
      · exact .inr rfl
      · exact .inl (.around h)
    · rcases List.suffix_cons_iff.mp ha with heq | ha
      · exact absurd ((List.cons.inj heq).1 ▸ hlt) (Nat.not_lt_zero _)
      · exact .inl (.earlier hlt hc ha)
  · rintro ((h | ⟨hlt, hc, ha⟩) | rfl)
    · exact .around (encloses_iff.mpr (.inr h))
    · exact .earlier hlt hc (ha.trans (List.suffix_cons 0 a))
    · exact .around (encloses_iff.mpr (.inl rfl))

/-- Before a later child of a part comes the child before it, with what is in it, and what is before
that. -/
theorem before_next : Before c ((i + 1) :: b) ↔ Before c (i :: b) ∨ i :: b <:+ c := by
  constructor
  · rintro (h | @⟨d, _, _, k, j, hlt, hc, ha⟩)
    · exact .inl (.around (encloses_cons.mpr (encloses_cons.mp h)))
    · rcases List.suffix_cons_iff.mp ha with heq | ha
      · obtain ⟨rfl, rfl⟩ := List.cons.inj heq
        rcases Nat.lt_succ_iff_lt_or_eq.mp hlt with hlt | rfl
        · exact .inl (.earlier hlt hc (List.suffix_refl _))
        · exact .inr hc
      · exact .inl (.earlier hlt hc (ha.trans (List.suffix_cons i b)))
  · rintro ((h | @⟨d, _, _, k, j, hlt, hc, ha⟩) | h)
    · exact .around (encloses_cons.mpr (encloses_cons.mp h))
    · rcases List.suffix_cons_iff.mp ha with heq | ha
      · obtain ⟨rfl, rfl⟩ := List.cons.inj heq
        exact .earlier (Nat.lt_succ_of_lt hlt) hc (List.suffix_refl _)
      · exact .earlier hlt hc (ha.trans (List.suffix_cons _ b))
    · exact .earlier (Nat.lt_succ_self i) h (List.suffix_refl _)

end Address

namespace Program

variable {β : Type} {p : Program β} {a c : Address} {i : Nat}

/-- The part of a program at an address. -/
def part? (p : Program β) : Address → Option (Part β)
  | [] => some (.program p)
  | i :: a => (p.part? a).bind fun part ↦ part.children[i]?

/-- A part that is not the whole program is a child. -/
theorem part?_cons {child : Part β} (h : p.part? (i :: a) = some child) :
    ∃ part, p.part? a = some part ∧ part.children[i]? = some child :=
  Option.bind_eq_some_iff.mp h

/-- Around a part there are parts. -/
theorem isSome_part?_of_suffix (h : a <:+ c) (hc : (p.part? c).isSome) : (p.part? a).isSome := by
  induction c with
  | nil =>
    rw [List.suffix_nil.mp h]
    rfl
  | cons i c ih =>
    rcases List.suffix_cons_iff.mp h with rfl | h
    · exact hc
    · obtain ⟨child, hchild⟩ := Option.isSome_iff_exists.mp hc
      obtain ⟨part, hpart, -⟩ := part?_cons hchild
      exact ih h (Option.isSome_iff_exists.mpr ⟨part, hpart⟩)

/-- Only the whole program is the program. -/
theorem part?_cons_ne_program {q : Program β} : p.part? (i :: a) ≠ some (.program q) := by
  intro h
  obtain ⟨part, -, hchild⟩ := part?_cons h
  exact part.program_notMem_children q (List.mem_of_getElem? hchild)

/-- The parts of a formed program are formed. -/
theorem formed_part? (hf : Stmt.AllFormed p) {part : Part β} (h : p.part? a = some part) :
    part.Formed := by
  induction a generalizing part with
  | nil =>
    cases h
    exact hf
  | cons i a ih =>
    obtain ⟨parent, hparent, hchild⟩ := part?_cons h
    exact (ih hparent).of_mem_children (List.mem_of_getElem? hchild)

end Program

end Lox
