import Lox.Proofs.Environments
import Lox.Proofs.Number.Comparison

/-!
# Equality of values

The equality that programs can ask for is an equivalence on all values, whatever is not a number
included. It goes by type, and functions are equal only if they are one and the same: of all the
functions that were made in a session, each is equal to itself only. The two operators that ask for
it never agree (`Value.equal_is_equivalence`).
-/

namespace Lox

namespace Value

/-- Values that are equal, by what they are. -/
inductive Equal : Value → Value → Prop where
  | nil : Equal .nil .nil
  | bool (b : Bool) : Equal (.bool b) (.bool b)
  | number {x y : Number} (h : x.same y = true) : Equal (.number x) (.number y)
  | text (s : Bytes) : Equal (.text s) (.text s)
  | function {f g : Closure} (h : f.id = g.id) : Equal (.function f) (.function g)
  | builtin {f g : Builtin} (h : f.id = g.id) : Equal (.builtin f) (.builtin g)

variable {u v w : Value}

private theorem equal_iff : v.equal w = true ↔ Equal v w := by
  constructor
  · intro h
    cases v with
    | nil =>
      cases w with
      | nil => exact .nil
      | _ => cases h
    | bool b =>
      cases w with
      | bool c => exact beq_iff_eq.mp h ▸ .bool b
      | _ => cases h
    | number x =>
      cases w with
      | number y => exact .number h
      | _ => cases h
    | text s =>
      cases w with
      | text t => exact beq_iff_eq.mp h ▸ .text s
      | _ => cases h
    | function f =>
      cases w with
      | function g => exact .function (beq_iff_eq.mp h)
      | _ => cases h
    | builtin f =>
      cases w with
      | builtin g => exact .builtin (beq_iff_eq.mp h)
      | _ => cases h
  · rintro (_ | b | h | s | h | h)
    · rfl
    · exact beq_self_eq_true b
    · exact h
    · exact beq_self_eq_true s
    · exact beq_iff_eq.mpr h
    · exact beq_iff_eq.mpr h

namespace Equal

private theorem refl (v : Value) : Equal v v := by
  cases v with
  | nil => exact .nil
  | bool b => exact .bool b
  | number x => exact .number (Number.equivalence_same.refl x)
  | text s => exact .text s
  | function f => exact .function rfl
  | builtin f => exact .builtin rfl

private theorem symm (h : Equal v w) : Equal w v := by
  cases h with
  | nil => exact .nil
  | bool b => exact .bool b
  | number h => exact .number (Number.equivalence_same.symm h)
  | text s => exact .text s
  | function h => exact .function h.symm
  | builtin h => exact .builtin h.symm

private theorem trans (h : Equal u v) (h' : Equal v w) : Equal u w := by
  cases h with
  | nil => exact h'
  | bool b => exact h'
  | text s => exact h'
  | number h =>
    cases h' with
    | number h' => exact .number (Number.equivalence_same.trans h h')
  | function h =>
    cases h' with
    | function h' => exact .function (h.trans h')
  | builtin h =>
    cases h' with
    | builtin h' => exact .builtin (h.trans h')

private theorem typeName_eq (h : Equal v w) : v.typeName = w.typeName := by
  cases h <;> rfl

private theorem id?_eq (h : Equal v w) : v.id? = w.id? := by
  cases h with
  | function h => exact congrArg some h
  | builtin h => exact congrArg some h
  | _ => rfl

end Equal

private theorem equivalence_equal : Equivalence fun v w : Value ↦ v.equal w = true where
  refl v := equal_iff.mpr (.refl v)
  symm h := equal_iff.mpr (equal_iff.mp h).symm
  trans h h' := equal_iff.mpr ((equal_iff.mp h).trans (equal_iff.mp h'))

end Value

/-- Of the functions that were made each is equal to itself only. -/
theorem Moment.Sound.equal_iff {t : Moment} (h : t.Sound) {i j : Nat} {v w : Value}
    (hi : t.made[i]? = some v) (hj : t.made[j]? = some w) : v.equal w = true ↔ i = j := by
  constructor
  · intro heq
    have hid : v.id? = w.id? := (Value.equal_iff.mp heq).id?_eq
    obtain ⟨hilt, rfl⟩ := List.getElem?_eq_some_iff.mp hi
    obtain ⟨hjlt, rfl⟩ := List.getElem?_eq_some_iff.mp hj
    have hdistinct := List.pairwise_iff_getElem.mp h.distinct
    rcases Nat.lt_trichotomy i j with hlt | heq | hgt
    · exact absurd hid (hdistinct i j hilt hjlt hlt)
    · exact heq
    · exact absurd hid.symm (hdistinct j i hjlt hilt hgt)
  · rintro rfl
    rw [hi, Option.some.injEq] at hj
    exact hj ▸ Value.equivalence_equal.refl v

namespace Run

/-- What it comes to if two expressions are compared, and what if it is asked whether they differ:
opposite truth values, of the values that they have, or one and the same failure. -/
inductive Compared (n : Nat) (x y : Expr Binding) (m : Machine) :
    Outcome Value → Outcome Value → Prop where
  | values {v w : Value} {m₁ m₂ : Machine} (hx : eval n x m = .done v m₁)
    (hy : eval n y m₁ = .done w m₂) :
    Compared n x y m (.done (.bool (v.equal w)) m₂) (.done (.bool !v.equal w) m₂)
  | failed (f : Fault) (m' : Machine) : Compared n x y m (.failed f m') (.failed f m')

private theorem compared {eq ne : Token} (heq : eq.kind = .equalEqual)
    (hne : ne.kind = .bangEqual) (n : Nat) (x y : Expr Binding) (m : Machine) :
    Compared n x y m (eval (n + 1) (.binary x eq y) m) (eval (n + 1) (.binary x ne y) m) := by
  change Compared n x y m
    (andThen (eval n x) (fun v ↦ andThen (eval n y) fun w ↦ applyBinary eq v w) m)
    (andThen (eval n x) (fun v ↦ andThen (eval n y) fun w ↦ applyBinary ne v w) m)
  unfold andThen
  cases hx : eval n x m with
  | failed f m' => exact .failed f m'
  | done v m₁ =>
    dsimp only [andThen]
    cases hy : eval n y m₁ with
    | failed f m' => exact .failed f m'
    | done w m₂ =>
      simp only [applyBinary, heq, hne]
      exact .values hx hy

end Run

/-- Equality is an equivalence on all values. It relates no values of different types. Numbers are
equal if the machine takes them for equal, or finds each of them different from itself. In every
state of every session, all functions that the host or a variable has are among those that were
made, and of these each is equal to itself only. The operators that ask for equality and for its
opposite always answer by it, and oppositely, unless the operands fail. -/
theorem Value.equal_is_equivalence :
    (Equivalence fun v w : Value ↦ v.equal w = true) ∧
    (∀ v w : Value, v.equal w = true → v.typeName = w.typeName) ∧
    (∀ x y : Number, (Value.number x).equal (.number y) =
      (x.toFloat == y.toFloat || x.toFloat != x.toFloat && y.toFloat != y.toFloat)) ∧
    (∀ (clock : Option Int) (firstId : Nat) (script : List (Nat × Deed)),
      let s := (Documented.start clock firstId).after script
      (∀ v ∈ s.hosted.held, s.now.Knows v) ∧
      ∀ t ∈ s.chronicle.moments, (∀ e x v, t.machine.heap.lookup e x = some v → t.Knows v) ∧
        ∀ (i j : Nat) (v w : Value), t.made[i]? = some v → t.made[j]? = some w →
          (v.equal w = true ↔ i = j)) ∧
    ∀ eq ne : Token, eq.kind = .equalEqual → ne.kind = .bangEqual → ∀ n x y m,
      Run.Compared n x y m (Run.eval (n + 1) (.binary x eq y) m)
        (Run.eval (n + 1) (.binary x ne y) m) := by
  refine ⟨equivalence_equal, fun v w h ↦ (equal_iff.mp h).typeName_eq, fun x y ↦ x.same_eq y,
    fun clock firstId script ↦ ?_, fun _ _ heq hne ↦ Run.compared heq hne⟩
  have h := (Documented.sound_start clock firstId).after script
  refine ⟨h.held, fun t ht ↦ ?_⟩
  have hsound := h.chronicle.moments t ht
  exact ⟨hsound.known, fun _ _ _ _ ↦ hsound.equal_iff⟩

/-- Two different numbers that are none, compared by both operators: they are equal, and do not
differ. -/
theorem Value.equal_is_equivalence_nan :
    let x : Expr Binding := .literal ⟨.number, [], .nil, 1⟩ (.number ⟨0x7FF8000000000000⟩)
    let y : Expr Binding := .literal ⟨.number, [], .nil, 1⟩ (.number ⟨0xFFF8000000000001⟩)
    let eq : Token := ⟨.equalEqual, [61, 61], .nil, 1⟩
    let ne : Token := ⟨.bangEqual, [33, 61], .nil, 1⟩
    let m := Machine.start none 0
    eq.kind = .equalEqual ∧ ne.kind = .bangEqual ∧
    Run.Compared 1 x y m (.done (.bool true) m) (.done (.bool false) m) := by
  intro x y eq ne m
  obtain ⟨-, -, -, -, hcompared⟩ := equal_is_equivalence
  exact ⟨rfl, rfl, hcompared eq ne rfl rfl 1 x y m⟩

end Lox
