import Lox.Machine.Eval
import Lox.Proofs.Syntax.Formed

/-!
# What operators and functions of the host do

Applying an operator either yields data, or fails at the operator for the sake of its operands;
there is a rule for every operator that the grammar has (`Run.applied_unary`, `Run.applied_binary`).
A function of the host without a procedure leaves the machine alone (`Run.performed`). A procedure
hands on literals and what it was given or has got since (`Procedure.Hand.Holds`). What holds of
every step of the evaluator follows for these steps from the few things that they can do.
-/

namespace Lox

/-- A value that is no function. -/
def Value.IsData : Value → Prop
  | .function _ | .builtin _ => False
  | _ => True

/-- A cause that lies in the operands of an operator. -/
def RuntimeError.Cause.OfOperands : RuntimeError.Cause → Prop
  | .operandNotNumber | .operandsNotNumbers | .operandsNotAddable | .divisionByZero => True
  | _ => False

namespace Run

/-- What applying an operator does, if there is a rule for operators of these kinds. -/
inductive Applied (kinds : List Kind) (op : Token) : Run Value → Prop where
  | data {v : Value} (hv : v.IsData) : Applied kinds op (succeed v)
  | raised {cause : RuntimeError.Cause} (hcause : cause.OfOperands) :
    Applied kinds op (raise op cause)
  | stuck (hop : op.kind ∉ kinds) : Applied kinds op (fail .stuck)

/-- An operator with one operand does one of these things. -/
theorem applied_unary (op : Token) (v : Value) : Applied Kind.unary op (applyUnary op v) := by
  unfold applyUnary
  split
  case h_1 =>
    split
    · exact .data trivial
    · exact .raised trivial
  case h_2 => exact .data trivial
  case h_3 => exact .stuck (by simp_all [Kind.unary])

-- The operators on numbers are those between two operands, but for the three that all values have.
private theorem applied_arithmetic {op : Token} (hequal : op.kind ≠ .equalEqual)
    (hbang : op.kind ≠ .bangEqual) (hplus : op.kind ≠ .plus) (x y : Number) :
    Applied Kind.binary op (applyArithmetic op x y) := by
  unfold applyArithmetic
  split
  case h_3 =>
    split
    · exact .raised trivial
    · exact .data trivial
  case h_8 => exact .stuck (by simp_all [Kind.binary])
  all_goals exact .data trivial

/-- An operator with two operands does one of these things. -/
theorem applied_binary (op : Token) (v w : Value) :
    Applied Kind.binary op (applyBinary op v w) := by
  unfold applyBinary
  split
  case h_1 => exact .data trivial
  case h_2 => exact .data trivial
  case h_3 =>
    split
    · exact .data trivial
    · exact .data trivial
    · exact .raised trivial
  case h_4 hequal hbang hplus =>
    split
    · exact applied_arithmetic hequal hbang hplus _ _
    · exact .raised trivial

/-- What a function of the host does on a machine. -/
inductive Performed (args : List Value) (m : Machine) : Outcome Value → Prop where
  | data {v : Value} (hv : v.IsData) : Performed args m (.done v m)
  | arg {v : Value} (hv : v ∈ args) : Performed args m (.done v m)
  | failed (e : CallError) : Performed args m (.failed (.call e) m)
  | stuck : Performed args m (.failed .stuck m)

/-- A function of the host does one of these things. -/
theorem performed (f : Builtin) (args : List Value) (m : Machine) :
    Performed args m (perform f args m) := by
  unfold perform
  split
  case h_1 =>
    cases m.clock with
    | none => exact .failed _
    | some t => exact .data trivial
  case h_2 => exact .arg List.mem_cons_self
  case h_4 => exact .failed _
  case h_5 => exact .failed _
  all_goals first
    | exact .data trivial
    | exact .stuck

/-- A procedure that passes a call on ends as this call does, with its value or its error. -/
theorem start_passOn (call : Value → List Value → Int → Run Value) (f : Builtin) (line : Int)
    (g : Value) (rest : List Value) :
    start id attempt call f (Procedure.passOn line) (g :: rest) = call g rest line := by
  have hrest : ((List.range rest.length).map fun i ↦ Procedure.Operand.held (i + 1)).map
      (Procedure.Hand.value ⟨g :: rest, []⟩) = rest := by
    refine List.ext_getElem (by simp) fun i hi hi' ↦ ?_
    simp [Procedure.Hand.value, hi']
  have hargs : ((g :: rest).map Value.sight).length - 1 = rest.length := by simp
  funext m
  change andThen (attempt (call g _ line)) _ m = _
  rw [hargs, hrest]
  unfold andThen attempt
  cases call g rest line m with
  | done v m' => rfl
  | failed e m' => cases e <;> rfl

end Run

/-! ## What a procedure holds -/

/-- The value or the error that a call has come to has a property. -/
def Procedure.EndsWith (P : Value → Prop) (Q : Fault → Prop) : Except Fault Value → Prop
  | .ok v => P v
  | .error e => Q e

/-- What a procedure has got has a property. -/
structure Procedure.Hand.Holds (P : Value → Prop) (Q : Fault → Prop) (d : Hand) : Prop where
  values : ∀ v ∈ d.values, P v
  errors : ∀ e ∈ d.errors, Q e

namespace Procedure.Hand.Holds

variable {P P' : Value → Prop} {Q : Fault → Prop} {d : Hand}

/-- Values that have a property have every weaker one. -/
theorem mono (h : d.Holds P Q) (hP : ∀ v, P v → P' v) : d.Holds P' Q :=
  ⟨fun v hv ↦ hP v (h.values v hv), h.errors⟩

/-- A procedure hands on literals and what it has got. -/
theorem value (h : d.Holds P Q) (hliteral : ∀ v, P (.ofLiteral v)) (x : Operand) :
    P (d.value x) := by
  cases x with
  | literal v => exact hliteral v
  | held i =>
    rw [Hand.value]
    cases hv : d.values[i]? with
    | none => exact hliteral .nil
    | some v => exact h.values v (List.mem_of_getElem? hv)

/-- If literals and the values in the hand have a property, so do all operands. -/
theorem values_map (h : d.Holds P Q) (hliteral : ∀ v, P (.ofLiteral v)) (xs : List Operand) :
    ∀ v ∈ xs.map d.value, P v := by
  intro v hv
  obtain ⟨x, -, rfl⟩ := List.mem_map.mp hv
  exact h.value hliteral x

/-- Errors that a procedure makes itself have a property that all errors of calls have. -/
theorem error (h : d.Holds P Q) (hcall : ∀ e, Q (.call e)) (callee : Bytes) (i : Nat) :
    Q (d.error callee i) := by
  rw [Hand.error]
  cases he : d.errors[i]? with
  | none => exact hcall _
  | some e => exact h.errors e (List.mem_of_getElem? he)

/-- What a call has come to can be added to the hand. -/
theorem add (h : d.Holds P Q) {r : Except Fault Value} (hr : EndsWith P Q r) :
    (d.add r).Holds P Q := by
  cases r with
  | ok v => exact ⟨List.forall_mem_cons.mpr ⟨hr, h.values⟩, h.errors⟩
  | error e => exact ⟨h.values, List.forall_mem_cons.mpr ⟨hr, h.errors⟩⟩

/-- A value, if there is one, can be added to the hand. -/
theorem addValue (h : d.Holds P Q) {a : Option Value} (ha : ∀ v, a = some v → P v) :
    (d.addValue a).Holds P Q := by
  cases a with
  | none => exact h
  | some v => exact ⟨List.forall_mem_cons.mpr ⟨ha v rfl, h.values⟩, h.errors⟩

/-- A procedure starts with its arguments. -/
theorem ofArgs {args : List Value} (h : ∀ v ∈ args, P v) : Hand.Holds P Q ⟨args, []⟩ :=
  ⟨h, List.forall_mem_nil Q⟩

end Procedure.Hand.Holds
end Lox
