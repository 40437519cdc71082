import Lox.Machine.Eval
import Lox.Syntax.Parse

/-!
# Sessions

Sources are run one after the other on a machine, whose global variables last. A source with static
errors is not run at all and leaves the machine as it was.
-/

namespace Lox

/-- Why a source did not run to its end. -/
inductive Failure where
  | static (errors : List StaticError)
  | fault (f : Fault)
  deriving DecidableEq, Repr

namespace Failure

/-- The text of a failure, with the active calls in place of the line if they are wanted and
known. -/
def text (backtrace : Bool) : Failure → Bytes
  | .static errors => StaticError.listText errors
  | .fault (.runtime e) => if backtrace then e.backtrace else e.text
  | .fault (.call e) => e.message
  | .fault .outOfFuel => Bytes.ofString "out of fuel"
  | .fault .stuck => Bytes.ofString "stuck"

/-- The status of a process that ends with a failure. -/
def status : Failure → Nat
  | .static _ => 65
  | .fault (.runtime _) => 70
  | .fault _ => 1

end Failure

/-- The status of a process that ends with a result. -/
def exitStatus {α : Type} : Except Failure α → Nat
  | .ok _ => 0
  | .error f => f.status

/-- More steps than any run takes that is waited for. -/
def plentyOfFuel : Nat := Nat.pow 10 18

/-- The result of a step apart from the machine it leaves. -/
def Outcome.result {α : Type} : Outcome α → Except Failure α × Machine
  | .done a m => (.ok a, m)
  | .failed f m => (.error (.fault f), m)

namespace Machine

/-- Runs a program from its source. -/
def runSource (fuel : Nat) (lenient : Bool) (src : Bytes) (m : Machine) :
    Except Failure Unit × Machine :=
  let parsed := parseProgram src
  if parsed.errors.isEmpty then
    let resolved := parsed.tree.resolve lenient
    if resolved.errors.isEmpty then (Run.interpret fuel resolved.tree m).result
    else (.error (.static resolved.errors), m)
  else (.error (.static parsed.errors), m)

/-- Evaluates an expression from its source. -/
def evalSource (fuel : Nat) (src : Bytes) (m : Machine) : Except Failure Value × Machine :=
  let parsed := parseExpr src
  match parsed.errors, parsed.tree with
  | [], some e =>
    let resolved := e.resolve
    if resolved.errors.isEmpty then (Run.evaluate fuel resolved.tree m).result
    else (.error (.static resolved.errors), m)
  | errors, _ => (.error (.static errors), m)

/-- Runs what can be parsed of a source in spite of static errors. Without local variables all its
uses of variables are taken for global ones. -/
def forceSource (fuel : Nat) (lenient noLocals : Bool) (src : Bytes) (m : Machine) :
    Except Failure Unit × Machine :=
  let program := ((parseProgram src).tree.resolve lenient).tree
  let program := if noLocals then Stmt.mapUsesList (fun _ ↦ Binding.global) program else program
  (Run.interpret fuel program m).result

/-- Calls a value from outside of any program, as if from `line` of the innermost frame. -/
def callValue (fuel : Nat) (f : Value) (args : List Value) (line : Int) (m : Machine) :
    Except Failure Value × Machine :=
  (Run.call fuel f args line m).result

/-- The value of a global variable. -/
def getGlobal? (m : Machine) (name : Bytes) : Option Value := m.heap.get? globals name

/-- Defines a global variable. -/
def defineGlobal (m : Machine) (name : Bytes) (v : Value) : Machine :=
  { m with heap := m.heap.define globals name v }

/-- Assigns to a global variable, if it exists. -/
def assignGlobal? (m : Machine) (name : Bytes) (v : Value) : Option Machine :=
  (m.heap.assign? globals name v).map fun heap ↦ { m with heap }

/-- A new function of the host. -/
def newBuiltin (m : Machine) (name : Bytes) (arity : Int) (action : Builtin.Action) :
    Value × Machine :=
  (.builtin ⟨m.nextFunction, name, arity, action⟩, { m with nextFunction := m.nextFunction + 1 })

end Machine
end Lox
