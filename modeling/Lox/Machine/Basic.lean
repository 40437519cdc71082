import Lox.Value.Heap

/-!
# The state of a running program

A machine holds the environments, says which of them is current and which calls are active, and
keeps what was printed. Its global environment is the first one; it has the predeclared functions
and lasts from one program to the next.

A step on a machine either yields a value or fails, and leaves a machine in both cases: what was
done before a failure remains done. Failures are errors of the program, errors of a call that no
program made, and the two that are none of the program's: that the bound on the number of steps was
reached, and that the machine had no rule for what it met.
-/

namespace Lox

/-- A printed text, with the name of the innermost frame and the number of frames at the time. -/
structure Printed where
  text : Bytes
  frame : Bytes
  depth : Nat
  deriving DecidableEq, Repr

/-- The state of a running program. -/
structure Machine where
  heap : Heap
  /-- The current environment. -/
  env : EnvId
  stack : CallStack
  /-- What was printed, the latest first. -/
  printed : List Printed
  /-- The identity that the next new function gets. -/
  nextFunction : Nat
  /-- The time in nanoseconds, if there is a clock. -/
  clock : Option Int

namespace Machine

/-- The global environment. -/
def globals : EnvId := 0

/-- The identity of the function that tells the time. -/
def clockId : Nat := 0

/-- The function that tells the time. -/
def clockFunction : Builtin := ⟨clockId, Bytes.ofString "clock", 0, .clock⟩

/-- The predeclared functions. -/
def predeclared : Bindings := [(clockFunction.name, .builtin clockFunction)]

/-- A machine on which nothing has run. Functions get identities from `firstId` on, which is past
those of the predeclared ones. -/
def start (clock : Option Int) (firstId : Nat) : Machine :=
  { heap := ⟨#[⟨predeclared, none⟩]⟩
    env := globals
    stack := []
    printed := []
    nextFunction := max firstId (clockId + 1)
    clock }

/-- The number of active calls, including the top level. -/
def depth (m : Machine) : Nat := m.stack.length

/-- All that was printed, each text on a line of its own. -/
def output (m : Machine) : Bytes :=
  (m.printed.reverse.map fun p ↦ p.text ++ [Bytes.newline]).flatten

/-- The machine at the start of a program: at top level, in the global environment. -/
def atTopLevel (m : Machine) : Machine := { m with env := globals, stack := [⟨none, 0⟩] }

/-- Sets the line of the innermost frame, which is made if there is none yet. -/
def setLine (m : Machine) (line : Int) : Machine :=
  { m with
    stack := match m.stack with
      | [] => [⟨none, line⟩]
      | f :: rest => { f with line } :: rest }

end Machine

/-- The result of a step on a machine. -/
inductive Outcome (α : Type) where
  | done (value : α) (after : Machine)
  | failed (fault : Fault) (after : Machine)

/-- A step on a machine. -/
def Run (α : Type) := Machine → Outcome α

namespace Run

/-- Yields a value and changes nothing. -/
@[inline] def succeed {α : Type} (a : α) : Run α := fun m ↦ .done a m

/-- Does one step, and then the one that its value selects unless it failed. -/
@[inline] def andThen {α β : Type} (r : Run α) (f : α → Run β) : Run β := fun m ↦
  match r m with
  | .done a m => f a m
  | .failed e m => .failed e m

/-- Steps one after the other; a step that fails is the last one. -/
instance : Monad Run where
  pure := succeed
  bind := andThen

/-- Fails without changing anything. -/
@[inline] def fail {α : Type} (e : Fault) : Run α := fun m ↦ .failed e m

/-- Fails with an error of the program at a token, whose line becomes that of the innermost
frame. -/
def raise {α : Type} (t : Token) (cause : RuntimeError.Cause) : Run α := fun m ↦
  let m := m.setLine t.line
  .failed (.runtime ⟨cause, t.line, m.stack⟩) m

/-- Looks at the machine. -/
@[inline] def look {α : Type} (f : Machine → α) : Run α := fun m ↦ .done (f m) m

/-- Changes the machine. -/
@[inline] def change (f : Machine → Machine) : Run Unit := fun m ↦ .done () (f m)

/-- Prints a text. -/
def print (text : Bytes) : Run Unit := change fun m ↦
  let frame := m.stack.head?.elim [] Frame.name
  { m with printed := ⟨text, frame, m.stack.length⟩ :: m.printed }

/-- Binds a name in the current environment. -/
def define (name : Bytes) (v : Value) : Run Unit := change fun m ↦
  { m with heap := m.heap.define m.env name v }

/-- Makes a new environment, enclosed by the given one. -/
def newEnv (enclosing : EnvId) : Run EnvId := fun m ↦
  .done m.heap.nextId { m with heap := m.heap.push (some enclosing) }

/-- Makes a new function of the current environment. -/
def newFunction (name : Token) (params : List Token) (body : Program Binding) : Run Value := fun m ↦
  .done (.function ⟨m.nextFunction, name, params, body, m.env⟩)
    { m with nextFunction := m.nextFunction + 1 }

/-- Does a step in another environment and returns to the current one, whether it fails or not. -/
@[inline] def inEnv {α : Type} (e : EnvId) (r : Run α) : Run α := fun m ↦
  let before := m.env
  match r { m with env := e } with
  | .done a m => .done a { m with env := before }
  | .failed f m => .failed f { m with env := before }

/-- Does a step as a call from `line` of the innermost frame, and ends the call whether the step
fails or not. -/
@[inline] def inCall {α : Type} (callee : Bytes) (line : Int) (r : Run α) : Run α := fun m ↦
  let m := m.setLine line
  match r { m with stack := ⟨some callee, 0⟩ :: m.stack } with
  | .done a m =>
    match m.stack with
    | [] => .failed .stuck m
    | _ :: rest => .done a { m with stack := rest }
  | .failed f m =>
    match m.stack with
    | [] => .failed .stuck m
    | _ :: rest => .failed f { m with stack := rest }

/-- Does a step and yields the error that it ends with, if it ends with one. -/
def attempt {α : Type} (r : Run α) : Run (Except Fault α) := fun m ↦
  match r m with
  | .done a m => .done (.ok a) m
  | .failed e m => if e.isError then .done (.error e) m else .failed e m

/-- The value of a variable. -/
def lookup (name : Token) (b : Binding) : Run Value := fun m ↦
  let found : Option (Option Value) := match b with
    | .global => some (m.heap.get? Machine.globals name.lexeme)
    | .scope depth => (m.heap.ancestor? depth m.env).map (m.heap.lookup · name.lexeme)
  match found with
  | none => .failed .stuck m
  | some (some v) => .done v m
  | some none => raise name (.undefinedVariable name.lexeme) m

/-- Assigns to a variable, which has to exist if it is global. -/
def assign (name : Token) (b : Binding) (v : Value) : Run Unit := fun m ↦
  match b with
  | .global =>
    match m.heap.owner? Machine.globals name.lexeme with
    | none => raise name (.undefinedVariable name.lexeme) m
    | some e => .done () { m with heap := m.heap.define e name.lexeme v }
  | .scope depth =>
    match m.heap.ancestor? depth m.env with
    | none => .failed .stuck m
    | some e => .done () { m with heap := m.heap.define e name.lexeme v }

end Run
end Lox
