import Lox.Machine.Fault

/-!
# Procedures of the host

A function of the host is not written in the language, and what it does is given by a procedure. A
procedure calls values, in any number and order, reads and defines global variables, and in the end
returns a value or fails. What it does next may depend on all that it has seen up to then: on its
arguments and the values that it got since, on the errors of the calls it made, and on the calls
that were active around its own. It goes on after an error of a call that it made unless it fails
with it.

A procedure sees a value, but a declared function only from the outside: by its name, by the number
of its parameters, and by its identity.

No procedure runs a program or evaluates an expression on the machine that runs it. A run starts at
top level, whatever calls are active, so that there would be no frame left for the calls around it
and no environment for the blocks around it. What is said of all procedures is said of functions of
the host that leave this out; a function that does it breaks the machine (`Run.calls_to_run_stuck`).
-/

namespace Lox

/-- What a procedure sees of a value. -/
inductive Sight where
  | literal (v : Literal)
  | function (id : Nat) (name : Bytes) (arity : Nat)
  | builtin (id : Nat) (name : Bytes) (arity : Int)
  deriving DecidableEq, Repr

namespace Procedure

/-- A value that a procedure hands on. -/
inductive Operand where
  | literal (v : Literal)
  /-- A value that it has got, the latest first, and after these its arguments. -/
  | held (i : Nat)

/-- What a procedure sees when it starts. -/
structure Occasion where
  args : List Sight
  /-- The calls around its own. -/
  callers : CallStack

/-- What a procedure sees of a call that it made, when the call has ended. -/
inductive Reply where
  | returned (v : Sight)
  | failed (e : Fault)

end Procedure

/-- What a function of the host does from some point on. -/
inductive Procedure where
  | yield (v : Procedure.Operand)
  | fail (message : Bytes)
  /-- Fails with an error that it has met, the latest first. -/
  | rethrow (i : Nat)
  | call (callee : Procedure.Operand) (args : List Procedure.Operand) (line : Int)
    (next : Procedure.Reply → Procedure)
  | read (name : Bytes) (next : Option Sight → Procedure)
  | define (name : Bytes) (v : Procedure.Operand) (next : Procedure)

/-- Calls its first argument with the others, from `line`, and ends as this call does. -/
def Procedure.passOn (line : Int) (o : Occasion) : Procedure :=
  .call (.held 0) ((List.range (o.args.length - 1)).map fun i ↦ .held (i + 1)) line fun
    | .returned _ => .yield (.held 0)
    | .failed _ => .rethrow 0

end Lox
