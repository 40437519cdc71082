import Lox.StaticError

/-!
# Errors of running programs

A program that fails while it runs says which calls were active. An error of a call that no program
made has no place in a program, and says only why the call fails. The two faults that are none of
the program's are that the bound on the number of steps was reached, and that there was no rule for
what was met.
-/

namespace Lox

/-- An active call, or the top level, with the line of the step it is at. -/
structure Frame where
  /-- The name of the function; the top level has none. -/
  callee : Option Bytes
  line : Int
  deriving DecidableEq, Repr

/-- The name of a frame in descriptions of the active calls. -/
def Frame.name (f : Frame) : Bytes := f.callee.getD (Bytes.ofString "<toplevel>")

/-- The active calls, the innermost first and the top level last. -/
abbrev CallStack := List Frame

/-- A description of the active calls, the innermost last. -/
def CallStack.text (stack : CallStack) : Bytes :=
  let entry (f : Frame) : Bytes :=
    Bytes.ofString "  [line " ++ Bytes.ofInt f.line ++ Bytes.ofString "] in " ++ f.name ++
      [Bytes.newline]
  Bytes.ofString "Traceback (most recent call last):\n" ++ (stack.reverse.map entry).flatten

/-- Why a call fails apart from what the called function does. -/
inductive CallError where
  | notCallable
  | arity (expected : Int) (given : Nat)
  /-- The function of the host with this name fails. -/
  | failed (name : Bytes)
  | clockUnavailable
  /-- The function of the host with this text returned neither a value nor an error. -/
  | noResult (callee : Bytes)
  /-- A procedure of the host fails with this message. -/
  | procedure (message : Bytes)
  deriving DecidableEq, Repr

/-- The message of an error of a call. -/
def CallError.message : CallError → Bytes
  | .notCallable => Bytes.ofString "Can only call functions and classes."
  | .arity expected given =>
    Bytes.ofString "Expected " ++ Bytes.ofInt expected ++ Bytes.ofString " arguments but got " ++
      Bytes.ofNat given ++ Bytes.ofString "."
  | .failed name => name ++ Bytes.ofString ": failed"
  | .clockUnavailable => Bytes.ofString "clock: time is not available"
  | .noResult callee =>
    Bytes.ofString "internal error: nil (not Nil) returned from " ++ callee
  | .procedure message => message

/-- Why a program fails while it runs. -/
inductive RuntimeError.Cause where
  | operandNotNumber
  | operandsNotNumbers
  | operandsNotAddable
  | divisionByZero
  | undefinedVariable (name : Bytes)
  | branchOutsideLoop (keyword : Bytes)
  | returnAtTopLevel
  | call (e : CallError)
  deriving DecidableEq, Repr

/-- The message of a cause. -/
def RuntimeError.Cause.message : RuntimeError.Cause → Bytes
  | .operandNotNumber => Bytes.ofString "Operand must be a number."
  | .operandsNotNumbers => Bytes.ofString "Operands must be numbers."
  | .operandsNotAddable => Bytes.ofString "Operands must be two numbers or two strings."
  | .divisionByZero => Bytes.ofString "Division by zero."
  | .undefinedVariable name =>
    Bytes.ofString "Undefined variable '" ++ name ++ Bytes.ofString "'."
  | .branchOutsideLoop keyword => StaticError.branchOutsideLoopMessage keyword
  | .returnAtTopLevel => StaticError.returnAtTopLevelMessage
  | .call e => e.message

/-- An error of a running program, with the calls that were active. -/
structure RuntimeError where
  cause : RuntimeError.Cause
  line : Int
  stack : CallStack
  deriving DecidableEq, Repr

namespace RuntimeError

/-- The message of an error, followed by its line. -/
def text (e : RuntimeError) : Bytes :=
  e.cause.message ++ Bytes.ofString "\n[line " ++ Bytes.ofInt e.line ++ Bytes.ofString "]"

/-- The calls that led to an error, followed by its message. -/
def backtrace (e : RuntimeError) : Bytes :=
  e.stack.text ++ Bytes.ofString "Error: " ++ e.cause.message

end RuntimeError

/-- Why a step on a machine fails. -/
inductive Fault where
  | runtime (e : RuntimeError)
  | call (e : CallError)
  /-- The bound on the number of steps was reached. -/
  | outOfFuel
  /-- There is no rule for what the machine met. -/
  | stuck
  deriving DecidableEq, Repr

/-- An error of a program or of a call, after which a machine can go on. -/
def Fault.isError : Fault → Bool
  | .runtime _ | .call _ => true
  | .outOfFuel | .stuck => false

end Lox
