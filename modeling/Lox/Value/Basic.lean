import Lox.Scope.Resolve
import Lox.Value.Procedure

/-!
# Values

What expressions evaluate to: nothing, truth values, numbers, byte strings, functions declared in a
program and functions of the host. A declared function belongs to the environment it was declared
in, which is given by its address. Both kinds of function have an identity, by which alone they are
compared: declaring the same function twice makes two of them.
-/

namespace Lox

/-- The address of an environment. -/
abbrev EnvId := Nat

/-- A function declared in a program, together with the environment of its declaration. -/
structure Closure where
  id : Nat
  name : Token
  params : List Token
  body : Program Binding
  env : EnvId

/-- What a function of the host does. -/
inductive Builtin.Action where
  /-- Tells the time in seconds. -/
  | clock
  /-- Returns its first argument. -/
  | first
  /-- Returns the name of the type of its first argument. -/
  | typeName
  /-- Fails. -/
  | fail
  /-- Returns, against the rules, neither a value nor an error. -/
  | nothing
  /-- Returns a description of the active calls. -/
  | stack
  /-- Returns the number of active calls, the top level included. -/
  | depth
  /-- Returns nil. -/
  | nil
  /-- Does what a procedure says. -/
  | procedure (start : Procedure.Occasion → Procedure)

/-- Calls its first argument with the others. -/
def Builtin.Action.call : Builtin.Action := .procedure (Procedure.passOn 77)

/-- Whether lines of a program may matter to a function of the host. -/
def Builtin.Action.seesLines : Builtin.Action → Bool
  | .stack | .procedure _ => true
  | _ => false

/-- A function of the host. An arity below zero is that of no call. -/
structure Builtin where
  id : Nat
  name : Bytes
  arity : Int
  action : Builtin.Action

/-- A value of a program. -/
inductive Value where
  | nil
  | bool (b : Bool)
  | number (x : Number)
  | text (s : Bytes)
  | function (f : Closure)
  | builtin (f : Builtin)

namespace Value

/-- The value of a literal. -/
def ofLiteral : Literal → Value
  | .nil => .nil
  | .bool b => .bool b
  | .number x => .number x
  | .text s => .text s

/-- Whether a value counts as true: all but nil and false do. -/
def truth : Value → Bool
  | .nil => false
  | .bool b => b
  | _ => true

/-- The name of the type of a value. -/
def typeName : Value → String
  | .nil => "nil"
  | .bool _ => "bool"
  | .number _ => "number"
  | .text _ => "string"
  | .function _ => "function"
  | .builtin _ => "builtin_function"

/-- The text of a value, as it is printed. -/
def display : Value → Bytes
  | .nil => Bytes.ofString "nil"
  | .bool b => boolText b
  | .number x => x.display
  | .text s => s
  | .function f => Bytes.ofString "<fn " ++ f.name.lexeme ++ Bytes.ofString ">"
  | .builtin _ => Bytes.ofString "<native fn>"

/-- Whether two values are equal. Values of different types never are, and functions only if they
have the same identity. -/
def equal : Value → Value → Bool
  | .nil, .nil => true
  | .bool a, .bool b => a == b
  | .number x, .number y => x.same y
  | .text s, .text t => s == t
  | .function f, .function g => f.id == g.id
  | .builtin f, .builtin g => f.id == g.id
  | _, _ => false

/-- What a procedure of the host sees of a value. -/
def sight : Value → Sight
  | .nil => .literal .nil
  | .bool b => .literal (.bool b)
  | .number x => .literal (.number x)
  | .text s => .literal (.text s)
  | .function f => .function f.id f.name.lexeme f.params.length
  | .builtin f => .builtin f.id f.name f.arity

end Value

/-- What a procedure of the host has got up to some point, the latest first. -/
structure Procedure.Hand where
  values : List Value
  errors : List Fault

namespace Procedure.Hand

/-- The value that an operand stands for; nil if there is none. -/
def value (h : Hand) : Operand → Value
  | .literal v => .ofLiteral v
  | .held i => h.values[i]?.getD .nil

/-- An error that was met. If there is none, then the function with the text `callee` fails for the
lack of a result. -/
def error (h : Hand) (callee : Bytes) (i : Nat) : Fault :=
  h.errors[i]?.getD (.call (.noResult callee))

/-- Adds what a call has come to. -/
def add (h : Hand) : Except Fault Value → Hand
  | .ok v => { h with values := v :: h.values }
  | .error e => { h with errors := e :: h.errors }

/-- Adds the value of a variable, if it has one. -/
def addValue (h : Hand) : Option Value → Hand
  | none => h
  | some v => { h with values := v :: h.values }

end Procedure.Hand

/-- What a procedure sees of what a call has come to. -/
def Procedure.reply : Except Fault Value → Procedure.Reply
  | .ok v => .returned v.sight
  | .error e => .failed e

end Lox
