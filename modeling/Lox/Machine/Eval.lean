import Lox.Machine.Basic

/-!
# Evaluation

Expressions yield values, and statements end in one of several ways: they come to their end, or they
leave the statements around them by `return`, `break` or `continue`. All functions here take a bound
on the number of nested and repeated steps; when it is used up they fail with `Fault.outOfFuel`.
-/

namespace Lox

/-- How a statement ends. A statement that leaves those around it says by which keyword. -/
inductive Completion where
  | normal
  | returned (value : Value) (keyword : Token)
  | broken (keyword : Token)
  | continued (keyword : Token)

namespace Run

/-- Applies a prefix operator. -/
def applyUnary (op : Token) (v : Value) : Run Value :=
  match op.kind with
  | .minus =>
    match v with
    | .number x => succeed (.number x.negate)
    | _ => raise op .operandNotNumber
  | .bang => succeed (.bool !v.truth)
  | _ => fail .stuck

/-- Applies an operator to two numbers. -/
def applyArithmetic (op : Token) (x y : Number) : Run Value :=
  match op.kind with
  | .minus => succeed (.number (x.sub y))
  | .star => succeed (.number (x.mul y))
  | .slash => if y.isZero then raise op .divisionByZero else succeed (.number (x.div y))
  | .greater => succeed (.bool (y.lt x))
  | .greaterEqual => succeed (.bool (y.le x))
  | .less => succeed (.bool (x.lt y))
  | .lessEqual => succeed (.bool (x.le y))
  | _ => fail .stuck

/-- Applies an operator to two values. -/
def applyBinary (op : Token) (v w : Value) : Run Value :=
  match op.kind with
  | .equalEqual => succeed (.bool (v.equal w))
  | .bangEqual => succeed (.bool !(v.equal w))
  | .plus =>
    match v, w with
    | .number x, .number y => succeed (.number (x.add y))
    | .text s, .text t => succeed (.text (s ++ t))
    | _, _ => raise op .operandsNotAddable
  | _ =>
    match v, w with
    | .number x, .number y => applyArithmetic op x y
    | _, _ => raise op .operandsNotNumbers

/-- Whether `and` or `or` has its value already from its left operand. -/
def skipsRight (op : Token) (v : Value) : Bool := if op.kind = .or then v.truth else !v.truth

/-- How many nanoseconds a second has. -/
def nanoseconds : Number := .ofInt 1000000000

/-- What a function of the host does that has no procedure. -/
def perform (f : Builtin) (args : List Value) : Run Value := fun m ↦
  match f.action, args with
  | .clock, _ =>
    match m.clock with
    | none => .failed (.call .clockUnavailable) m
    | some t => .done (.number ((Number.ofInt t).div nanoseconds)) m
  | .first, v :: _ => .done v m
  | .typeName, v :: _ => .done (.text (Bytes.ofString v.typeName)) m
  | .fail, _ => .failed (.call (.failed f.name)) m
  | .nothing, _ => .failed (.call (.noResult (Value.builtin f).display)) m
  | .stack, _ => .done (.text m.stack.text) m
  | .depth, _ => .done (.number (.ofInt m.stack.length)) m
  | .nil, _ => .done .nil m
  | .first, [] | .typeName, [] | .procedure _, _ => .failed .stuck m

section Procedure

variable {M : Type → Type} [Monad M] (lift : {α : Type} → Run α → M α)
  (attempt : M Value → M (Except Fault Value)) (call : Value → List Value → Int → M Value)

/-- Does what a procedure says, with what it has got up to this point. The steps may be of any kind
that steps on a machine can be lifted to; `call` makes a call, and `callee` is the text of the
function whose procedure it is. -/
def serve (callee : Bytes) : Procedure → Procedure.Hand → M Value
  | .yield v, h => pure (h.value v)
  | .fail message, _ => lift (fail (.call (.procedure message)))
  | .rethrow i, h => lift (fail (h.error callee i))
  | .call f args line next, h => do
    let result ← attempt (call (h.value f) (args.map h.value) line)
    serve callee (next (Procedure.reply result)) (h.add result)
  | .read name next, h => do
    let v ← lift (look fun m ↦ m.heap.get? Machine.globals name)
    serve callee (next (v.map Value.sight)) (h.addValue v)
  | .define name v next, h => do
    lift (change fun m ↦ { m with heap := m.heap.define Machine.globals name (h.value v) })
    serve callee next h

/-- Does what a procedure says from its start. -/
def start (f : Builtin) (p : Procedure.Occasion → Procedure) (args : List Value) : M Value := do
  let callers ← lift (look fun m ↦ m.stack.tail)
  serve lift attempt call (Value.builtin f).display (p ⟨args.map Value.sight, callers⟩) ⟨args, []⟩

end Procedure

/-- Binds parameters to arguments in an environment. -/
def bindParams (e : EnvId) : List Token → List Value → Run Unit
  | [], _ => succeed ()
  | _ :: _, [] => fail .stuck
  | p :: ps, v :: vs => do
    change fun m ↦ { m with heap := m.heap.define e p.lexeme v }
    bindParams e ps vs

/-- Gives an error of a call the place of the call in the program; errors that have a place keep
it. -/
@[inline] def located (paren : Token) (r : Run Value) : Run Value := fun m ↦
  match r m with
  | .failed (.call e) m => raise paren (.call e) m
  | result => result

/-- The value that a function returns when its body ends in this way. -/
def returnValue : Completion → Run Value
  | .normal => succeed .nil
  | .returned v _ => succeed v
  | .broken t | .continued t => raise t (.branchOutsideLoop t.lexeme)

/-- Ends a program that ends in this way. -/
def endProgram : Completion → Run Unit
  | .normal => succeed ()
  | .returned _ t => raise t .returnAtTopLevel
  | .broken t | .continued t => raise t (.branchOutsideLoop t.lexeme)

mutual

/-- The value of an expression. -/
def eval : Nat → Expr Binding → Run Value
  | 0, _ => fail .outOfFuel
  | n + 1, e =>
    match e with
    | .literal _ v => succeed (.ofLiteral v)
    | .grouping _ x => eval n x
    | .unary op x => do
      let v ← eval n x
      applyUnary op v
    | .binary x op y => do
      let v ← eval n x
      let w ← eval n y
      applyBinary op v w
    | .logical x op y => do
      let v ← eval n x
      if skipsRight op v then succeed v else eval n y
    | .variable name b => lookup name b
    | .assign name b x => do
      let v ← eval n x
      assign name b v
      succeed v
    | .call c paren args => do
      let f ← eval n c
      let vs ← evalAll n args
      located paren (call n f vs paren.line)

/-- The values of expressions, from left to right. -/
def evalAll : Nat → List (Expr Binding) → Run (List Value)
  | 0, _ => fail .outOfFuel
  | _ + 1, [] => succeed []
  | n + 1, e :: es => do
    let v ← eval n e
    let vs ← evalAll n es
    succeed (v :: vs)

/-- Calls a value from the given line. The number of arguments is checked before the call becomes
active. -/
def call : Nat → Value → List Value → Int → Run Value
  | 0, _, _, _ => fail .outOfFuel
  | n + 1, f, args, line =>
    match f with
    | .function f =>
      if args.length = f.params.length then
        inCall f.name.lexeme line do
          let e ← newEnv f.env
          bindParams e f.params args
          let completion ← inEnv e (execAll n f.body)
          returnValue completion
      else fail (.call (.arity f.params.length args.length))
    | .builtin f =>
      if (args.length : Int) = f.arity then
        inCall f.name line <|
          match f.action with
          | .procedure p => start id attempt (call n) f p args
          | _ => perform f args
      else fail (.call (.arity f.arity args.length))
    | _ => fail (.call .notCallable)

/-- Executes a statement. -/
def exec : Nat → Stmt Binding → Run Completion
  | 0, _ => fail .outOfFuel
  | n + 1, s =>
    match s with
    | .expr e => do
      let _ ← eval n e
      succeed .normal
    | .print _ e => do
      let v ← eval n e
      print v.display
      succeed .normal
    | .var name none => do
      define name.lexeme .nil
      succeed .normal
    | .var name (some e) => do
      let v ← eval n e
      define name.lexeme v
      succeed .normal
    | .block _ body => fun m ↦
      (do
        let e ← newEnv m.env
        inEnv e (execAll n body) : Run Completion) m
    | .ifElse _ test yes no => do
      let v ← eval n test
      if v.truth then exec n yes
      else
        match no with
        | none => succeed .normal
        | some no => exec n no
    | .while _ test body => repeatWhile n test body
    | .function name params body => do
      let f ← newFunction name params body
      define name.lexeme f
      succeed .normal
    | .return keyword none => succeed (.returned .nil keyword)
    | .return keyword (some e) => do
      let v ← eval n e
      succeed (.returned v keyword)
    | .branch keyword =>
      succeed (if keyword.kind = .break then .broken keyword else .continued keyword)

/-- Executes a statement as long as an expression is true and nothing but `continue` leaves it. -/
def repeatWhile : Nat → Expr Binding → Stmt Binding → Run Completion
  | 0, _, _ => fail .outOfFuel
  | n + 1, test, body => do
    let v ← eval n test
    if v.truth then
      match ← exec n body with
      | .broken _ => succeed .normal
      | .returned v t => succeed (.returned v t)
      | .normal | .continued _ => repeatWhile n test body
    else succeed .normal

/-- Executes statements one after the other, up to the first that leaves them. -/
def execAll : Nat → List (Stmt Binding) → Run Completion
  | 0, _ => fail .outOfFuel
  | _ + 1, [] => succeed .normal
  | n + 1, s :: ss => do
    match ← exec n s with
    | .normal => execAll n ss
    | completion => succeed completion

end

/-- Runs the statements of a program, from top level. -/
def interpretAll (n : Nat) : Program Binding → Run Unit
  | [] => succeed ()
  | s :: ss => do
    let completion ← exec n s
    endProgram completion
    interpretAll n ss

/-- Runs a program in the global environment. -/
def interpret (n : Nat) (p : Program Binding) : Run Unit := fun m ↦ interpretAll n p m.atTopLevel

/-- Evaluates an expression in the global environment. -/
def evaluate (n : Nat) (e : Expr Binding) : Run Value := fun m ↦ eval n e m.atTopLevel

end Run
end Lox
