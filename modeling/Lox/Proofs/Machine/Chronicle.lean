import Lox.Proofs.Machine.Order

/-!
# Evaluation with a chronicle

The evaluator once more, with a chronicle of all states that the machine goes through. Every single
change of a machine is a moment of its own: a name that gets a value, an environment that is made,
entered or left, a call that begins or ends, and a failure. The chronicle also lists the functions
that were made, those of the program and those of the host, in the order in which they were made.

The chronicle is kept beside the machine and does not influence it: leaving it out gives the
evaluator back (`Chronicled.eval_erases` and the theorems after it).
-/

namespace Lox

/-- A state of a machine, with the functions that were made up to then, the latest first. -/
structure Moment where
  machine : Machine
  made : List Value

/-- The states that a machine went through, and the functions that were made, the latest first. -/
structure Chronicle where
  moments : List Moment
  made : List Value

namespace Chronicle

/-- A state of a machine at the end of a chronicle. -/
def now (c : Chronicle) (m : Machine) : Moment := ⟨m, c.made⟩

/-- Adds a state of a machine. -/
def note (c : Chronicle) (m : Machine) : Chronicle := { c with moments := c.now m :: c.moments }

/-- Adds a function, and the state of the machine that made it. -/
def make (c : Chronicle) (v : Value) (m : Machine) : Chronicle :=
  note { c with made := v :: c.made } m

end Chronicle

/-- A step on a machine that adds to a chronicle. -/
def Chronicled (α : Type) := Chronicle → Machine → Outcome α × Chronicle

namespace Chronicled

/-- A single change of the machine. -/
def lift {α : Type} (r : Run α) : Chronicled α := fun c m ↦ (r m, c.note (r m).after)

/-- Does one step, and then the one that its value selects unless it failed. -/
def andThen {α β : Type} (r : Chronicled α) (f : α → Chronicled β) : Chronicled β := fun c m ↦
  match r c m with
  | (.done a m, c) => f a c m
  | (.failed e m, c) => (.failed e m, c)

/-- Steps one after the other; a step that fails is the last one. -/
instance : Monad Chronicled where
  pure a := fun c m ↦ (.done a m, c)
  bind := andThen

/-- Makes a new function of the current environment. -/
def newFunction (name : Token) (params : List Token) (body : Program Binding) :
    Chronicled Value := fun c m ↦
  let o := Run.newFunction name params body m
  (o, c.make (.function ⟨m.nextFunction, name, params, body, m.env⟩) o.after)

/-- Enters another environment, does a step there and returns to the current one. -/
def inEnv {α : Type} (e : EnvId) (r : Chronicled α) : Chronicled α := fun c m ↦
  let inside := { m with env := e }
  let c := c.note inside
  let o := Run.inEnv e (fun m' ↦ (r c m').1) m
  (o, (r c inside).2.note o.after)

/-- Begins a call, does a step as this call and ends it. -/
def inCall {α : Type} (callee : Bytes) (line : Int) (r : Chronicled α) : Chronicled α := fun c m ↦
  let inside := { m.setLine line with stack := ⟨some callee, 0⟩ :: (m.setLine line).stack }
  let c := (c.note (m.setLine line)).note inside
  let o := Run.inCall callee line (fun m' ↦ (r c m').1) m
  (o, (r c inside).2.note o.after)

/-- Gives an error of a call the place of the call in the program. -/
def located (paren : Token) (r : Chronicled Value) : Chronicled Value := fun c m ↦
  let o := Run.located paren (fun m' ↦ (r c m').1) m
  (o, (r c m).2.note o.after)

/-- Does a step and yields the error that it ends with, if it ends with one. -/
def attempt {α : Type} (r : Chronicled α) : Chronicled (Except Fault α) := fun c m ↦
  (Run.attempt (fun m' ↦ (r c m').1) m, (r c m).2)

/-- Binds parameters to arguments in an environment, one after the other. -/
def bindParams (e : EnvId) : List Token → List Value → Chronicled Unit
  | [], _ => pure ()
  | _ :: _, [] => lift (Run.fail .stuck)
  | p :: ps, v :: vs => do
    lift (Run.change fun m ↦ { m with heap := m.heap.define e p.lexeme v })
    bindParams e ps vs

mutual

/-- The value of an expression. -/
def eval : Nat → Expr Binding → Chronicled Value
  | 0, _ => lift (Run.fail .outOfFuel)
  | n + 1, e =>
    match e with
    | .literal _ v => pure (.ofLiteral v)
    | .grouping _ x => eval n x
    | .unary op x => do
      let v ← eval n x
      lift (Run.applyUnary op v)
    | .binary x op y => do
      let v ← eval n x
      let w ← eval n y
      lift (Run.applyBinary op v w)
    | .logical x op y => do
      let v ← eval n x
      if Run.skipsRight op v then pure v else eval n y
    | .variable name b => lift (Run.lookup name b)
    | .assign name b x => do
      let v ← eval n x
      lift (Run.assign name b v)
      pure v
    | .call f paren args => do
      let f ← eval n f
      let vs ← evalAll n args
      located paren (call n f vs paren.line)

/-- The values of expressions, from left to right. -/
def evalAll : Nat → List (Expr Binding) → Chronicled (List Value)
  | 0, _ => lift (Run.fail .outOfFuel)
  | _ + 1, [] => pure []
  | n + 1, e :: es => do
    let v ← eval n e
    let vs ← evalAll n es
    pure (v :: vs)

/-- Calls a value. -/
def call : Nat → Value → List Value → Int → Chronicled Value
  | 0, _, _, _ => lift (Run.fail .outOfFuel)
  | n + 1, f, args, line =>
    match f with
    | .function f =>
      if args.length = f.params.length then
        inCall f.name.lexeme line do
          let e ← lift (Run.newEnv f.env)
          bindParams e f.params args
          let completion ← inEnv e (execAll n f.body)
          lift (Run.returnValue completion)
      else lift (Run.fail (.call (.arity f.params.length args.length)))
    | .builtin f =>
      if (args.length : Int) = f.arity then
        inCall f.name line <|
          match f.action with
          | .procedure p => Run.start lift attempt (call n) f p args
          | _ => lift (Run.perform f args)
      else lift (Run.fail (.call (.arity f.arity args.length)))
    | _ => lift (Run.fail (.call .notCallable))

/-- Executes a statement. -/
def exec : Nat → Stmt Binding → Chronicled Completion
  | 0, _ => lift (Run.fail .outOfFuel)
  | n + 1, s =>
    match s with
    | .expr e => do
      let _ ← eval n e
      pure .normal
    | .print _ e => do
      let v ← eval n e
      lift (Run.print v.display)
      pure .normal
    | .var name none => do
      lift (Run.define name.lexeme .nil)
      pure .normal
    | .var name (some e) => do
      let v ← eval n e
      lift (Run.define name.lexeme v)
      pure .normal
    | .block _ body => fun c m ↦
      (do
        let e ← lift (Run.newEnv m.env)
        inEnv e (execAll n body) : Chronicled Completion) c m
    | .ifElse _ test yes no => do
      let v ← eval n test
      if v.truth then exec n yes
      else
        match no with
        | none => pure .normal
        | some no => exec n no
    | .while _ test body => repeatWhile n test body
    | .function name params body => do
      let f ← newFunction name params body
      lift (Run.define name.lexeme f)
      pure .normal
    | .return keyword none => pure (.returned .nil keyword)
    | .return keyword (some e) => do
      let v ← eval n e
      pure (.returned v keyword)
    | .branch keyword =>
      pure (if keyword.kind = .break then .broken keyword else .continued keyword)

/-- Executes a statement as long as an expression is true and nothing but `continue` leaves it. -/
def repeatWhile : Nat → Expr Binding → Stmt Binding → Chronicled Completion
  | 0, _, _ => lift (Run.fail .outOfFuel)
  | n + 1, test, body => do
    let v ← eval n test
    if v.truth then
      match ← exec n body with
      | .broken _ => pure .normal
      | .returned v t => pure (.returned v t)
      | .normal | .continued _ => repeatWhile n test body
    else pure .normal

/-- Executes statements one after the other, up to the first that leaves them. -/
def execAll : Nat → List (Stmt Binding) → Chronicled Completion
  | 0, _ => lift (Run.fail .outOfFuel)
  | _ + 1, [] => pure .normal
  | n + 1, s :: ss => do
    match ← exec n s with
    | .normal => execAll n ss
    | completion => pure completion

end

/-- Runs the statements of a program, from top level. -/
def interpretAll (n : Nat) : Program Binding → Chronicled Unit
  | [] => pure ()
  | s :: ss => do
    let completion ← exec n s
    lift (Run.endProgram completion)
    interpretAll n ss

/-- Goes to top level. -/
def toTopLevel : Chronicled Unit := lift (Run.change Machine.atTopLevel)

/-- Runs a program in the global environment. -/
def interpret (n : Nat) (p : Program Binding) : Chronicled Unit := do
  toTopLevel
  interpretAll n p

/-- Evaluates an expression in the global environment. -/
def evaluate (n : Nat) (e : Expr Binding) : Chronicled Value := do
  toTopLevel
  eval n e

/-! ## Leaving the chronicle out -/

/-- Leaving the chronicle out of a step gives another step. -/
def Erases {α : Type} (r : Chronicled α) (s : Run α) : Prop := ∀ c m, (r c m).1 = s m

section Erases

variable {α β : Type}

private theorem erases_lift (s : Run α) : Erases (lift s) s := fun _ _ ↦ rfl

private theorem erases_pure (a : α) : Erases (pure a) (Run.succeed a) := fun _ _ ↦ rfl

private theorem erases_bind {r : Chronicled α} {s : Run α} {f : α → Chronicled β} {g : α → Run β}
    (h : Erases r s) (hf : ∀ a, Erases (f a) (g a)) : Erases (r >>= f) (s >>= g) := by
  intro c m
  change (andThen r f c m).1 = Run.andThen s g m
  have hr := h c m
  unfold andThen Run.andThen
  rcases hrc : r c m with ⟨o, c'⟩
  rw [hrc] at hr
  rw [← hr]
  cases o with
  | done a m' => exact hf a c' m'
  | failed e m' => rfl

private theorem erases_inEnv {r : Chronicled α} {s : Run α} (e : EnvId) (h : Erases r s) :
    Erases (inEnv e r) (Run.inEnv e s) :=
  fun c m ↦ congrArg (Run.inEnv e · m) (funext (h (c.note { m with env := e })))

private theorem erases_inCall {r : Chronicled α} {s : Run α} (callee : Bytes) (line : Int)
    (h : Erases r s) : Erases (inCall callee line r) (Run.inCall callee line s) :=
  fun _ m ↦ congrArg (Run.inCall callee line · m) (funext (h _))

private theorem erases_located {r : Chronicled Value} {s : Run Value} (paren : Token)
    (h : Erases r s) : Erases (located paren r) (Run.located paren s) :=
  fun c m ↦ congrArg (Run.located paren · m) (funext (h c))

private theorem erases_attempt {r : Chronicled α} {s : Run α} (h : Erases r s) :
    Erases (attempt r) (Run.attempt s) := fun c m ↦ congrArg (Run.attempt · m) (funext (h c))

private theorem erases_ite {r r' : Chronicled α} {s s' : Run α} {p : Prop} [Decidable p]
    (h : Erases r s) (h' : Erases r' s') :
    Erases (if p then r else r') (if p then s else s') := by
  split
  · exact h
  · exact h'

private theorem erases_bindParams (e : EnvId) (ps : List Token) (vs : List Value) :
    Erases (bindParams e ps vs) (Run.bindParams e ps vs) := by
  induction ps generalizing vs with
  | nil => exact erases_pure ()
  | cons p ps ih =>
    cases vs with
    | nil => exact erases_lift _
    | cons v vs => exact erases_bind (erases_lift _) fun _ ↦ ih vs

/-- A procedure leaves nothing out that its calls do not. -/
theorem erases_serve {call : Value → List Value → Int → Chronicled Value}
    {call' : Value → List Value → Int → Run Value}
    (hcall : ∀ f args line, Erases (call f args line) (call' f args line)) (callee : Bytes)
    (p : Procedure) (d : Procedure.Hand) :
    Erases (Run.serve lift attempt call callee p d)
      (Run.serve id Run.attempt call' callee p d) := by
  induction p generalizing d with
  | yield v => exact erases_pure _
  | fail message => exact erases_lift _
  | rethrow i => exact erases_lift _
  | call f args line next ih =>
    exact erases_bind (erases_attempt (hcall _ _ line)) fun result ↦ ih _ _
  | read name next ih => exact erases_bind (erases_lift _) fun v ↦ ih _ _
  | define name v next ih => exact erases_bind (erases_lift _) fun _ ↦ ih _

end Erases

-- Leaving the chronicle out of evaluation with some fuel.
private structure ErasesAt (n : Nat) : Prop where
  eval : ∀ e, Erases (eval n e) (Run.eval n e)
  evalAll : ∀ es, Erases (evalAll n es) (Run.evalAll n es)
  call : ∀ f args line, Erases (call n f args line) (Run.call n f args line)
  exec : ∀ s, Erases (exec n s) (Run.exec n s)
  repeatWhile : ∀ test body, Erases (repeatWhile n test body) (Run.repeatWhile n test body)
  execAll : ∀ ss, Erases (execAll n ss) (Run.execAll n ss)

section Succ

variable {n : Nat}

private theorem erases_eval_succ (ih : ErasesAt n) (e : Expr Binding) :
    Erases (eval (n + 1) e) (Run.eval (n + 1) e) := by
  cases e with
  | literal t v => exact erases_pure _
  | grouping t x => exact ih.eval x
  | unary op x => exact erases_bind (ih.eval x) fun v ↦ erases_lift _
  | binary x op y =>
    exact erases_bind (ih.eval x) fun v ↦ erases_bind (ih.eval y) fun w ↦ erases_lift _
  | logical x op y =>
    exact erases_bind (ih.eval x) fun v ↦ erases_ite (erases_pure v) (ih.eval y)
  | «variable» name b => exact erases_lift _
  | assign name b x =>
    exact erases_bind (ih.eval x) fun v ↦ erases_bind (erases_lift _) fun _ ↦ erases_pure v
  | call f paren args =>
    exact erases_bind (ih.eval f) fun g ↦ erases_bind (ih.evalAll args) fun vs ↦
      erases_located paren (ih.call g vs paren.line)

private theorem erases_evalAll_succ (ih : ErasesAt n) (es : List (Expr Binding)) :
    Erases (evalAll (n + 1) es) (Run.evalAll (n + 1) es) := by
  cases es with
  | nil => exact erases_pure _
  | cons e es =>
    exact erases_bind (ih.eval e) fun v ↦ erases_bind (ih.evalAll es) fun vs ↦ erases_pure _

private theorem erases_call_succ (ih : ErasesAt n) (f : Value) (args : List Value) (line : Int) :
    Erases (call (n + 1) f args line) (Run.call (n + 1) f args line) := by
  cases f with
  | function f =>
    refine erases_ite (erases_inCall f.name.lexeme line ?_) (erases_lift _)
    exact erases_bind (erases_lift (Run.newEnv f.env)) fun e ↦
      erases_bind (erases_bindParams e f.params args) fun _ ↦
        erases_bind (erases_inEnv e (ih.execAll f.body)) fun completion ↦ erases_lift _
  | builtin f =>
    refine erases_ite (erases_inCall f.name line ?_) (erases_lift _)
    cases f.action with
    | procedure p => exact erases_bind (erases_lift _) fun _ ↦ erases_serve ih.call _ _ _
    | _ => exact erases_lift _
  | nil => exact erases_lift _
  | bool b => exact erases_lift _
  | number x => exact erases_lift _
  | text s => exact erases_lift _

private theorem erases_exec_succ (ih : ErasesAt n) (s : Stmt Binding) :
    Erases (exec (n + 1) s) (Run.exec (n + 1) s) := by
  cases s with
  | expr e => exact erases_bind (ih.eval e) fun _ ↦ erases_pure _
  | print t e =>
    exact erases_bind (ih.eval e) fun v ↦ erases_bind (erases_lift _) fun _ ↦ erases_pure _
  | var name init =>
    cases init with
    | none => exact erases_bind (erases_lift _) fun _ ↦ erases_pure _
    | some e =>
      exact erases_bind (ih.eval e) fun v ↦ erases_bind (erases_lift _) fun _ ↦ erases_pure _
  | block t body =>
    intro c m
    exact erases_bind (erases_lift (Run.newEnv m.env))
      (fun e ↦ erases_inEnv e (ih.execAll body)) c m
  | ifElse t test yes no =>
    refine erases_bind (ih.eval test) fun v ↦ erases_ite (ih.exec yes) ?_
    cases no with
    | none => exact erases_pure _
    | some no => exact ih.exec no
  | «while» t test body => exact ih.repeatWhile test body
  | function name params body => exact fun _ _ ↦ rfl
  | «return» t result =>
    cases result with
    | none => exact erases_pure _
    | some e => exact erases_bind (ih.eval e) fun v ↦ erases_pure _
  | branch t => exact erases_pure _

private theorem erases_repeatWhile_succ (ih : ErasesAt n) (test : Expr Binding)
    (body : Stmt Binding) :
    Erases (repeatWhile (n + 1) test body) (Run.repeatWhile (n + 1) test body) := by
  refine erases_bind (ih.eval test) fun v ↦ erases_ite ?_ (erases_pure _)
  refine erases_bind (ih.exec body) fun completion ↦ ?_
  cases completion with
  | normal => exact ih.repeatWhile test body
  | returned v t => exact erases_pure _
  | broken t => exact erases_pure _
  | continued t => exact ih.repeatWhile test body

private theorem erases_execAll_succ (ih : ErasesAt n) (ss : List (Stmt Binding)) :
    Erases (execAll (n + 1) ss) (Run.execAll (n + 1) ss) := by
  cases ss with
  | nil => exact erases_pure _
  | cons s ss =>
    refine erases_bind (ih.exec s) fun completion ↦ ?_
    cases completion with
    | normal => exact ih.execAll ss
    | returned v t => exact erases_pure _
    | broken t => exact erases_pure _
    | continued t => exact erases_pure _

end Succ

private theorem erasesAt (n : Nat) : ErasesAt n := by
  induction n with
  | zero => constructor <;> intros <;> exact erases_lift _
  | succ n ih =>
    exact ⟨erases_eval_succ ih, erases_evalAll_succ ih, erases_call_succ ih, erases_exec_succ ih,
      erases_repeatWhile_succ ih, erases_execAll_succ ih⟩

/-- Evaluation with a chronicle is evaluation. -/
theorem eval_erases (n : Nat) (e : Expr Binding) : Erases (eval n e) (Run.eval n e) :=
  (erasesAt n).eval e

/-- A call with a chronicle is a call. -/
theorem call_erases (n : Nat) (f : Value) (args : List Value) (line : Int) :
    Erases (call n f args line) (Run.call n f args line) := (erasesAt n).call f args line

private theorem interpretAll_erases (n : Nat) (p : Program Binding) :
    Erases (interpretAll n p) (Run.interpretAll n p) := by
  induction p with
  | nil => exact erases_pure _
  | cons s ss ih =>
    exact erases_bind ((erasesAt n).exec s) fun completion ↦
      erases_bind (erases_lift _) fun _ ↦ ih

/-- A program run with a chronicle is run. -/
theorem interpret_erases (n : Nat) (p : Program Binding) :
    Erases (interpret n p) (Run.interpret n p) :=
  fun _ m ↦ interpretAll_erases n p _ m.atTopLevel

/-- Evaluation at top level with a chronicle is evaluation at top level. -/
theorem evaluate_erases (n : Nat) (e : Expr Binding) :
    Erases (evaluate n e) (Run.evaluate n e) := fun _ m ↦ eval_erases n e _ m.atTopLevel

end Chronicled
end Lox
