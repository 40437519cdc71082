import Lox.Machine.Eval

/-!
# Evaluation with a record

The evaluator again, with a record of what it does. The record is kept beside the machine and does
not influence it: leaving it out gives the evaluator back (`Traced.eval_erases` and the theorems
after it).

While the evaluator works it knows in which lexical scopes it is. A `Context` lists them, the
innermost first: what the resolver had recorded in the scope when it came to this place of the
program, and the environment that was made when the scope was entered, by executing the block or by
calling the function. A scope is entered by a block and by a call, and by nothing else. A function
keeps the context of its declaration, and a call of it starts from there. Each expression that is
about to be evaluated is recorded with its context and with the machine at this moment.
-/

namespace Lox

/-- A scope that is open at some point of a run. -/
structure Opened where
  /-- What the resolver has recorded in the scope up to this point of the program. -/
  scope : Scope
  /-- The environment that was made when the scope was entered. -/
  env : EnvId

/-- The scopes that are open at some point of a run, the innermost first. -/
abbrev Context := List Opened

namespace Context

/-- The scopes as the resolver has them at this point of the program. -/
def scopes (c : Context) : Scopes := c.map Opened.scope

/-- Records a name in the innermost scope. At top level nothing is recorded. -/
def record (c : Context) (name : Bytes) (ready : Bool) : Context :=
  match c with
  | [] => []
  | o :: rest => { o with scope := (name, ready) :: o.scope } :: rest

/-- Enters a scope, for which the environment `e` was made. -/
def enter (c : Context) (e : EnvId) : Context := ⟨[], e⟩ :: c

/-- Records the parameters of a function. -/
def recordParams (c : Context) : List Token → Context
  | [] => c
  | p :: ps => (c.record p.lexeme true).recordParams ps

/-- The context behind a statement. -/
def after (c : Context) : Stmt Binding → Context
  | .var name _ => c.record name.lexeme true
  | .function name _ _ => c.record name.lexeme true
  | _ => c

end Context

/-- An expression that is about to be evaluated. -/
structure Point where
  context : Context
  expr : Expr Binding
  machine : Machine

/-- What is recorded of a run. -/
structure Trace where
  /-- The contexts of the functions made, by their identities, the latest first. -/
  contexts : List (Nat × Context)
  /-- The expressions that were evaluated, the latest first. -/
  points : List Point

namespace Trace

/-- Nothing is recorded. -/
def empty : Trace := ⟨[], []⟩

/-- The context in which the body of a function is, apart from its own scope. -/
def contextOf (t : Trace) (id : Nat) : Context := (t.contexts.lookup id).getD []

end Trace

/-- A step on a machine that adds to a record. -/
def Traced (α : Type) := Trace → Machine → Outcome α × Trace

namespace Traced

/-- A step that adds nothing to the record. -/
def lift {α : Type} (r : Run α) : Traced α := fun t m ↦ (r m, t)

/-- Does one step, and then the one that its value selects unless it failed. -/
def andThen {α β : Type} (r : Traced α) (f : α → Traced β) : Traced β := fun t m ↦
  match r t m with
  | (.done a m, t) => f a t m
  | (.failed e m, t) => (.failed e m, t)

/-- Steps one after the other; a step that fails is the last one. -/
instance : Monad Traced where
  pure a := lift (Run.succeed a)
  bind := andThen

/-- Records that an expression is about to be evaluated. -/
def visit (c : Context) (e : Expr Binding) : Traced Unit := fun t m ↦
  (.done () m, { t with points := ⟨c, e, m⟩ :: t.points })

/-- Makes a new function of the current environment and records its context. -/
def newFunction (c : Context) (name : Token) (params : List Token) (body : Program Binding) :
    Traced Value := fun t m ↦
  (Run.newFunction name params body m, { t with contexts := (m.nextFunction, c) :: t.contexts })

/-- The recorded context of a function. -/
def contextOf (f : Closure) : Traced Context := fun t m ↦ (.done (t.contextOf f.id) m, t)

/-- Does a step in another environment and returns to the current one. -/
def inEnv {α : Type} (e : EnvId) (r : Traced α) : Traced α := fun t m ↦
  (Run.inEnv e (fun m' ↦ (r t m').1) m, (r t { m with env := e }).2)

/-- Does a step as a call and ends the call. -/
def inCall {α : Type} (callee : Bytes) (line : Int) (r : Traced α) : Traced α := fun t m ↦
  (Run.inCall callee line (fun m' ↦ (r t m').1) m,
    (r t { m.setLine line with stack := ⟨some callee, 0⟩ :: (m.setLine line).stack }).2)

/-- Gives an error of a call the place of the call in the program. -/
def located (paren : Token) (r : Traced Value) : Traced Value := fun t m ↦
  (Run.located paren (fun m' ↦ (r t m').1) m, (r t m).2)

/-- Does a step and yields the error that it ends with, if it ends with one. -/
def attempt {α : Type} (r : Traced α) : Traced (Except Fault α) := fun t m ↦
  (Run.attempt (fun m' ↦ (r t m').1) m, (r t m).2)

mutual

/-- The value of an expression. -/
def eval : Nat → Context → Expr Binding → Traced Value
  | 0, _, _ => lift (Run.fail .outOfFuel)
  | n + 1, c, e => do
    visit c e
    match e with
    | .literal _ v => pure (.ofLiteral v)
    | .grouping _ x => eval n c x
    | .unary op x => do
      let v ← eval n c x
      lift (Run.applyUnary op v)
    | .binary x op y => do
      let v ← eval n c x
      let w ← eval n c y
      lift (Run.applyBinary op v w)
    | .logical x op y => do
      let v ← eval n c x
      if Run.skipsRight op v then pure v else eval n c y
    | .variable name b => lift (Run.lookup name b)
    | .assign name b x => do
      let v ← eval n c x
      lift (Run.assign name b v)
      pure v
    | .call f paren args => do
      let f ← eval n c f
      let vs ← evalAll n c args
      located paren (call n f vs paren.line)

/-- The values of expressions, from left to right. -/
def evalAll : Nat → Context → List (Expr Binding) → Traced (List Value)
  | 0, _, _ => lift (Run.fail .outOfFuel)
  | _ + 1, _, [] => pure []
  | n + 1, c, e :: es => do
    let v ← eval n c e
    let vs ← evalAll n c es
    pure (v :: vs)

/-- Calls a value. The body of a declared function is in the scope that is entered by the call,
within the context of the declaration. -/
def call : Nat → Value → List Value → Int → Traced Value
  | 0, _, _, _ => lift (Run.fail .outOfFuel)
  | n + 1, f, args, line =>
    match f with
    | .function f =>
      if args.length = f.params.length then
        inCall f.name.lexeme line do
          let c ← contextOf f
          let e ← lift (Run.newEnv f.env)
          lift (Run.bindParams e f.params args)
          let completion ← inEnv e (execAll n ((c.enter e).recordParams f.params) f.body)
          lift (Run.returnValue completion)
      else lift (Run.fail (.call (.arity f.params.length args.length)))
    | .builtin f =>
      if (args.length : Int) = f.arity then
        inCall f.name line <|
          match f.action with
          | .procedure p => Run.start lift attempt (call n) f p args
          | _ => lift (Run.perform f args)
      else lift (Run.fail (.call (.arity f.arity args.length)))
    | _ => lift (Run.fail (.call .notCallable))

/-- Executes a statement. -/
def exec : Nat → Context → Stmt Binding → Traced Completion
  | 0, _, _ => lift (Run.fail .outOfFuel)
  | n + 1, c, s =>
    match s with
    | .expr e => do
      let _ ← eval n c e
      pure .normal
    | .print _ e => do
      let v ← eval n c e
      lift (Run.print v.display)
      pure .normal
    | .var name none => do
      lift (Run.define name.lexeme .nil)
      pure .normal
    | .var name (some e) => do
      let v ← eval n (c.record name.lexeme false) e
      lift (Run.define name.lexeme v)
      pure .normal
    | .block _ body => fun t m ↦
      (do
        let e ← lift (Run.newEnv m.env)
        inEnv e (execAll n (c.enter e) body) : Traced Completion) t m
    | .ifElse _ test yes no => do
      let v ← eval n c test
      if v.truth then exec n c yes
      else
        match no with
        | none => pure .normal
        | some no => exec n c no
    | .while _ test body => repeatWhile n c test body
    | .function name params body => do
      let f ← newFunction (c.record name.lexeme true) name params body
      lift (Run.define name.lexeme f)
      pure .normal
    | .return keyword none => pure (.returned .nil keyword)
    | .return keyword (some e) => do
      let v ← eval n c e
      pure (.returned v keyword)
    | .branch keyword =>
      pure (if keyword.kind = .break then .broken keyword else .continued keyword)

/-- Executes a statement as long as an expression is true and nothing but `continue` leaves it. -/
def repeatWhile : Nat → Context → Expr Binding → Stmt Binding → Traced Completion
  | 0, _, _, _ => lift (Run.fail .outOfFuel)
  | n + 1, c, test, body => do
    let v ← eval n c test
    if v.truth then
      match ← exec n c body with
      | .broken _ => pure .normal
      | .returned v t => pure (.returned v t)
      | .normal | .continued _ => repeatWhile n c test body
    else pure .normal

/-- Executes statements one after the other, up to the first that leaves them. Each is in the
context behind those before it. -/
def execAll : Nat → Context → List (Stmt Binding) → Traced Completion
  | 0, _, _ => lift (Run.fail .outOfFuel)
  | _ + 1, _, [] => pure .normal
  | n + 1, c, s :: ss => do
    match ← exec n c s with
    | .normal => execAll n (c.after s) ss
    | completion => pure completion

end

/-- Runs the statements of a program, from top level, where no scope is open. -/
def interpretAll (n : Nat) : Program Binding → Traced Unit
  | [] => pure ()
  | s :: ss => do
    let completion ← exec n [] s
    lift (Run.endProgram completion)
    interpretAll n ss

/-- Runs a program in the global environment. -/
def interpret (n : Nat) (p : Program Binding) : Traced Unit := fun t m ↦
  interpretAll n p t m.atTopLevel

/-- Evaluates an expression in the global environment. -/
def evaluate (n : Nat) (e : Expr Binding) : Traced Value := fun t m ↦ eval n [] e t m.atTopLevel

/-! ## Leaving the record out -/

/-- Leaving the record out of a step gives another step. -/
def Erases {α : Type} (r : Traced α) (s : Run α) : Prop := ∀ t m, (r t m).1 = s m

section Erases

variable {α β : Type}

private theorem erases_lift (s : Run α) : Erases (lift s) s := fun _ _ ↦ rfl

private theorem erases_pure (a : α) : Erases (pure a) (Run.succeed a) := fun _ _ ↦ rfl

private theorem erases_bind {r : Traced α} {s : Run α} {f : α → Traced β} {g : α → Run β}
    (h : Erases r s) (hf : ∀ a, Erases (f a) (g a)) : Erases (r >>= f) (s >>= g) := by
  intro t m
  change (andThen r f t m).1 = Run.andThen s g m
  have hr := h t m
  unfold andThen Run.andThen
  rcases hrt : r t m with ⟨o, t'⟩
  rw [hrt] at hr
  rw [← hr]
  cases o with
  | done a m' => exact hf a t' m'
  | failed e m' => rfl

private theorem erases_visit {r : Traced α} {s : Run α} (c : Context) (e : Expr Binding)
    (h : Erases r s) : Erases (visit c e >>= fun _ ↦ r) s := fun _ m ↦ h _ m

private theorem erases_contextOf {g : Context → Traced α} {s : Run α} (f : Closure)
    (h : ∀ c, Erases (g c) s) : Erases (contextOf f >>= g) s := fun t m ↦ h (t.contextOf f.id) t m

private theorem erases_inEnv {r : Traced α} {s : Run α} (e : EnvId) (h : Erases r s) :
    Erases (inEnv e r) (Run.inEnv e s) := by
  intro t m
  have hr : (fun m' ↦ (r t m').1) = s := funext (h t)
  simp only [inEnv, hr]

private theorem erases_inCall {r : Traced α} {s : Run α} (callee : Bytes) (line : Int)
    (h : Erases r s) : Erases (inCall callee line r) (Run.inCall callee line s) := by
  intro t m
  have hr : (fun m' ↦ (r t m').1) = s := funext (h t)
  simp only [inCall, hr]

private theorem erases_located {r : Traced Value} {s : Run Value} (paren : Token) (h : Erases r s) :
    Erases (located paren r) (Run.located paren s) := by
  intro t m
  have hr : (fun m' ↦ (r t m').1) = s := funext (h t)
  simp only [located, hr]

private theorem erases_attempt {r : Traced α} {s : Run α} (h : Erases r s) :
    Erases (attempt r) (Run.attempt s) := by
  intro t m
  have hr : (fun m' ↦ (r t m').1) = s := funext (h t)
  simp only [attempt, hr]

private theorem erases_ite {r r' : Traced α} {s s' : Run α} {p : Prop} [Decidable p]
    (h : Erases r s) (h' : Erases r' s') :
    Erases (if p then r else r') (if p then s else s') := by
  split
  · exact h
  · exact h'

/-- A procedure leaves nothing out that its calls do not. -/
theorem erases_serve {call : Value → List Value → Int → Traced Value}
    {call' : Value → List Value → Int → Run Value}
    (hcall : ∀ f args line, Erases (call f args line) (call' f args line)) (callee : Bytes)
    (p : Procedure) (d : Procedure.Hand) :
    Erases (Run.serve lift attempt call callee p d)
      (Run.serve id Run.attempt call' callee p d) := by
  induction p generalizing d with
  | yield v => exact erases_pure _
  | fail message => exact erases_lift _
  | rethrow i => exact erases_lift _
  | call f args line next ih =>
    exact erases_bind (erases_attempt (hcall _ _ line)) fun result ↦ ih _ _
  | read name next ih => exact erases_bind (erases_lift _) fun v ↦ ih _ _
  | define name v next ih => exact erases_bind (erases_lift _) fun _ ↦ ih _

/-- Without the record, a function of the host makes the same calls and does the same with them. -/
theorem erases_start {call : Value → List Value → Int → Traced Value}
    {call' : Value → List Value → Int → Run Value}
    (hcall : ∀ f args line, Erases (call f args line) (call' f args line)) (f : Builtin)
    (p : Procedure.Occasion → Procedure) (args : List Value) :
    Erases (Run.start lift attempt call f p args) (Run.start id Run.attempt call' f p args) :=
  erases_bind (erases_lift _) fun _ ↦ erases_serve hcall _ _ _

end Erases

-- Leaving the record out of evaluation with some fuel.
private structure ErasesAt (n : Nat) : Prop where
  eval : ∀ c e, Erases (eval n c e) (Run.eval n e)
  evalAll : ∀ c es, Erases (evalAll n c es) (Run.evalAll n es)
  call : ∀ f args line, Erases (call n f args line) (Run.call n f args line)
  exec : ∀ c s, Erases (exec n c s) (Run.exec n s)
  repeatWhile : ∀ c test body, Erases (repeatWhile n c test body) (Run.repeatWhile n test body)
  execAll : ∀ c ss, Erases (execAll n c ss) (Run.execAll n ss)

private theorem erases_eval_succ {n : Nat} (ih : ErasesAt n) (c : Context) (e : Expr Binding) :
    Erases (eval (n + 1) c e) (Run.eval (n + 1) e) := by
  apply erases_visit
  cases e with
  | literal t v => exact erases_pure _
  | grouping t x => exact ih.eval c x
  | unary op x => exact erases_bind (ih.eval c x) fun v ↦ erases_lift _
  | binary x op y =>
    exact erases_bind (ih.eval c x) fun v ↦ erases_bind (ih.eval c y) fun w ↦ erases_lift _
  | logical x op y =>
    exact erases_bind (ih.eval c x) fun v ↦ erases_ite (erases_pure v) (ih.eval c y)
  | «variable» name b => exact erases_lift _
  | assign name b x =>
    exact erases_bind (ih.eval c x) fun v ↦ erases_bind (erases_lift _) fun _ ↦ erases_pure v
  | call f paren args =>
    exact erases_bind (ih.eval c f) fun g ↦ erases_bind (ih.evalAll c args) fun vs ↦
      erases_located paren (ih.call g vs paren.line)

private theorem erases_call_succ {n : Nat} (ih : ErasesAt n) (f : Value) (args : List Value)
    (line : Int) : Erases (call (n + 1) f args line) (Run.call (n + 1) f args line) := by
  cases f with
  | function f =>
    have hbody : Erases _ _ := erases_contextOf f fun c ↦
      erases_bind (erases_lift (Run.newEnv f.env)) fun e ↦
        erases_bind (erases_lift (Run.bindParams e f.params args)) fun _ ↦
          erases_bind (erases_inEnv e (ih.execAll ((c.enter e).recordParams f.params) f.body))
            fun completion ↦ erases_lift (Run.returnValue completion)
    exact erases_ite (erases_inCall f.name.lexeme line hbody) (erases_lift _)
  | builtin f =>
    apply erases_ite (erases_inCall f.name line _) (erases_lift _)
    -- only procedures go back into the evaluator
    cases f.action with
    | procedure p => exact erases_start ih.call f p args
    | _ => exact erases_lift _
  | nil => exact erases_lift _
  | bool b => exact erases_lift _
  | number x => exact erases_lift _
  | text s => exact erases_lift _

private theorem erases_exec_succ {n : Nat} (ih : ErasesAt n) (c : Context) (s : Stmt Binding) :
    Erases (exec (n + 1) c s) (Run.exec (n + 1) s) := by
  cases s with
  | expr e => exact erases_bind (ih.eval c e) fun _ ↦ erases_pure _
  | print t e =>
    exact erases_bind (ih.eval c e) fun v ↦ erases_bind (erases_lift _) fun _ ↦ erases_pure _
  | var name init =>
    cases init with
    | none => exact erases_bind (erases_lift _) fun _ ↦ erases_pure _
    | some e =>
      exact erases_bind (ih.eval _ e) fun v ↦ erases_bind (erases_lift _) fun _ ↦ erases_pure _
  | block t body =>
    intro tr m
    exact erases_bind (erases_lift (Run.newEnv m.env))
      (fun e ↦ erases_inEnv e (ih.execAll (c.enter e) body)) tr m
  | ifElse t test yes no =>
    apply erases_bind (ih.eval c test)
    intro v
    apply erases_ite (ih.exec c yes)
    cases no with
    | none => exact erases_pure _
    | some no => exact ih.exec c no
  | «while» t test body => exact ih.repeatWhile c test body
  | function name params body =>
    intro t m
    rfl
  | «return» t result =>
    cases result with
    | none => exact erases_pure _
    | some e => exact erases_bind (ih.eval c e) fun v ↦ erases_pure _
  | branch t => exact erases_pure _

private theorem erasesAt (n : Nat) : ErasesAt n := by
  induction n with
  | zero => constructor <;> intros <;> exact erases_lift _
  | succ n ih =>
    constructor
    · exact erases_eval_succ ih
    · intro c es
      cases es with
      | nil => rw [evalAll, Run.evalAll]; exact erases_pure _
      | cons e es =>
        rw [evalAll, Run.evalAll]
        exact erases_bind (ih.eval c e) fun v ↦ erases_bind (ih.evalAll c es) fun vs ↦ erases_pure _
    · exact erases_call_succ ih
    · exact erases_exec_succ ih
    · intro c test body
      rw [repeatWhile, Run.repeatWhile]
      apply erases_bind (ih.eval c test)
      intro v
      apply erases_ite _ (erases_pure _)
      apply erases_bind (ih.exec c body)
      intro completion
      cases completion with
      | normal => exact ih.repeatWhile c test body
      | returned v t => exact erases_pure _
      | broken t => exact erases_pure _
      | continued t => exact ih.repeatWhile c test body
    · intro c ss
      cases ss with
      | nil => rw [execAll, Run.execAll]; exact erases_pure _
      | cons s ss =>
        rw [execAll, Run.execAll]
        apply erases_bind (ih.exec c s)
        intro completion
        cases completion with
        | normal => exact ih.execAll (c.after s) ss
        | returned v t => exact erases_pure _
        | broken t => exact erases_pure _
        | continued t => exact erases_pure _

/-- Evaluation with a record is evaluation. -/
theorem eval_erases (n : Nat) (c : Context) (e : Expr Binding) :
    Erases (eval n c e) (Run.eval n e) := (erasesAt n).eval c e

/-- A call with a record is a call. -/
theorem call_erases (n : Nat) (f : Value) (args : List Value) (line : Int) :
    Erases (call n f args line) (Run.call n f args line) := (erasesAt n).call f args line

/-- Execution with a record is execution. -/
theorem exec_erases (n : Nat) (c : Context) (s : Stmt Binding) :
    Erases (exec n c s) (Run.exec n s) := (erasesAt n).exec c s

/-- Executing several statements with a record is executing them. -/
theorem execAll_erases (n : Nat) (c : Context) (ss : List (Stmt Binding)) :
    Erases (execAll n c ss) (Run.execAll n ss) := (erasesAt n).execAll c ss

private theorem interpretAll_erases (n : Nat) (p : Program Binding) :
    Erases (interpretAll n p) (Run.interpretAll n p) := by
  induction p with
  | nil => exact erases_pure _
  | cons s ss ih =>
    exact erases_bind (exec_erases n [] s) fun completion ↦ erases_bind (erases_lift _) fun _ ↦ ih

/-- A program run with a record is run. -/
theorem interpret_erases (n : Nat) (p : Program Binding) :
    Erases (interpret n p) (Run.interpret n p) :=
  fun t m ↦ interpretAll_erases n p t m.atTopLevel

/-- Evaluation at top level with a record is evaluation at top level. -/
theorem evaluate_erases (n : Nat) (e : Expr Binding) :
    Erases (evaluate n e) (Run.evaluate n e) :=
  fun t m ↦ eval_erases n [] e t m.atTopLevel

end Traced
end Lox
