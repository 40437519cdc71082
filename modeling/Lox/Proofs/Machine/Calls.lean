import Lox.Proofs.Machine.Order

/-!
# Active calls

The evaluator again, with the active calls passed down as an argument instead of being kept on the
machine: a call hands its body one call more than it was handed itself, and nothing has to be taken
back when the body ends. What is raised or printed then shows the calls that were passed to this
place (`Calls.during_raise`, `Calls.during_print`), each with the name of what was called and on the
line that the next call was made from.

The stack of the machine always shows these calls, however its lines were overwritten before: the
evaluator and this one yield the same values and the same errors, and print the same
(`Calls.run_shows_active_calls`).
-/

namespace Lox

/-- A call that is active. -/
structure ActiveCall where
  /-- The name of what is called. -/
  callee : Bytes
  /-- The line that is given for the call. -/
  line : Int
  deriving DecidableEq, Repr

namespace Calls

open Run

/-- The frames that active calls have, the innermost first, while the innermost one is at `line`.
Below a call is the frame that made it, at the line of this call, and last the top level. -/
def frames : List ActiveCall → Int → CallStack
  | [], line => [⟨none, line⟩]
  | c :: calls, line => ⟨some c.callee, line⟩ :: frames calls c.line

/-- Does a step on a machine whose frames are those of the active calls. -/
def during {α : Type} (calls : List ActiveCall) (r : Run α) : Run α := fun m ↦
  r { m with stack := frames calls 0 }

/-- Gives an error of a call the place of the call in the program. The call is not active any more,
or never was. -/
def located (calls : List ActiveCall) (paren : Token) (r : Run Value) : Run Value := fun m ↦
  match r m with
  | .failed (.call e) m => during calls (raise paren (.call e)) m
  | result => result

mutual

/-- The value of an expression. -/
def eval : Nat → List ActiveCall → Expr Binding → Run Value
  | 0, _, _ => fail .outOfFuel
  | n + 1, calls, e =>
    match e with
    | .literal _ v => succeed (.ofLiteral v)
    | .grouping _ x => eval n calls x
    | .unary op x => do
      let v ← eval n calls x
      during calls (applyUnary op v)
    | .binary x op y => do
      let v ← eval n calls x
      let w ← eval n calls y
      during calls (applyBinary op v w)
    | .logical x op y => do
      let v ← eval n calls x
      if skipsRight op v then succeed v else eval n calls y
    | .variable name b => during calls (lookup name b)
    | .assign name b x => do
      let v ← eval n calls x
      during calls (assign name b v)
      succeed v
    | .call c paren args => do
      let f ← eval n calls c
      let vs ← evalAll n calls args
      located calls paren (call n calls f vs paren.line)

/-- The values of expressions, from left to right. -/
def evalAll : Nat → List ActiveCall → List (Expr Binding) → Run (List Value)
  | 0, _, _ => fail .outOfFuel
  | _ + 1, _, [] => succeed []
  | n + 1, calls, e :: es => do
    let v ← eval n calls e
    let vs ← evalAll n calls es
    succeed (v :: vs)

/-- Calls a value from the given line. What the call does is done with one active call more. -/
def call : Nat → List ActiveCall → Value → List Value → Int → Run Value
  | 0, _, _, _, _ => fail .outOfFuel
  | n + 1, calls, f, args, line =>
    match f with
    | .function f =>
      if args.length = f.params.length then do
        let inner := ⟨f.name.lexeme, line⟩ :: calls
        let e ← newEnv f.env
        bindParams e f.params args
        let completion ← inEnv e (execAll n inner f.body)
        during inner (returnValue completion)
      else fail (.call (.arity f.params.length args.length))
    | .builtin f =>
      if (args.length : Int) = f.arity then
        let inner := ⟨f.name, line⟩ :: calls
        match f.action with
        | .procedure p => start (during inner) attempt (call n inner) f p args
        | _ => during inner (perform f args)
      else fail (.call (.arity f.arity args.length))
    | _ => fail (.call .notCallable)

/-- Executes a statement. -/
def exec : Nat → List ActiveCall → Stmt Binding → Run Completion
  | 0, _, _ => fail .outOfFuel
  | n + 1, calls, s =>
    match s with
    | .expr e => do
      let _ ← eval n calls e
      succeed .normal
    | .print _ e => do
      let v ← eval n calls e
      during calls (print v.display)
      succeed .normal
    | .var name none => do
      define name.lexeme .nil
      succeed .normal
    | .var name (some e) => do
      let v ← eval n calls e
      define name.lexeme v
      succeed .normal
    | .block _ body => fun m ↦
      (do
        let e ← newEnv m.env
        inEnv e (execAll n calls body) : Run Completion) m
    | .ifElse _ test yes no => do
      let v ← eval n calls test
      if v.truth then exec n calls yes
      else
        match no with
        | none => succeed .normal
        | some no => exec n calls no
    | .while _ test body => repeatWhile n calls test body
    | .function name params body => do
      let f ← newFunction name params body
      define name.lexeme f
      succeed .normal
    | .return keyword none => succeed (.returned .nil keyword)
    | .return keyword (some e) => do
      let v ← eval n calls e
      succeed (.returned v keyword)
    | .branch keyword =>
      succeed (if keyword.kind = .break then .broken keyword else .continued keyword)

/-- Executes a statement as long as an expression is true and nothing but `continue` leaves it. -/
def repeatWhile : Nat → List ActiveCall → Expr Binding → Stmt Binding → Run Completion
  | 0, _, _, _ => fail .outOfFuel
  | n + 1, calls, test, body => do
    let v ← eval n calls test
    if v.truth then
      match ← exec n calls body with
      | .broken _ => succeed .normal
      | .returned v t => succeed (.returned v t)
      | .normal | .continued _ => repeatWhile n calls test body
    else succeed .normal

/-- Executes statements one after the other, up to the first that leaves them. -/
def execAll : Nat → List ActiveCall → List (Stmt Binding) → Run Completion
  | 0, _, _ => fail .outOfFuel
  | _ + 1, _, [] => succeed .normal
  | n + 1, calls, s :: ss => do
    match ← exec n calls s with
    | .normal => execAll n calls ss
    | completion => succeed completion

end

/-- Runs the statements of a program, from top level. -/
def interpretAll (n : Nat) : Program Binding → Run Unit
  | [] => succeed ()
  | s :: ss => do
    let completion ← exec n [] s
    during [] (endProgram completion)
    interpretAll n ss

/-- Runs a program in the global environment. -/
def interpret (n : Nat) (p : Program Binding) : Run Unit := fun m ↦ interpretAll n p m.atTopLevel

/-- Evaluates an expression in the global environment. -/
def evaluate (n : Nat) (e : Expr Binding) : Run Value := fun m ↦ eval n [] e m.atTopLevel

/-! ## What shows the active calls -/

section Frames

variable {α : Type} (calls : List ActiveCall)

/-- Another line for the innermost frame is one for the frames of the same calls. -/
@[simp] theorem withLine_frames (line line' : Int) :
    (frames calls line).withLine line' = frames calls line' := by
  cases calls <;> rfl

/-- There is a frame for each active call, and one for the top level. -/
@[simp] theorem length_frames (line : Int) : (frames calls line).length = calls.length + 1 := by
  induction calls generalizing line with
  | nil => rfl
  | cons c calls ih => rw [frames, List.length_cons, ih, List.length_cons]

/-- The name of the innermost frame. -/
def innermost : List ActiveCall → Bytes
  | [] => Bytes.ofString "<toplevel>"
  | c :: _ => c.callee

private theorem head?_frames (line : Int) :
    (frames calls line).head?.elim [] Frame.name = innermost calls := by
  cases calls <;> rfl

/-- An error shows the active calls, the innermost one on the line of the error. -/
theorem during_raise (t : Token) (cause : RuntimeError.Cause) (m : Machine) :
    (during calls (raise t cause) m : Outcome α) =
      .failed (.runtime ⟨cause, t.line, frames calls t.line⟩)
        { m with stack := frames calls t.line } := by
  cases calls <;> rfl

/-- What is printed is printed with a frame for each active call and one for the top level. -/
theorem during_print (text : Bytes) (m : Machine) :
    during calls (print text) m =
      .done () { m with
        stack := frames calls 0
        printed := ⟨text, innermost calls, calls.length + 1⟩ :: m.printed } := by
  simp only [during, print, change, head?_frames, length_frames]

end Frames

/-! ## Steps that do not depend on earlier lines -/

/-- Two machines that differ in their stacks at most. -/
def Alike (m m' : Machine) : Prop := ∃ s, m' = { m with stack := s }

/-- An error of the program shows the active calls, and those that were made since, on its line. -/
def Shows (calls : List ActiveCall) (f : Fault) : Prop :=
  ∀ e, f = .runtime e → ∃ inner, e.stack = frames (inner ++ calls) e.line

/-- Two outcomes are the same but for the stack, which shows the active calls in the first one. -/
inductive Agrees {α : Type} (calls : List ActiveCall) : Outcome α → Outcome α → Prop where
  | done (a : α) {m m' : Machine} (line : Int) (hstack : m.stack = frames calls line)
      (halike : Alike m m') : Agrees calls (.done a m) (.done a m')
  | failed {f : Fault} {m m' : Machine} (hf : Shows calls f) (line : Int)
      (hstack : m.stack = frames calls line) (halike : Alike m m') :
    Agrees calls (.failed f m) (.failed f m')

/-- One step on a machine whose stack shows the active calls does what another does whatever the
stack is. -/
def Follows {α : Type} (calls : List ActiveCall) (r r' : Run α) : Prop :=
  ∀ (m m' : Machine) (line : Int), m.stack = frames calls line → Alike m m' →
    Agrees calls (r m) (r' m')

section Steps

variable {α β : Type} {calls : List ActiveCall}

private theorem follows_succeed (a : α) : Follows calls (succeed a) (succeed a) :=
  fun _ _ line h h' ↦ .done a line h h'

private theorem follows_fail {f : Fault} (hf : ∀ e, f ≠ .runtime e) :
    Follows calls (fail f : Run α) (fail f) :=
  fun _ _ line h h' ↦ .failed (fun e he ↦ absurd he (hf e)) line h h'

private theorem follows_bind {r r' : Run α} {f f' : α → Run β} (h : Follows calls r r')
    (hf : ∀ a, Follows calls (f a) (f' a)) : Follows calls (r >>= f) (r' >>= f') := by
  intro m m' line hm halike
  change Agrees calls (andThen r f m) (andThen r' f' m')
  have hr := h m m' line hm halike
  unfold andThen
  generalize r m = o, r' m' = o' at hr
  cases hr with
  | done a line' hm' halike' => exact hf a _ _ line' hm' halike'
  | failed hf line' hm' halike' => exact .failed hf line' hm' halike'

private theorem follows_ite {r r' t t' : Run α} {p : Prop} [Decidable p] (h : Follows calls r r')
    (h' : Follows calls t t') : Follows calls (if p then r else t) (if p then r' else t') := by
  split
  · exact h
  · exact h'

private theorem follows_inEnv {r r' : Run α} (h : Follows calls r r') (e : EnvId) :
    Follows calls (inEnv e r) (inEnv e r') := by
  rintro m _ line hm ⟨s, rfl⟩
  have hr := h { m with env := e } { m with env := e, stack := s } line hm ⟨s, rfl⟩
  unfold inEnv
  dsimp only
  generalize r { m with env := e } = o, r' { m with env := e, stack := s } = o' at hr
  cases hr with
  | done a line' hm' halike =>
    obtain ⟨s', rfl⟩ := halike
    exact .done a line' hm' ⟨s', rfl⟩
  | failed hf line' hm' halike =>
    obtain ⟨s', rfl⟩ := halike
    exact .failed hf line' hm' ⟨s', rfl⟩

/-- A step that has nothing to do with the stack. -/
theorem follows_define (e : Machine → EnvId) (he : ∀ m s, e { m with stack := s } = e m) (x : Bytes)
    (v : Value) : Follows calls (change fun m ↦ { m with heap := m.heap.define (e m) x v })
      (change fun m ↦ { m with heap := m.heap.define (e m) x v }) := by
  rintro m _ line hm ⟨s, rfl⟩
  refine .done () line hm ⟨s, ?_⟩
  dsimp only
  rw [he]

private theorem follows_newEnv (e : EnvId) : Follows calls (newEnv e) (newEnv e) := by
  rintro m _ line hm ⟨s, rfl⟩
  exact .done _ line hm ⟨s, rfl⟩

private theorem follows_newFunction (name : Token) (params : List Token) (body : Program Binding) :
    Follows calls (newFunction name params body) (newFunction name params body) := by
  rintro m _ line hm ⟨s, rfl⟩
  exact .done _ line hm ⟨s, rfl⟩

private theorem follows_bindParams (e : EnvId) (ps : List Token) (vs : List Value) :
    Follows calls (bindParams e ps vs) (bindParams e ps vs) := by
  induction ps generalizing vs with
  | nil => exact follows_succeed ()
  | cons p ps ih =>
    cases vs with
    | nil => exact follows_fail nofun
    | cons v vs =>
      exact follows_bind (follows_define (fun _ ↦ e) (fun _ _ ↦ rfl) p.lexeme v) fun _ ↦ ih vs

/-- A call is active while its body runs, and is no more when it has ended. -/
theorem follows_inCall {r r' : Run α} {callee : Bytes} {line : Int}
    (h : ∀ m m', m.stack = frames (⟨callee, line⟩ :: calls) 0 → Alike m m' →
      Agrees (⟨callee, line⟩ :: calls) (r m) (r' m')) :
    Follows calls (inCall callee line r) r' := by
  rintro m _ line' hm ⟨s, rfl⟩
  -- whatever line the frame was at, the call sets it to its own
  have hstack : (⟨some callee, 0⟩ :: (m.setLine line).stack : CallStack) =
      frames (⟨callee, line⟩ :: calls) 0 := by
    rw [Machine.stack_setLine, hm, withLine_frames]
    rfl
  have hr := h { m.setLine line with stack := ⟨some callee, 0⟩ :: (m.setLine line).stack }
    { m with stack := s } hstack ⟨s, rfl⟩
  unfold inCall
  dsimp only
  generalize r { m.setLine line with stack := ⟨some callee, 0⟩ :: (m.setLine line).stack } = o,
    r' { m with stack := s } = o' at hr
  cases hr with
  | done a line'' hm' halike =>
    obtain ⟨s', rfl⟩ := halike
    rw [frames] at hm'
    simp only [hm']
    exact .done a line rfl ⟨s', rfl⟩
  | failed hf line'' hm' halike =>
    obtain ⟨s', rfl⟩ := halike
    rw [frames] at hm'
    simp only [hm']
    refine .failed (fun e he ↦ ?_) line rfl ⟨s', rfl⟩
    obtain ⟨inner, hinner⟩ := hf e he
    exact ⟨inner ++ [⟨callee, line⟩], by rw [hinner, List.append_assoc, List.singleton_append]⟩

/-- A step that does the same on every machine whose stack shows the active calls, on whatever line
the innermost one is. -/
def Steady (r : Run α) : Prop := ∀ (calls : List ActiveCall) (m : Machine) (line : Int),
  m.stack = frames calls line → Agrees calls (r m) (r { m with stack := frames calls 0 })

private theorem Steady.follows {r : Run α} (h : Steady r) (calls : List ActiveCall) :
    Follows calls r (during calls r) := by
  rintro m _ line hm ⟨s, rfl⟩
  exact h calls m line hm

private theorem steady_succeed (a : α) : Steady (succeed a) :=
  fun _ _ line h ↦ .done a line h ⟨_, rfl⟩

private theorem steady_fail {f : Fault} (hf : ∀ e, f ≠ .runtime e) : Steady (fail f : Run α) :=
  fun _ _ line h ↦ .failed (fun e he ↦ absurd he (hf e)) line h ⟨_, rfl⟩

/-- What does not depend on the line of the innermost frame. -/
theorem steady_look {f : Machine → α}
    (hf : ∀ calls line (m : Machine), m.stack = frames calls line →
      f { m with stack := frames calls 0 } = f m) : Steady (look f) := by
  intro calls m line hm
  simp only [look, hf calls line m hm]
  exact .done _ line hm ⟨_, rfl⟩

private theorem steady_defineGlobal (x : Bytes) (v : Value) :
    Steady (change fun m ↦ { m with heap := m.heap.define Machine.globals x v }) :=
  fun _ _ line hm ↦ .done () line hm ⟨_, rfl⟩

private theorem steady_raise (t : Token) (cause : RuntimeError.Cause) :
    Steady (raise t cause : Run α) := by
  intro calls m line hm
  have hraise := during_raise (α := α) calls t cause m
  unfold during at hraise
  have hstack : (m.setLine t.line).stack = frames calls t.line := by
    rw [Machine.stack_setLine, hm, withLine_frames]
  rw [hraise, raise, hstack]
  refine .failed ?_ t.line hstack ⟨_, rfl⟩
  rintro _ ⟨⟩
  exact ⟨[], rfl⟩

private theorem steady_print (text : Bytes) : Steady (print text) := by
  intro calls m line hm
  simp only [print, change, hm, head?_frames, length_frames]
  exact .done () line rfl ⟨_, rfl⟩

private theorem steady_lookup (name : Token) (b : Binding) : Steady (lookup name b) := by
  intro calls m line hm
  cases b with
  | global =>
    rw [lookup_global, lookup_global]
    dsimp only
    cases m.heap.lookup Machine.globals name.lexeme with
    | none => exact steady_raise name _ calls m line hm
    | some v => exact .done v line hm ⟨_, rfl⟩
  | scope d =>
    rw [lookup_scope, lookup_scope]
    dsimp only
    cases m.heap.ancestor? d m.env with
    | none => exact steady_fail (f := .stuck) nofun calls m line hm
    | some e =>
      dsimp only
      cases m.heap.lookup e name.lexeme with
      | none => exact steady_raise name _ calls m line hm
      | some v => exact .done v line hm ⟨_, rfl⟩

private theorem steady_assign (name : Token) (b : Binding) (v : Value) :
    Steady (assign name b v) := by
  intro calls m line hm
  cases b with
  | global =>
    rw [assign_global, assign_global]
    dsimp only
    split
    · exact .done () line hm ⟨_, rfl⟩
    · exact steady_raise name _ calls m line hm
  | scope d =>
    rw [assign_scope, assign_scope]
    dsimp only
    cases m.heap.ancestor? d m.env with
    | none => exact steady_fail (f := .stuck) nofun calls m line hm
    | some e => exact .done () line hm ⟨_, rfl⟩

private theorem steady_of_applied {kinds : List Kind} {op : Token} {r : Run Value}
    (h : Applied kinds op r) : Steady r := by
  cases h with
  | data => exact steady_succeed _
  | raised => exact steady_raise op _
  | stuck => exact steady_fail nofun

private theorem steady_returnValue (c : Completion) : Steady (returnValue c) := by
  cases c with
  | normal => exact steady_succeed _
  | returned v t => exact steady_succeed v
  | broken t => exact steady_raise t _
  | continued t => exact steady_raise t _

private theorem steady_endProgram (c : Completion) : Steady (endProgram c) := by
  cases c with
  | normal => exact steady_succeed _
  | returned v t => exact steady_raise t _
  | broken t => exact steady_raise t _
  | continued t => exact steady_raise t _

/-- A function of the host may look at the stack, and finds its own frame as the call made it. -/
theorem perform_agrees (f : Builtin) (args : List Value) {m m' : Machine}
    (hm : m.stack = frames calls 0) (halike : Alike m m') :
    Agrees calls (perform f args m) (during calls (perform f args) m') := by
  obtain ⟨s, rfl⟩ := halike
  have hsame : during calls (perform f args) { m with stack := s } = perform f args m := by
    rw [during, ← hm]
  have hp := performed f args m
  rw [hsame]
  generalize perform f args m = o at hp
  cases hp with
  | data => exact .done _ 0 hm ⟨_, rfl⟩
  | arg => exact .done _ 0 hm ⟨_, rfl⟩
  | failed e => exact .failed nofun 0 hm ⟨_, rfl⟩
  | stuck => exact .failed nofun 0 hm ⟨_, rfl⟩

private theorem follows_located {r r' : Run Value} (h : Follows calls r r') (paren : Token) :
    Follows calls (Run.located paren r) (located calls paren r') := by
  intro m m' line hm halike
  have hr := h m m' line hm halike
  unfold Run.located located
  generalize r m = o, r' m' = o' at hr
  cases hr with
  | done a line' hm' halike' => exact .done a line' hm' halike'
  | @failed f _ _ hf line' hm' halike' =>
    cases f with
    | call e => exact (steady_raise paren _).follows calls _ _ line' hm' halike'
    | runtime e => exact .failed hf line' hm' halike'
    | outOfFuel => exact .failed hf line' hm' halike'
    | stuck => exact .failed hf line' hm' halike'

/-- An error that a step goes on after shows the active calls. -/
theorem follows_attempt {r r' : Run Value} {f f' : Except Fault Value → Run β}
    (h : Follows calls r r')
    (hf : ∀ result, Procedure.EndsWith (fun _ ↦ True) (Shows calls) result →
      Follows calls (f result) (f' result)) :
    Follows calls (attempt r >>= f) (attempt r' >>= f') := by
  intro m m' line hm halike
  change Agrees calls (andThen (attempt r) f m) (andThen (attempt r') f' m')
  have hr := h m m' line hm halike
  unfold andThen attempt
  generalize r m = o, r' m' = o' at hr
  cases hr with
  | done v line' hm' halike' => exact hf (.ok v) trivial _ _ line' hm' halike'
  | @failed e _ _ he line' hm' halike' =>
    cases e with
    | runtime e => exact hf (.error (.runtime e)) he _ _ line' hm' halike'
    | call e => exact hf (.error (.call e)) he _ _ line' hm' halike'
    | outOfFuel => exact .failed he line' hm' halike'
    | stuck => exact .failed he line' hm' halike'

/-- Failing with an error that was met before, which shows what it showed. -/
theorem follows_rethrow {f : Fault} (hf : Shows calls f) :
    Follows calls (fail f : Run α) (during calls (fail f)) := by
  rintro m _ line hm ⟨s, rfl⟩
  exact .failed hf line hm ⟨_, rfl⟩

/-- The errors of a procedure show the active calls if those of its calls do. -/
theorem follows_serve {call call' : Value → List Value → Int → Run Value}
    (hcall : ∀ f args line, Follows calls (call f args line) (call' f args line)) (callee : Bytes)
    (p : Procedure) {d : Procedure.Hand} (hd : d.Holds (fun _ ↦ True) (Shows calls)) :
    Follows calls (serve id attempt call callee p d)
      (serve (during calls) attempt call' callee p d) := by
  induction p generalizing d with
  | yield x => exact follows_succeed _
  | fail message => exact follows_rethrow nofun
  | rethrow i => exact follows_rethrow (hd.error (fun e ↦ nofun) callee i)
  | call f args line next ih =>
    exact follows_attempt (hcall _ _ line) fun result hresult ↦ ih _ (hd.add hresult)
  | read name next ih =>
    have hglobal : Steady (look fun m ↦ m.heap.get? Machine.globals name) :=
      steady_look fun _ _ _ _ ↦ rfl
    exact follows_bind (hglobal.follows calls) fun a ↦ ih _ (hd.addValue fun _ _ ↦ trivial)
  | define name x next ih =>
    exact follows_bind ((steady_defineGlobal name _).follows calls) fun _ ↦ ih hd

/-- The calls around that of a procedure are at the lines that they were made from. -/
theorem steady_callers : Steady (look fun m ↦ m.stack.tail) := by
  refine steady_look fun calls line m hm ↦ ?_
  rw [hm]
  cases calls <;> rfl

end Steps

/-! ## Evaluation -/

-- Evaluation with some fuel shows the active calls.
private structure FollowsAt (n : Nat) : Prop where
  eval : ∀ calls e, Follows calls (Run.eval n e) (eval n calls e)
  evalAll : ∀ calls es, Follows calls (Run.evalAll n es) (evalAll n calls es)
  call : ∀ calls f args line, Follows calls (Run.call n f args line) (call n calls f args line)
  exec : ∀ calls s, Follows calls (Run.exec n s) (exec n calls s)
  repeatWhile : ∀ calls test body,
    Follows calls (Run.repeatWhile n test body) (repeatWhile n calls test body)
  execAll : ∀ calls ss, Follows calls (Run.execAll n ss) (execAll n calls ss)

section Succ

variable {n : Nat} (calls : List ActiveCall)

private theorem follows_eval_succ (ih : FollowsAt n) (e : Expr Binding) :
    Follows calls (Run.eval (n + 1) e) (eval (n + 1) calls e) := by
  cases e with
  | literal t v => exact follows_succeed _
  | grouping t x => exact ih.eval calls x
  | unary op x =>
    exact follows_bind (ih.eval calls x) fun v ↦
      (steady_of_applied (applied_unary op v)).follows calls
  | binary x op y =>
    exact follows_bind (ih.eval calls x) fun v ↦ follows_bind (ih.eval calls y) fun w ↦
      (steady_of_applied (applied_binary op v w)).follows calls
  | logical x op y =>
    exact follows_bind (ih.eval calls x) fun v ↦ follows_ite (follows_succeed v) (ih.eval calls y)
  | «variable» name b => exact (steady_lookup name b).follows calls
  | assign name b x =>
    exact follows_bind (ih.eval calls x) fun v ↦
      follows_bind ((steady_assign name b v).follows calls) fun _ ↦ follows_succeed v
  | call f paren args =>
    exact follows_bind (ih.eval calls f) fun g ↦ follows_bind (ih.evalAll calls args) fun vs ↦
      follows_located (ih.call calls g vs paren.line) paren

private theorem follows_evalAll_succ (ih : FollowsAt n) (es : List (Expr Binding)) :
    Follows calls (Run.evalAll (n + 1) es) (evalAll (n + 1) calls es) := by
  cases es with
  | nil => exact follows_succeed _
  | cons e es =>
    exact follows_bind (ih.eval calls e) fun v ↦ follows_bind (ih.evalAll calls es) fun vs ↦
      follows_succeed _

private theorem follows_call_succ (ih : FollowsAt n) (f : Value) (args : List Value) (line : Int) :
    Follows calls (Run.call (n + 1) f args line) (call (n + 1) calls f args line) := by
  cases f with
  | function f =>
    refine follows_ite (follows_inCall fun m m' hm halike ↦ ?_) (follows_fail nofun)
    exact follows_bind (follows_newEnv f.env) (fun e ↦
      follows_bind (follows_bindParams e f.params args) fun _ ↦
        follows_bind (follows_inEnv (ih.execAll _ f.body) e) fun c ↦
          (steady_returnValue c).follows _) m m' 0 hm halike
  | builtin f =>
    refine follows_ite (follows_inCall fun m m' hm halike ↦ ?_) (follows_fail nofun)
    cases f.action with
    | procedure p =>
      exact follows_bind (steady_callers.follows _) (fun _ ↦
        follows_serve (ih.call _) _ _ (.ofArgs fun _ _ ↦ trivial)) m m' 0 hm halike
    | _ => exact perform_agrees f _ hm halike
  | nil => exact follows_fail nofun
  | bool b => exact follows_fail nofun
  | number x => exact follows_fail nofun
  | text s => exact follows_fail nofun

private theorem follows_exec_succ (ih : FollowsAt n) (s : Stmt Binding) :
    Follows calls (Run.exec (n + 1) s) (exec (n + 1) calls s) := by
  have hdefine (x : Bytes) (v : Value) : Follows calls (define x v) (define x v) :=
    follows_define Machine.env (fun _ _ ↦ rfl) x v
  cases s with
  | expr e => exact follows_bind (ih.eval calls e) fun _ ↦ follows_succeed _
  | print t e =>
    exact follows_bind (ih.eval calls e) fun v ↦
      follows_bind ((steady_print v.display).follows calls) fun _ ↦ follows_succeed _
  | var name init =>
    cases init with
    | none => exact follows_bind (hdefine name.lexeme .nil) fun _ ↦ follows_succeed _
    | some e =>
      exact follows_bind (ih.eval calls e) fun v ↦
        follows_bind (hdefine name.lexeme v) fun _ ↦ follows_succeed _
  | block t body =>
    rintro m _ line hm ⟨st, rfl⟩
    exact follows_bind (follows_newEnv m.env) (fun e ↦ follows_inEnv (ih.execAll calls body) e)
      m _ line hm ⟨st, rfl⟩
  | ifElse t test yes no =>
    refine follows_bind (ih.eval calls test) fun v ↦ follows_ite (ih.exec calls yes) ?_
    cases no with
    | none => exact follows_succeed _
    | some no => exact ih.exec calls no
  | «while» t test body => exact ih.repeatWhile calls test body
  | function name params body =>
    exact follows_bind (follows_newFunction name params body) fun f ↦
      follows_bind (hdefine name.lexeme f) fun _ ↦ follows_succeed _
  | «return» t result =>
    cases result with
    | none => exact follows_succeed _
    | some e => exact follows_bind (ih.eval calls e) fun v ↦ follows_succeed _
  | branch t => exact follows_succeed _

private theorem follows_repeatWhile_succ (ih : FollowsAt n) (test : Expr Binding)
    (body : Stmt Binding) :
    Follows calls (Run.repeatWhile (n + 1) test body) (repeatWhile (n + 1) calls test body) := by
  refine follows_bind (ih.eval calls test) fun v ↦ follows_ite ?_ (follows_succeed _)
  refine follows_bind (ih.exec calls body) fun c ↦ ?_
  cases c with
  | normal => exact ih.repeatWhile calls test body
  | returned v t => exact follows_succeed _
  | broken t => exact follows_succeed _
  | continued t => exact ih.repeatWhile calls test body

private theorem follows_execAll_succ (ih : FollowsAt n) (ss : List (Stmt Binding)) :
    Follows calls (Run.execAll (n + 1) ss) (execAll (n + 1) calls ss) := by
  cases ss with
  | nil => exact follows_succeed _
  | cons s ss =>
    refine follows_bind (ih.exec calls s) fun c ↦ ?_
    cases c with
    | normal => exact ih.execAll calls ss
    | returned v t => exact follows_succeed _
    | broken t => exact follows_succeed _
    | continued t => exact follows_succeed _

end Succ

private theorem followsAt (n : Nat) : FollowsAt n := by
  induction n with
  | zero => constructor <;> intros <;> exact follows_fail nofun
  | succ n ih =>
    exact ⟨fun c ↦ follows_eval_succ c ih, fun c ↦ follows_evalAll_succ c ih,
      fun c ↦ follows_call_succ c ih, fun c ↦ follows_exec_succ c ih,
      fun c ↦ follows_repeatWhile_succ c ih, fun c ↦ follows_execAll_succ c ih⟩

private theorem follows_interpretAll (n : Nat) (p : Program Binding) :
    Follows [] (Run.interpretAll n p) (interpretAll n p) := by
  induction p with
  | nil => exact follows_succeed ()
  | cons s ss ih =>
    exact follows_bind ((followsAt n).exec [] s) fun c ↦
      follows_bind ((steady_endProgram c).follows []) fun _ ↦ ih

/-- A program, and an expression, comes to the same values and errors, prints the same and leaves
the same machine but for its stack as it does when the active calls are passed down. There an error
shows the calls that were passed to where it is raised, on its line, and an error of a call is
raised where the call was made, with no frame for what was called. What is printed is printed with
one frame more than there are active calls. -/
theorem run_shows_active_calls (n : Nat) (m : Machine) :
    (∀ p, Agrees [] (Run.interpret n p m) (interpret n p m)) ∧
    (∀ e, Agrees [] (Run.evaluate n e m) (evaluate n e m)) ∧
    (∀ (α : Type) calls t cause (m : Machine), (during calls (raise t cause) m : Outcome α) =
      .failed (.runtime ⟨cause, t.line, frames calls t.line⟩)
        { m with stack := frames calls t.line }) ∧
    (∀ calls paren e (m m' : Machine), located calls paren (fun _ ↦ .failed (.call e) m') m =
      .failed (.runtime ⟨.call e, paren.line, frames calls paren.line⟩)
        { m' with stack := frames calls paren.line }) ∧
    ∀ calls text (m : Machine), during calls (print text) m = .done () { m with
      stack := frames calls 0
      printed := ⟨text, innermost calls, calls.length + 1⟩ :: m.printed } :=
  ⟨fun p ↦ follows_interpretAll n p _ _ 0 rfl ⟨_, rfl⟩,
    fun e ↦ (followsAt n).eval [] e _ _ 0 rfl ⟨_, rfl⟩,
    fun _ calls t cause m ↦ during_raise calls t cause m,
    fun calls paren e _ m' ↦ during_raise calls paren (.call e) m', during_print⟩

end Calls
end Lox
