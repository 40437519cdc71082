import Lox.Proofs.Machine.Rest

/-!
# What was printed

What was printed remains printed: however a step on a machine ends, the machine that it leaves has
printed what the machine before had, and then what the step prints (`Run.interpret_printed` and
`Run.evaluate_printed`). So what a step writes is told from the machines before and after it.
-/

namespace Lox

namespace Machine

/-- What is written between two machines, of which the second comes after the first. -/
def written (m m' : Machine) : Bytes := m'.output.drop m.output.length

/-- Between a machine and itself, nothing is written. -/
@[simp] theorem written_self (m : Machine) : m.written m = [] := by simp [written]

/-- The output of a later machine is that of the earlier one and what is written between them. -/
theorem output_of_suffix {m m' : Machine} (h : m.printed <:+ m'.printed) :
    m'.output = m.output ++ m.written m' := by
  obtain ⟨new, hnew⟩ := h
  have hout : ∃ text, m'.output = m.output ++ text := by
    simp only [output, ← hnew, List.reverse_append, List.map_append, List.flatten_append]
    exact ⟨_, rfl⟩
  obtain ⟨text, htext⟩ := hout
  rw [written, htext, List.drop_left]

end Machine

namespace Run

variable {α β : Type}

/-- A step that leaves what was printed, and may print more. -/
def Prints (r : Run α) : Prop := ∀ m : Machine, m.printed <:+ (r m).after.printed

private theorem prints_succeed (a : α) : Prints (succeed a) := fun m ↦ List.suffix_refl m.printed

private theorem prints_fail (f : Fault) : Prints (fail f : Run α) :=
  fun m ↦ List.suffix_refl m.printed

private theorem prints_raise (t : Token) (cause : RuntimeError.Cause) :
    Prints (raise t cause : Run α) :=
  fun m ↦ List.suffix_refl m.printed

private theorem prints_look (f : Machine → α) : Prints (look f) :=
  fun m ↦ List.suffix_refl m.printed

/-- Printing leaves what was printed before. -/
theorem prints_print (text : Bytes) : Prints (print text) := fun _ ↦ List.suffix_cons _ _

private theorem prints_define (x : Bytes) (v : Value) : Prints (define x v) :=
  fun m ↦ List.suffix_refl m.printed

private theorem prints_newEnv (e : EnvId) : Prints (newEnv e) := fun m ↦ List.suffix_refl m.printed

private theorem prints_newFunction (name : Token) (params : List Token) (body : Program Binding) :
    Prints (newFunction name params body) := fun m ↦ List.suffix_refl m.printed

private theorem prints_bind {r : Run α} {f : α → Run β} (h : Prints r) (hf : ∀ a, Prints (f a)) :
    Prints (r >>= f) := by
  intro m
  have hr := h m
  change m.printed <:+ (andThen r f m).after.printed
  unfold andThen
  cases ho : r m with
  | done a m' =>
    rw [ho] at hr
    exact hr.trans (hf a m')
  | failed e m' =>
    rw [ho] at hr
    exact hr

private theorem prints_ite {r r' : Run α} {p : Prop} [Decidable p] (h : Prints r) (h' : Prints r') :
    Prints (if p then r else r') := by
  split
  · exact h
  · exact h'

private theorem prints_bindParams (e : EnvId) (ps : List Token) (vs : List Value) :
    Prints (bindParams e ps vs) := by
  induction ps generalizing vs with
  | nil => exact prints_succeed ()
  | cons p ps ih =>
    cases vs with
    | nil => exact prints_fail _
    | cons v vs => exact prints_bind (fun m ↦ List.suffix_refl m.printed) fun _ ↦ ih vs

private theorem prints_lookup (name : Token) (b : Binding) : Prints (lookup name b) := by
  intro m
  have hl := looked name b m
  generalize lookup name b m = o at hl
  cases hl <;> exact List.suffix_refl _

private theorem prints_assign (name : Token) (b : Binding) (v : Value) :
    Prints (assign name b v) := by
  intro m
  have ha := assigned name b v m
  generalize assign name b v m = o at ha
  cases ha <;> exact List.suffix_refl _

private theorem Applied.prints {kinds : List Kind} {op : Token} {r : Run Value}
    (h : Applied kinds op r) : Prints r := by
  cases h with
  | data => exact prints_succeed _
  | raised => exact prints_raise op _
  | stuck => exact prints_fail _

private theorem prints_perform (f : Builtin) (args : List Value) : Prints (perform f args) := by
  intro m
  have hp := performed f args m
  generalize perform f args m = o at hp
  cases hp <;> exact List.suffix_refl _

private theorem prints_returnValue (completion : Completion) : Prints (returnValue completion) := by
  cases completion with
  | normal => exact prints_succeed _
  | returned v t => exact prints_succeed v
  | broken t => exact prints_raise t _
  | continued t => exact prints_raise t _

private theorem prints_endProgram (completion : Completion) : Prints (endProgram completion) := by
  cases completion with
  | normal => exact prints_succeed _
  | returned v t => exact prints_raise t _
  | broken t => exact prints_raise t _
  | continued t => exact prints_raise t _

private theorem prints_inEnv {r : Run α} (h : Prints r) (e : EnvId) : Prints (inEnv e r) := by
  intro m
  have hr := h { m with env := e }
  unfold inEnv
  cases ho : r { m with env := e } <;> rw [ho] at hr <;> exact hr

private theorem prints_inCall {r : Run α} (h : Prints r) (callee : Bytes) (line : Int) :
    Prints (inCall callee line r) := by
  intro m
  have hr := h { m.setLine line with stack := ⟨some callee, 0⟩ :: (m.setLine line).stack }
  unfold inCall
  dsimp only
  cases ho : r { m.setLine line with stack := ⟨some callee, 0⟩ :: (m.setLine line).stack } with
  | done a m' =>
    rw [ho] at hr
    dsimp only
    split <;> exact hr
  | failed f m' =>
    rw [ho] at hr
    dsimp only
    split <;> exact hr

private theorem prints_located {r : Run Value} (h : Prints r) (paren : Token) :
    Prints (located paren r) := by
  intro m
  have hr := h m
  unfold located
  split
  · next e m' ho =>
    rw [ho] at hr
    exact hr
  · exact hr

private theorem prints_attempt {r : Run α} (h : Prints r) : Prints (attempt r) := by
  intro m
  have hr := h m
  unfold attempt
  cases ho : r m with
  | done a m' =>
    rw [ho] at hr
    exact hr
  | failed e m' =>
    rw [ho] at hr
    dsimp only
    split <;> exact hr

/-- A procedure leaves what was printed if its calls do. -/
theorem prints_serve {call : Value → List Value → Int → Run Value}
    (hcall : ∀ f args line, Prints (call f args line)) (callee : Bytes) (p : Procedure)
    (d : Procedure.Hand) : Prints (serve id attempt call callee p d) := by
  induction p generalizing d with
  | yield v => exact prints_succeed _
  | fail message => exact prints_fail _
  | rethrow i => exact prints_fail _
  | call f args line next ih =>
    exact prints_bind (prints_attempt (hcall _ _ line)) fun result ↦ ih _ _
  | read name next ih => exact prints_bind (prints_look _) fun v ↦ ih _ _
  | define name v next ih =>
    exact prints_bind (fun m ↦ List.suffix_refl m.printed) fun _ ↦ ih _

/-! ## Evaluation -/

-- Evaluation with some fuel leaves what was printed.
private structure PrintsAt (n : Nat) : Prop where
  eval : ∀ e, Prints (eval n e)
  evalAll : ∀ es, Prints (evalAll n es)
  call : ∀ f args line, Prints (call n f args line)
  exec : ∀ s, Prints (exec n s)
  repeatWhile : ∀ test body, Prints (repeatWhile n test body)
  execAll : ∀ ss, Prints (execAll n ss)

section Succ

variable {n : Nat}

private theorem prints_eval_succ (ih : PrintsAt n) (e : Expr Binding) :
    Prints (eval (n + 1) e) := by
  cases e with
  | literal t v => exact prints_succeed _
  | grouping t x => exact ih.eval x
  | unary op x => exact prints_bind (ih.eval x) fun v ↦ (applied_unary op v).prints
  | binary x op y =>
    exact prints_bind (ih.eval x) fun v ↦ prints_bind (ih.eval y) fun w ↦
      (applied_binary op v w).prints
  | logical x op y =>
    exact prints_bind (ih.eval x) fun v ↦ prints_ite (prints_succeed v) (ih.eval y)
  | «variable» name b => exact prints_lookup name b
  | assign name b x =>
    exact prints_bind (ih.eval x) fun v ↦ prints_bind (prints_assign name b v) fun _ ↦
      prints_succeed v
  | call f paren args =>
    exact prints_bind (ih.eval f) fun g ↦ prints_bind (ih.evalAll args) fun vs ↦
      prints_located (ih.call g vs paren.line) paren

private theorem prints_evalAll_succ (ih : PrintsAt n) (es : List (Expr Binding)) :
    Prints (evalAll (n + 1) es) := by
  cases es with
  | nil => exact prints_succeed _
  | cons e es =>
    exact prints_bind (ih.eval e) fun v ↦ prints_bind (ih.evalAll es) fun vs ↦ prints_succeed _

private theorem prints_call_succ (ih : PrintsAt n) (f : Value) (args : List Value) (line : Int) :
    Prints (call (n + 1) f args line) := by
  cases f with
  | function f =>
    refine prints_ite (prints_inCall ?_ f.name.lexeme line) (prints_fail _)
    exact prints_bind (prints_newEnv f.env) fun e ↦
      prints_bind (prints_bindParams e f.params args) fun _ ↦
        prints_bind (prints_inEnv (ih.execAll f.body) e) prints_returnValue
  | builtin f =>
    refine prints_ite (prints_inCall ?_ f.name line) (prints_fail _)
    split
    · exact prints_bind (prints_look _) fun _ ↦ prints_serve ih.call _ _ _
    · exact prints_perform f _
  | nil => exact prints_fail _
  | bool b => exact prints_fail _
  | number x => exact prints_fail _
  | text s => exact prints_fail _

private theorem prints_exec_succ (ih : PrintsAt n) (s : Stmt Binding) :
    Prints (exec (n + 1) s) := by
  cases s with
  | expr e => exact prints_bind (ih.eval e) fun _ ↦ prints_succeed _
  | print t e =>
    exact prints_bind (ih.eval e) fun v ↦ prints_bind (prints_print v.display) fun _ ↦
      prints_succeed _
  | var name init =>
    cases init with
    | none => exact prints_bind (prints_define name.lexeme .nil) fun _ ↦ prints_succeed _
    | some e =>
      exact prints_bind (ih.eval e) fun v ↦ prints_bind (prints_define name.lexeme v) fun _ ↦
        prints_succeed _
  | block t body =>
    exact fun m ↦ prints_bind (prints_newEnv m.env) (prints_inEnv (ih.execAll body)) m
  | ifElse t test yes no =>
    refine prints_bind (ih.eval test) fun v ↦ prints_ite (ih.exec yes) ?_
    cases no with
    | none => exact prints_succeed _
    | some no => exact ih.exec no
  | «while» t test body => exact ih.repeatWhile test body
  | function name params body =>
    exact prints_bind (prints_newFunction name params body) fun f ↦
      prints_bind (prints_define name.lexeme f) fun _ ↦ prints_succeed _
  | «return» t result =>
    cases result with
    | none => exact prints_succeed _
    | some e => exact prints_bind (ih.eval e) fun v ↦ prints_succeed _
  | branch t => exact prints_succeed _

private theorem prints_repeatWhile_succ (ih : PrintsAt n) (test : Expr Binding)
    (body : Stmt Binding) : Prints (repeatWhile (n + 1) test body) := by
  refine prints_bind (ih.eval test) fun v ↦ prints_ite ?_ (prints_succeed _)
  refine prints_bind (ih.exec body) fun c ↦ ?_
  cases c with
  | normal => exact ih.repeatWhile test body
  | returned v t => exact prints_succeed _
  | broken t => exact prints_succeed _
  | continued t => exact ih.repeatWhile test body

private theorem prints_execAll_succ (ih : PrintsAt n) (ss : List (Stmt Binding)) :
    Prints (execAll (n + 1) ss) := by
  cases ss with
  | nil => exact prints_succeed _
  | cons s ss =>
    refine prints_bind (ih.exec s) fun c ↦ ?_
    cases c with
    | normal => exact ih.execAll ss
    | returned v t => exact prints_succeed _
    | broken t => exact prints_succeed _
    | continued t => exact prints_succeed _

end Succ

private theorem printsAt (n : Nat) : PrintsAt n := by
  induction n with
  | zero => constructor <;> intros <;> exact prints_fail _
  | succ n ih =>
    exact ⟨prints_eval_succ ih, prints_evalAll_succ ih, prints_call_succ ih, prints_exec_succ ih,
      prints_repeatWhile_succ ih, prints_execAll_succ ih⟩

/-- What was printed before a program remains printed. -/
theorem interpret_printed (n : Nat) (p : Program Binding) (m : Machine) :
    m.printed <:+ (interpret n p m).after.printed := by
  have hall : Prints (interpretAll n p) := by
    induction p with
    | nil => exact prints_succeed ()
    | cons s ss ih =>
      exact prints_bind ((printsAt n).exec s) fun c ↦ prints_bind (prints_endProgram c) fun _ ↦ ih
  exact hall m.atTopLevel

/-- What was printed before an expression remains printed. -/
theorem evaluate_printed (n : Nat) (e : Expr Binding) (m : Machine) :
    m.printed <:+ (evaluate n e m).after.printed := (printsAt n).eval e m.atTopLevel

end Run

namespace Machine

/-- What was printed before a program was given remains printed. -/
theorem runSource_printed (fuel : Nat) (lenient : Bool) (src : Bytes) (m : Machine) :
    m.printed <:+ (m.runSource fuel lenient src).2.printed := by
  unfold runSource
  dsimp only
  split
  · split
    · rw [Outcome.snd_result]
      exact Run.interpret_printed fuel _ m
    · exact List.suffix_refl _
  · exact List.suffix_refl _

/-- What was printed before an expression was given remains printed. -/
theorem evalSource_printed (fuel : Nat) (src : Bytes) (m : Machine) :
    m.printed <:+ (m.evalSource fuel src).2.printed := by
  unfold evalSource
  dsimp only
  split
  · split
    · rw [Outcome.snd_result]
      exact Run.evaluate_printed fuel _ m
    · exact List.suffix_refl _
  · exact List.suffix_refl _

end Machine
end Lox
