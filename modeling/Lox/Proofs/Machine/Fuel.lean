import Lox.Proofs.Machine.Rest

/-!
# Fuel

The bound on the number of steps decides only whether evaluation comes to an end. With a larger
bound it comes to the same end (`Run.eval_within` and the theorems after it). What code does can so
be said without a bound: it ends in some way if it does so with some fuel (`Run.Ends`).
-/

namespace Lox

/-- The bound on the number of steps was reached. -/
def Outcome.RanOut {α : Type} (o : Outcome α) : Prop := ∃ m, o = .failed .outOfFuel m

/-- Whether a step yielded a value. -/
def Outcome.isDone {α : Type} : Outcome α → Bool
  | .done _ _ => true
  | .failed _ _ => false

namespace Run

variable {α β : Type}

private theorem execAll_orderly (n : Nat) (ss : List (Stmt Binding)) : Orderly (execAll n ss) := by
  intro m
  have hk := (Traced.orderly_execAll n [] ss .empty m).machine
  rwa [Traced.execAll_erases n [] ss .empty m] at hk

private theorem start_orderly (n : Nat) (f : Builtin) (p : Procedure.Occasion → Procedure)
    (args : List Value) : Orderly (start id attempt (call n) f p args) := by
  intro m
  have hk := (Traced.orderly_start (Traced.orderly_call n) f p args .empty m).machine
  rwa [Traced.erases_start (Traced.call_erases n) f p args .empty m] at hk

/-- One step ends as another does, unless it runs out of fuel. -/
def Within (r r' : Run α) : Prop := ∀ m, (r m).RanOut ∨ r' m = r m

/-- A step is within itself. -/
theorem Within.refl (r : Run α) : Within r r := fun _ ↦ .inr rfl

/-- Being within another step is transitive. -/
theorem Within.trans {r r' r'' : Run α} (h : Within r r') (h' : Within r' r'') : Within r r'' := by
  intro m
  rcases h m with hout | heq
  · exact .inl hout
  · rw [← heq]
    exact h' m

/-- A step that always runs out of fuel is within every other one. -/
theorem within_outOfFuel (r : Run α) : Within (fail .outOfFuel) r := fun m ↦ .inl ⟨m, rfl⟩

/-- Steps that go on are within each other if both their parts are. -/
theorem within_bind {r r' : Run α} {f f' : α → Run β} (h : Within r r')
    (hf : ∀ a, Within (f a) (f' a)) : Within (r >>= f) (r' >>= f') := by
  intro m
  change (andThen r f m).RanOut ∨ andThen r' f' m = andThen r f m
  unfold andThen
  rcases h m with ⟨m', hout⟩ | heq
  · rw [hout]
    exact .inl ⟨m', rfl⟩
  · rw [heq]
    cases r m with
    | done a m' => exact hf a m'
    | failed e m' => exact .inr rfl

/-- A choice is within another one if both its sides are. -/
theorem within_ite {r r' s s' : Run α} {p : Prop} [Decidable p] (h : Within r r')
    (h' : Within s s') : Within (if p then r else s) (if p then r' else s') := by
  split
  · exact h
  · exact h'

/-- In another environment, a step that is within another one still is. -/
theorem within_inEnv {r r' : Run α} (h : Within r r') (e : EnvId) :
    Within (inEnv e r) (inEnv e r') := by
  intro m
  unfold inEnv
  rcases h { m with env := e } with ⟨m', hout⟩ | heq
  · rw [hout]
    exact .inl ⟨_, rfl⟩
  · rw [heq]
    exact .inr rfl

/-- A call that runs out of fuel still has its frame to leave. -/
theorem within_inCall {r r' : Run α} (h : Within r r') (hr : Orderly r) (callee : Bytes)
    (line : Int) : Within (inCall callee line r) (inCall callee line r') := by
  intro m
  have hkept := hr { m.setLine line with stack := ⟨some callee, 0⟩ :: (m.setLine line).stack }
  unfold inCall
  dsimp only
  rcases h { m.setLine line with stack := ⟨some callee, 0⟩ :: (m.setLine line).stack } with
    ⟨m', hout⟩ | heq
  · rw [hout] at hkept
    obtain ⟨f, hstack⟩ := hkept.stack.of_cons
    rw [Outcome.after_failed] at hstack
    refine .inl ⟨{ m' with stack := (m.setLine line).stack }, ?_⟩
    simp only [hout, hstack]
  · rw [heq]
    exact .inr rfl

private theorem within_located {r r' : Run Value} (h : Within r r') (paren : Token) :
    Within (located paren r) (located paren r') := by
  intro m
  unfold located
  rcases h m with ⟨m', hout⟩ | heq
  · rw [hout]
    exact .inl ⟨m', rfl⟩
  · rw [heq]
    exact .inr rfl

private theorem within_attempt {r r' : Run α} (h : Within r r') :
    Within (attempt r) (attempt r') := by
  intro m
  unfold attempt
  rcases h m with ⟨m', hout⟩ | heq
  · rw [hout]
    exact .inl ⟨m', rfl⟩
  · rw [heq]
    exact .inr rfl

/-- A procedure ends as it does with other calls, unless one of its own runs out of fuel. -/
theorem within_serve {call call' : Value → List Value → Int → Run Value}
    (hcall : ∀ f args line, Within (call f args line) (call' f args line)) (callee : Bytes)
    (p : Procedure) (d : Procedure.Hand) :
    Within (serve id attempt call callee p d) (serve id attempt call' callee p d) := by
  induction p generalizing d with
  | yield v => exact .refl _
  | fail message => exact .refl _
  | rethrow i => exact .refl _
  | call f args line next ih =>
    exact within_bind (within_attempt (hcall _ _ line)) fun result ↦ ih _ _
  | read name next ih => exact within_bind (.refl _) fun v ↦ ih _ _
  | define name v next ih => exact within_bind (.refl _) fun _ ↦ ih _

/-! ## More fuel -/

-- Evaluation with some fuel, and with some more.
private structure WithinAt (n n' : Nat) : Prop where
  eval : ∀ e, Within (eval n e) (eval n' e)
  evalAll : ∀ es, Within (evalAll n es) (evalAll n' es)
  call : ∀ f args line, Within (call n f args line) (call n' f args line)
  exec : ∀ s, Within (exec n s) (exec n' s)
  repeatWhile : ∀ test body, Within (repeatWhile n test body) (repeatWhile n' test body)
  execAll : ∀ ss, Within (execAll n ss) (execAll n' ss)

section Succ

variable {n n' : Nat}

private theorem within_eval_succ (ih : WithinAt n n') (e : Expr Binding) :
    Within (eval (n + 1) e) (eval (n' + 1) e) := by
  cases e with
  | literal t v => exact .refl _
  | grouping t x => exact ih.eval x
  | unary op x => exact within_bind (ih.eval x) fun v ↦ .refl _
  | binary x op y =>
    exact within_bind (ih.eval x) fun v ↦ within_bind (ih.eval y) fun w ↦ .refl _
  | logical x op y =>
    exact within_bind (ih.eval x) fun v ↦ within_ite (.refl _) (ih.eval y)
  | «variable» name b => exact .refl _
  | assign name b x => exact within_bind (ih.eval x) fun v ↦ .refl _
  | call f paren args =>
    exact within_bind (ih.eval f) fun g ↦ within_bind (ih.evalAll args) fun vs ↦
      within_located (ih.call g vs paren.line) paren

private theorem within_call_succ (ih : WithinAt n n') (f : Value) (args : List Value) (line : Int) :
    Within (call (n + 1) f args line) (call (n' + 1) f args line) := by
  cases f with
  | function f =>
    refine within_ite (within_inCall ?_ ?_ f.name.lexeme line) (.refl _)
    · exact within_bind (.refl _) fun e ↦ within_bind (.refl _) fun _ ↦
        within_bind (within_inEnv (ih.execAll f.body) e) fun c ↦ .refl _
    · exact orderly_andThen (orderly_newEnv f.env) fun e ↦
        orderly_andThen (orderly_bindParams e f.params args) fun _ ↦
          orderly_andThen (fun m ↦ inEnv_kept (execAll_orderly n f.body _)) orderly_returnValue
  | builtin f =>
    refine within_ite (within_inCall ?_ ?_ f.name line) (.refl _)
    · split
      · exact within_bind (.refl _) fun _ ↦ within_serve ih.call _ _ _
      · exact .refl _
    · split
      · exact start_orderly n f _ _
      · exact orderly_perform f _
  | nil => exact .refl _
  | bool b => exact .refl _
  | number x => exact .refl _
  | text s => exact .refl _

private theorem within_exec_succ (ih : WithinAt n n') (s : Stmt Binding) :
    Within (exec (n + 1) s) (exec (n' + 1) s) := by
  cases s with
  | expr e => exact within_bind (ih.eval e) fun _ ↦ .refl _
  | print t e => exact within_bind (ih.eval e) fun v ↦ .refl _
  | var name init =>
    cases init with
    | none => exact .refl _
    | some e => exact within_bind (ih.eval e) fun v ↦ .refl _
  | block t body =>
    exact fun m ↦ within_bind (.refl _) (fun e ↦ within_inEnv (ih.execAll body) e) m
  | ifElse t test yes no =>
    refine within_bind (ih.eval test) fun v ↦ within_ite (ih.exec yes) ?_
    cases no with
    | none => exact .refl _
    | some no => exact ih.exec no
  | «while» t test body => exact ih.repeatWhile test body
  | function name params body => exact .refl _
  | «return» t result =>
    cases result with
    | none => exact .refl _
    | some e => exact within_bind (ih.eval e) fun v ↦ .refl _
  | branch t => exact .refl _

private theorem within_repeatWhile_succ (ih : WithinAt n n') (test : Expr Binding)
    (body : Stmt Binding) :
    Within (repeatWhile (n + 1) test body) (repeatWhile (n' + 1) test body) := by
  refine within_bind (ih.eval test) fun v ↦ within_ite ?_ (.refl _)
  refine within_bind (ih.exec body) fun c ↦ ?_
  cases c with
  | normal => exact ih.repeatWhile test body
  | returned v t => exact .refl _
  | broken t => exact .refl _
  | continued t => exact ih.repeatWhile test body

private theorem within_execAll_succ (ih : WithinAt n n') (ss : List (Stmt Binding)) :
    Within (execAll (n + 1) ss) (execAll (n' + 1) ss) := by
  cases ss with
  | nil => exact .refl _
  | cons s ss =>
    refine within_bind (ih.exec s) fun c ↦ ?_
    cases c with
    | normal => exact ih.execAll ss
    | returned v t => exact .refl _
    | broken t => exact .refl _
    | continued t => exact .refl _

end Succ

private theorem withinAt (n d : Nat) : WithinAt n (n + d) := by
  induction n with
  | zero => constructor <;> intros <;> exact within_outOfFuel _
  | succ n ih =>
    rw [Nat.add_right_comm]
    refine ⟨within_eval_succ ih, fun es ↦ ?_, within_call_succ ih, within_exec_succ ih,
      within_repeatWhile_succ ih, within_execAll_succ ih⟩
    cases es with
    | nil => exact .refl _
    | cons e es =>
      exact within_bind (ih.eval e) fun v ↦ within_bind (ih.evalAll es) fun vs ↦ .refl _

/-- More fuel does not change what an expression comes to. -/
theorem eval_within {n n' : Nat} (h : n ≤ n') (e : Expr Binding) :
    Within (eval n e) (eval n' e) := by
  obtain ⟨d, rfl⟩ := Nat.exists_eq_add_of_le h
  exact (withinAt n d).eval e

/-- More fuel does not change what a statement comes to. -/
theorem exec_within {n n' : Nat} (h : n ≤ n') (s : Stmt Binding) :
    Within (exec n s) (exec n' s) := by
  obtain ⟨d, rfl⟩ := Nat.exists_eq_add_of_le h
  exact (withinAt n d).exec s

/-! ## Without fuel -/

/-- With some fuel, a step comes to an end, and it is this one. -/
def Ends (r : Nat → Run α) (m : Machine) (o : Outcome α) : Prop := ¬ o.RanOut ∧ ∃ n, r n m = o

/-- What a step comes to with some fuel, without a failure, is its end. -/
theorem ends_of_isDone {r : Nat → Run α} {n : Nat} {m : Machine} (h : (r n m).isDone) :
    Ends r m (r n m) := by
  refine ⟨?_, n, rfl⟩
  rintro ⟨m', hout⟩
  rw [hout] at h
  cases h

/-- A step that is within another one with other fuel ends as that one does. -/
theorem Ends.mono {r r' : Nat → Run α} (h : ∀ n, ∃ n', Within (r n) (r' n')) {m : Machine}
    {o : Outcome α} (ho : Ends r m o) : Ends r' m o := by
  obtain ⟨hout, n, rfl⟩ := ho
  obtain ⟨n', hwithin⟩ := h n
  rcases hwithin m with hran | heq
  · exact absurd hran hout
  · exact ⟨hout, n', heq⟩

end Run
end Lox
