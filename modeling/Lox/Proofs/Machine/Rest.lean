import Lox.Proofs.Machine.Agree
import Lox.Session

/-!
# Machines at rest

A host uses a machine in whatever order it likes: it runs and evaluates sources and trees, and calls
values. Each step of the evaluator restores the current environment and the active calls, however it
ends. So between two uses the machine is at rest: the global environment is current, and no call is
active but the top level. The result is `Machine.steps_restore`, which asks nothing of the code, of
the values or of the machine.
-/

namespace Lox

/-- A way in which a host uses a machine. -/
inductive Use where
  | runSource (lenient : Bool) (src : Bytes)
  | evalSource (src : Bytes)
  | interpret (p : Program Binding)
  | evaluate (e : Expr Binding)
  | call (f : Value) (args : List Value) (line : Int)

namespace Machine

/-- The machine that a use leaves, with some fuel, whether the use fails or not. -/
def use (m : Machine) (fuel : Nat) : Use → Machine
  | .runSource lenient src => (m.runSource fuel lenient src).2
  | .evalSource src => (m.evalSource fuel src).2
  | .interpret p => (Run.interpret fuel p m).after
  | .evaluate e => (Run.evaluate fuel e m).after
  | .call f args line => (m.callValue fuel f args line).2

/-- The machine after some uses, one after the other. -/
def afterUses (m : Machine) : List (Nat × Use) → Machine
  | [] => m
  | (fuel, u) :: uses => (m.use fuel u).afterUses uses

/-- The global environment is current, and no call is active but the top level. -/
structure AtRest (m : Machine) : Prop where
  env : m.env = globals
  depth : m.depth ≤ 1

end Machine

/-! ## Single steps -/

namespace Run

/-- Evaluating an expression leaves the environment and the calls that it found. -/
theorem eval_kept (n : Nat) (e : Expr Binding) (m : Machine) : m.Kept (eval n e m).after := by
  have hk := (Traced.orderly_eval n [] e .empty m).machine
  rwa [Traced.eval_erases n [] e .empty m] at hk

/-- Executing a statement leaves the environment and the calls that it found. -/
theorem exec_kept (n : Nat) (s : Stmt Binding) (m : Machine) : m.Kept (exec n s m).after := by
  have hk := (Traced.orderly_exec n [] s .empty m).machine
  rwa [Traced.exec_erases n [] s .empty m] at hk

/-- A call leaves the environment and the calls that it found. -/
theorem call_kept (n : Nat) (f : Value) (args : List Value) (line : Int) (m : Machine) :
    m.Kept (call n f args line m).after := by
  have hk := (Traced.orderly_call n f args line .empty m).machine
  rwa [Traced.call_erases n f args line .empty m] at hk

end Run

/-! ## Uses -/

/-- The machine in the result of a step is the one that the step leaves. -/
theorem Outcome.snd_result {α : Type} (o : Outcome α) : o.result.2 = o.after := by
  cases o <;> rfl

/-- There are as many frames as before, unless there was none and the top level was added. -/
theorem CallStack.Resumed.length {s s' : CallStack} (h : s.Resumed s') :
    s'.length = s.length ∨ s = [] ∧ s'.length = 1 := by
  rcases h with rfl | ⟨line, rfl⟩
  · exact .inl rfl
  · cases s with
    | nil => exact .inr ⟨rfl, rfl⟩
    | cons f rest => exact .inl rfl

namespace Machine

variable {m m' : Machine}

private theorem Kept.atRest (h : m.Kept m') (hm : m.AtRest) : m'.AtRest := by
  refine ⟨h.env.trans hm.env, ?_⟩
  rcases h.stack.length with hs | ⟨-, hs⟩
  · exact hs.trans_le hm.depth
  · exact Nat.le_of_eq hs

/-- A step from top level ends at top level. -/
theorem Kept.ofTopLevel (h : m.atTopLevel.Kept m') : m'.AtRest ∧ m'.depth = 1 := by
  refine ⟨h.atRest ⟨rfl, Nat.le_refl 1⟩, ?_⟩
  rcases h.stack.length with hs | ⟨-, hs⟩
  · exact hs
  · exact hs

private theorem interpret_atRest (n : Nat) (p : Program Binding) (m : Machine) :
    (Run.interpret n p m).after.AtRest ∧ (Run.interpret n p m).after.depth = 1 := by
  obtain ⟨henv, line, hs⟩ := Run.interpret_after n p m
  have hdepth : (Run.interpret n p m).after.depth = 1 := by
    rw [depth, hs, List.length_singleton]
  exact ⟨⟨henv, Nat.le_of_eq hdepth⟩, hdepth⟩

private theorem evaluate_atRest (n : Nat) (e : Expr Binding) (m : Machine) :
    (Run.evaluate n e m).after.AtRest ∧ (Run.evaluate n e m).after.depth = 1 :=
  (Run.eval_kept n e m.atTopLevel).ofTopLevel

/-- A source with static errors leaves the machine as it was, and otherwise its program is run. -/
theorem runSource_atRest (n : Nat) (lenient : Bool) (src : Bytes) (hm : m.AtRest) :
    (m.runSource n lenient src).2.AtRest := by
  unfold runSource
  dsimp only
  split
  · split
    · rw [Outcome.snd_result]
      exact (interpret_atRest n _ m).1
    · exact hm
  · exact hm

private theorem evalSource_atRest (n : Nat) (src : Bytes) (hm : m.AtRest) :
    (m.evalSource n src).2.AtRest := by
  unfold evalSource
  dsimp only
  split
  · split
    · rw [Outcome.snd_result]
      exact (evaluate_atRest n _ m).1
    · exact hm
  · exact hm

/-- One use of a machine at rest leaves it at rest. -/
theorem AtRest.use (hm : m.AtRest) (fuel : Nat) (u : Use) : (m.use fuel u).AtRest := by
  cases u with
  | runSource lenient src => exact runSource_atRest fuel lenient src hm
  | evalSource src => exact evalSource_atRest fuel src hm
  | interpret p => exact (interpret_atRest fuel p m).1
  | evaluate e => exact (evaluate_atRest fuel e m).1
  | call f args line =>
    rw [Machine.use, callValue, Outcome.snd_result]
    exact (Run.call_kept fuel f args line m).atRest hm

private theorem AtRest.afterUses (hm : m.AtRest) (uses : List (Nat × Use)) :
    (m.afterUses uses).AtRest := by
  induction uses generalizing m with
  | nil => exact hm
  | cons entry uses ih => exact ih (hm.use entry.1 entry.2)

/-- However an expression, a statement or a call ends, on whatever machine: the current environment
is the one before, and the active calls are those before but for the line of the innermost one,
where the top level may be added to no calls at all. So a machine is at rest after any uses, and at
top level right after a program or an expression. -/
theorem steps_restore :
    (∀ n e (m : Machine), m.Kept (Run.eval n e m).after) ∧
    (∀ n s (m : Machine), m.Kept (Run.exec n s m).after) ∧
    (∀ n f args line (m : Machine), m.Kept (Run.call n f args line m).after) ∧
    (∀ clock firstId uses, ((start clock firstId).afterUses uses).AtRest) ∧
    (∀ n p m, (Run.interpret n p m).after.depth = 1) ∧
    ∀ n e m, (Run.evaluate n e m).after.depth = 1 := by
  have hstart : ∀ clock firstId, (start clock firstId).AtRest :=
    fun _ _ ↦ ⟨rfl, Nat.zero_le 1⟩
  exact ⟨Run.eval_kept, Run.exec_kept, Run.call_kept,
    fun clock firstId uses ↦ (hstart clock firstId).afterUses uses,
    fun n p m ↦ (interpret_atRest n p m).2, fun n e m ↦ (evaluate_atRest n e m).2⟩

end Machine

/-! ## Runs within calls -/

namespace Run

variable {α : Type} {r : Run α}

-- The frame of the call is the only one that the step leaves, and the call takes it.
private theorem stack_inCall (h : ∀ m, (r m).after.depth = 1) (callee : Bytes) (line : Int)
    (m : Machine) : (inCall callee line r m).after.stack = [] := by
  have hdepth := h { m.setLine line with stack := ⟨some callee, 0⟩ :: (m.setLine line).stack }
  unfold inCall
  dsimp only
  generalize r _ = o at hdepth ⊢
  obtain ⟨f, hstack⟩ := List.length_eq_one_iff.mp hdepth
  cases o <;> simp only [Outcome.after] at hstack <;> simp only [hstack] <;> rfl

private theorem stuck_inCall (h : ∀ m, (r m).after.stack = []) (callee : Bytes) (line : Int)
    (m : Machine) : ∃ m', inCall callee line r m = .failed .stuck m' := by
  have hstack := h { m.setLine line with stack := ⟨some callee, 0⟩ :: (m.setLine line).stack }
  unfold inCall
  dsimp only
  generalize r _ = o at hstack ⊢
  cases o <;> simp only [Outcome.after] at hstack <;> simp only [hstack] <;> exact ⟨_, rfl⟩

/-- A step that leaves no call active but the top level leaves no frame for the second of two calls
around it. -/
theorem stuck_of_depth (h : ∀ m, (r m).after.depth = 1) (outer inner : Bytes) (line line' : Int)
    (m : Machine) : ∃ m', inCall outer line (inCall inner line' r) m = .failed .stuck m' :=
  stuck_inCall (stack_inCall h inner line') outer line m

/-- What a call does of a function of the host that runs a program on the machine that runs it.
There is no procedure that does this. -/
def callToInterpret (n : Nat) (callee : Bytes) (line : Int) (p : Program Binding) : Run Unit :=
  inCall callee line (interpret n p)

/-- What a call does of a function of the host that evaluates an expression on the machine that runs
it. There is no procedure that does this. -/
def callToEvaluate (n : Nat) (callee : Bytes) (line : Int) (e : Expr Binding) : Run Value :=
  inCall callee line (evaluate n e)

/-- A program or an expression starts at top level, and then no frame is left for a call around the
call that runs it, whatever it does. -/
theorem calls_to_run_stuck :
    (∀ n p outer callee line line' m, ∃ m',
      inCall outer line (callToInterpret n callee line' p) m = .failed .stuck m') ∧
    ∀ n e outer callee line line' m, ∃ m',
      inCall outer line (callToEvaluate n callee line' e) m = .failed .stuck m' :=
  ⟨fun n p ↦ stuck_of_depth fun m ↦ (Machine.interpret_atRest n p m).2,
    fun n e ↦ stuck_of_depth fun m ↦ (Machine.evaluate_atRest n e m).2⟩

end Run
end Lox
