import Lox.Proofs.Heap
import Lox.Proofs.Machine.Operators
import Lox.Proofs.Machine.Trace

/-!
# What every step keeps

However a step on a machine ends, it leaves the current environment and the active calls as they
were, but for the line of the innermost call, and it leaves a later machine: the heap is a later
heap, and identities of functions are not given out twice. This holds of every expression,
statement and call, on every machine, and asks nothing of the code.
-/

namespace Lox

/-- The stack with another line in its innermost frame, which is the top level if there was none. -/
def CallStack.withLine (s : CallStack) (line : Int) : CallStack :=
  match s with
  | [] => [⟨none, line⟩]
  | f :: rest => { f with line } :: rest

/-- The stack is as it was, but for the line of its innermost frame. -/
def CallStack.Resumed (s s' : CallStack) : Prop := s' = s ∨ ∃ line, s' = s.withLine line

namespace CallStack

/-- Of two lines that are set, the last one counts. -/
@[simp] theorem withLine_withLine (s : CallStack) (l l' : Int) :
    (s.withLine l).withLine l' = s.withLine l' := by
  cases s <;> rfl

private theorem Resumed.refl (s : CallStack) : s.Resumed s := .inl rfl

private theorem Resumed.withLine (s : CallStack) (line : Int) : s.Resumed (s.withLine line) :=
  .inr ⟨line, rfl⟩

private theorem Resumed.trans {s₁ s₂ s₃ : CallStack} (h : s₁.Resumed s₂) (h' : s₂.Resumed s₃) :
    s₁.Resumed s₃ := by
  rcases h with rfl | ⟨l, rfl⟩
  · exact h'
  · rcases h' with rfl | ⟨l', rfl⟩
    · exact .inr ⟨l, rfl⟩
    · exact .inr ⟨l', withLine_withLine s₁ l l'⟩

/-- Ending a call that was made on a stack leaves this stack. -/
theorem Resumed.of_cons {f : Frame} {s s' : CallStack} (h : Resumed (f :: s) s') :
    ∃ f', s' = f' :: s := by
  rcases h with rfl | ⟨l, rfl⟩
  · exact ⟨f, rfl⟩
  · exact ⟨_, rfl⟩

end CallStack

namespace Machine

/-- The line is set in the innermost frame. -/
@[simp] theorem stack_setLine (m : Machine) (line : Int) :
    (m.setLine line).stack = m.stack.withLine line := by
  unfold setLine CallStack.withLine
  cases m.stack <;> rfl

/-- Setting a line leaves the heap. -/
@[simp] theorem heap_setLine (m : Machine) (line : Int) : (m.setLine line).heap = m.heap := rfl

/-- Setting a line leaves the current environment. -/
@[simp] theorem env_setLine (m : Machine) (line : Int) : (m.setLine line).env = m.env := rfl

/-- Setting a line makes no function. -/
@[simp] theorem nextFunction_setLine (m : Machine) (line : Int) :
    (m.setLine line).nextFunction = m.nextFunction := rfl

/-- All that a machine holds at the start is the clock. -/
theorem lookup_start (clock : Option Int) (firstId : Nat) (e : EnvId) (x : Bytes) :
    (start clock firstId).heap.lookup e x =
      if e = globals ∧ x = clockFunction.name then some (.builtin clockFunction) else none := by
  cases e with
  | zero =>
    by_cases hx : x = clockFunction.name
    · simp [start, Heap.lookup, globals, predeclared, hx]
    · have hb : (x == clockFunction.name) = false := beq_eq_false_iff_ne.mpr hx
      simp [start, Heap.lookup, globals, predeclared, List.lookup_cons, hx, hb]
  | succ e => simp [start, Heap.lookup, globals]

/-- A machine at a later time. -/
structure Later (m m' : Machine) : Prop where
  heap : m.heap.Later m'.heap
  /-- Identities of functions are given out in order. -/
  functions : m.nextFunction ≤ m'.nextFunction

/-- A machine is as late as itself. -/
theorem Later.refl (m : Machine) : m.Later m := ⟨Heap.Later.refl _, Nat.le_refl _⟩

private theorem Later.trans {m₁ m₂ m₃ : Machine} (h : m₁.Later m₂) (h' : m₂.Later m₃) :
    m₁.Later m₃ :=
  ⟨h.heap.trans h'.heap, Nat.le_trans h.functions h'.functions⟩

/-- Only the heap and the identities of functions matter to the order. -/
theorem Later.of_eq {m m' : Machine} (hh : m'.heap = m.heap)
    (hf : m'.nextFunction = m.nextFunction) : m.Later m' := by
  constructor
  · rw [hh]
    exact Heap.Later.refl _
  · exact Nat.le_of_eq hf.symm

end Machine

/-- The machine that a step leaves. -/
def Outcome.after {α : Type} : Outcome α → Machine
  | .done _ m => m
  | .failed _ m => m

/-- A step that comes to its end leaves the machine at its end. -/
@[simp] theorem Outcome.after_done {α : Type} (a : α) (m : Machine) :
    (Outcome.done a m).after = m := rfl

/-- A step that fails leaves the machine at its failure. -/
@[simp] theorem Outcome.after_failed {α : Type} (f : Fault) (m : Machine) :
    (Outcome.failed f m : Outcome α).after = m := rfl

/-- A machine that a step may leave behind on the machine `m`. -/
structure Machine.Kept (m m' : Machine) : Prop where
  later : m.Later m'
  env : m'.env = m.env
  stack : m.stack.Resumed m'.stack

namespace Machine.Kept

private theorem refl (m : Machine) : m.Kept m := ⟨.refl m, rfl, .refl _⟩

private theorem trans {m₁ m₂ m₃ : Machine} (h : m₁.Kept m₂) (h' : m₂.Kept m₃) : m₁.Kept m₃ :=
  ⟨h.later.trans h'.later, h'.env.trans h.env, h.stack.trans h'.stack⟩

private theorem setLine (m : Machine) (line : Int) : m.Kept (m.setLine line) where
  later := .of_eq rfl rfl
  env := rfl
  stack := by
    rw [stack_setLine]
    exact .withLine _ _

end Machine.Kept

/-! ## Variables -/

namespace Run

/-- A global variable is looked up by its name. -/
theorem lookup_global (name : Token) (m : Machine) :
    lookup name .global m =
      match m.heap.lookup Machine.globals name.lexeme with
      | some v => .done v m
      | none => raise name (.undefinedVariable name.lexeme) m := by
  simp only [lookup, Machine.globals, Heap.get?_zero]
  cases m.heap.lookup 0 name.lexeme <;> rfl

/-- A local variable is looked up in the environment a number of steps outwards. -/
theorem lookup_scope (name : Token) (d : Nat) (m : Machine) :
    lookup name (.scope d) m =
      match m.heap.ancestor? d m.env with
      | none => .failed .stuck m
      | some e =>
        match m.heap.lookup e name.lexeme with
        | some v => .done v m
        | none => raise name (.undefinedVariable name.lexeme) m := by
  simp only [lookup]
  cases m.heap.ancestor? d m.env with
  | none => rfl
  | some e =>
    simp only [Option.map_some]
    cases m.heap.lookup e name.lexeme <;> rfl

/-- A global variable is assigned to if it exists. -/
theorem assign_global (name : Token) (v : Value) (m : Machine) :
    assign name .global v m =
      if (m.heap.lookup Machine.globals name.lexeme).isSome then
        .done () { m with heap := m.heap.define Machine.globals name.lexeme v }
      else raise name (.undefinedVariable name.lexeme) m := by
  by_cases h : (m.heap.lookup 0 name.lexeme).isSome
  · simp only [assign, Machine.globals, Heap.owner?_zero, h, if_true]
  · simp only [assign, Machine.globals, Heap.owner?_zero, h, if_false, Bool.false_eq_true]

/-- A local variable is assigned to in the environment a number of steps outwards. -/
theorem assign_scope (name : Token) (d : Nat) (v : Value) (m : Machine) :
    assign name (.scope d) v m =
      match m.heap.ancestor? d m.env with
      | none => .failed .stuck m
      | some e => .done () { m with heap := m.heap.define e name.lexeme v } := rfl

/-- What looking up a variable does on a machine. -/
inductive Looked (name : Token) (m : Machine) : Outcome Value → Prop where
  | found {e : EnvId} {v : Value} (h : m.heap.lookup e name.lexeme = some v) :
    Looked name m (.done v m)
  | undefined : Looked name m (raise name (.undefinedVariable name.lexeme) m)
  | stuck : Looked name m (.failed .stuck m)

/-- A lookup does one of these things. -/
theorem looked (name : Token) (b : Binding) (m : Machine) : Looked name m (lookup name b m) := by
  cases b with
  | global =>
    rw [lookup_global]
    cases hv : m.heap.lookup Machine.globals name.lexeme with
    | none => exact .undefined
    | some v => exact .found hv
  | scope d =>
    rw [lookup_scope]
    cases m.heap.ancestor? d m.env with
    | none => exact .stuck
    | some e =>
      dsimp only
      cases hv : m.heap.lookup e name.lexeme with
      | none => exact .undefined
      | some v => exact .found hv

/-- What assigning to a variable does on a machine. -/
inductive Assigned (name : Token) (v : Value) (m : Machine) : Outcome Unit → Prop where
  | defined (e : EnvId) :
    Assigned name v m (.done () { m with heap := m.heap.define e name.lexeme v })
  | undefined : Assigned name v m (raise name (.undefinedVariable name.lexeme) m)
  | stuck : Assigned name v m (.failed .stuck m)

/-- An assignment does one of these things. -/
theorem assigned (name : Token) (b : Binding) (v : Value) (m : Machine) :
    Assigned name v m (assign name b v m) := by
  cases b with
  | global =>
    rw [assign_global]
    split
    · exact .defined _
    · exact .undefined
  | scope d =>
    rw [assign_scope]
    cases m.heap.ancestor? d m.env with
    | none => exact .stuck
    | some e => exact .defined e

end Run

/-! ## Steps that keep order -/

/-- A step that leaves the machine as it was, apart from what is added to it. -/
def Run.Orderly {α : Type} (r : Run α) : Prop := ∀ m : Machine, m.Kept (r m).after

namespace Run

variable {α : Type}

private theorem orderly_succeed (a : α) : Orderly (succeed a) := fun m ↦ .refl m

private theorem orderly_fail (f : Fault) : Orderly (fail f : Run α) := fun m ↦ .refl m

private theorem orderly_raise (t : Token) (cause : RuntimeError.Cause) :
    Orderly (raise t cause : Run α) := fun m ↦ .setLine m t.line

private theorem orderly_look (f : Machine → α) : Orderly (look f) := fun m ↦ .refl m

/-- Printing is orderly. -/
theorem orderly_print (text : Bytes) : Orderly (print text) := fun _ ↦
  ⟨.of_eq rfl rfl, rfl, .refl _⟩

private theorem kept_define (m : Machine) (e : EnvId) (x : Bytes) (v : Value) :
    m.Kept { m with heap := m.heap.define e x v } :=
  ⟨⟨.define _ _ _ _, Nat.le_refl _⟩, rfl, .refl _⟩

/-- Defining a variable is orderly. -/
theorem orderly_define (x : Bytes) (v : Value) : Orderly (define x v) := fun m ↦
  kept_define m m.env x v

/-- Defining a global variable is orderly. -/
theorem orderly_defineGlobal (x : Bytes) (v : Value) :
    Orderly (change fun m ↦ { m with heap := m.heap.define Machine.globals x v }) := fun m ↦
  kept_define m Machine.globals x v

/-- Making an environment is orderly. -/
theorem orderly_newEnv (e : EnvId) : Orderly (newEnv e) := fun _ ↦
  ⟨⟨.push _ _, Nat.le_refl _⟩, rfl, .refl _⟩

private theorem orderly_newFunction (name : Token) (params : List Token) (body : Program Binding) :
    Orderly (newFunction name params body) := fun _ ↦
  ⟨⟨.refl _, Nat.le_succ _⟩, rfl, .refl _⟩

/-- Orderly steps one after the other are orderly. -/
theorem orderly_andThen {β : Type} {r : Run α} {f : α → Run β} (h : Orderly r)
    (hf : ∀ a, Orderly (f a)) : Orderly (r >>= f) := by
  intro m
  have hr := h m
  change m.Kept (andThen r f m).after
  unfold andThen
  cases ho : r m with
  | done a m' =>
    rw [ho] at hr
    exact hr.trans (hf a m')
  | failed e m' =>
    rw [ho] at hr
    exact hr

/-- Binding parameters is orderly. -/
theorem orderly_bindParams (e : EnvId) (ps : List Token) (vs : List Value) :
    Orderly (bindParams e ps vs) := by
  induction ps generalizing vs with
  | nil => exact orderly_succeed ()
  | cons p ps ih =>
    cases vs with
    | nil => exact orderly_fail _
    | cons v vs =>
      apply orderly_andThen _ fun _ ↦ ih vs
      exact fun m ↦ kept_define m e p.lexeme v

/-- Looking up a variable is orderly. -/
theorem orderly_lookup (name : Token) (b : Binding) : Orderly (lookup name b) := by
  intro m
  have hl := looked name b m
  generalize lookup name b m = o at hl
  cases hl with
  | found => exact .refl m
  | undefined => exact orderly_raise name _ m
  | stuck => exact .refl m

/-- Assigning to a variable is orderly. -/
theorem orderly_assign (name : Token) (b : Binding) (v : Value) : Orderly (assign name b v) := by
  intro m
  have ha := assigned name b v m
  generalize assign name b v m = o at ha
  cases ha with
  | defined e => exact kept_define m e name.lexeme v
  | undefined => exact orderly_raise name _ m
  | stuck => exact .refl m

/-- Applying an operator is orderly. -/
theorem Applied.orderly {kinds : List Kind} {op : Token} {r : Run Value} (h : Applied kinds op r) :
    Orderly r := by
  cases h with
  | data => exact orderly_succeed _
  | raised => exact orderly_raise op _
  | stuck => exact orderly_fail _

/-- What a function of the host does is orderly. -/
theorem orderly_perform (f : Builtin) (args : List Value) : Orderly (perform f args) := by
  intro m
  have hp := performed f args m
  generalize perform f args m = o at hp
  cases hp <;> exact .refl m

/-- Taking the value that a body returns is orderly. -/
theorem orderly_returnValue (completion : Completion) : Orderly (returnValue completion) := by
  cases completion with
  | normal => exact orderly_succeed _
  | returned v t => exact orderly_succeed v
  | broken t => exact orderly_raise t _
  | continued t => exact orderly_raise t _

/-- Checking how a statement of a program ends is orderly. -/
theorem orderly_endProgram (completion : Completion) : Orderly (endProgram completion) := by
  cases completion with
  | normal => exact orderly_succeed _
  | returned v t => exact orderly_raise t _
  | broken t => exact orderly_raise t _
  | continued t => exact orderly_raise t _

/-- Working in another environment ends in the current one. -/
theorem inEnv_kept {r : Run α} {e : EnvId} {m : Machine}
    (h : Machine.Kept { m with env := e } (r { m with env := e }).after) :
    m.Kept (inEnv e r m).after := by
  unfold inEnv
  cases ho : r { m with env := e } with
  | done a m' =>
    rw [ho] at h
    exact ⟨⟨h.later.heap, h.later.functions⟩, rfl, h.stack⟩
  | failed f m' =>
    rw [ho] at h
    exact ⟨⟨h.later.heap, h.later.functions⟩, rfl, h.stack⟩

/-- A call ends on the stack that it was made on. -/
theorem inCall_kept {r : Run α} {callee : Bytes} {line : Int} {m : Machine}
    (h : Machine.Kept { m.setLine line with stack := ⟨some callee, 0⟩ :: (m.setLine line).stack }
      (r { m.setLine line with stack := ⟨some callee, 0⟩ :: (m.setLine line).stack }).after) :
    m.Kept (inCall callee line r m).after := by
  unfold inCall
  dsimp only
  cases ho : r { m.setLine line with stack := ⟨some callee, 0⟩ :: (m.setLine line).stack } with
  | done a m' =>
    rw [ho] at h
    obtain ⟨f', hs⟩ := h.stack.of_cons
    simp only [Outcome.after_done] at hs
    simp only [hs, Outcome.after_done]
    refine ⟨⟨h.later.heap, h.later.functions⟩, h.env, ?_⟩
    rw [Machine.stack_setLine]
    exact .withLine _ _
  | failed f m' =>
    rw [ho] at h
    obtain ⟨f', hs⟩ := h.stack.of_cons
    simp only [Outcome.after_failed] at hs
    simp only [hs, Outcome.after_failed]
    refine ⟨⟨h.later.heap, h.later.functions⟩, h.env, ?_⟩
    rw [Machine.stack_setLine]
    exact .withLine _ _

private theorem attempt_kept {r : Run α} {m : Machine} (h : m.Kept (r m).after) :
    m.Kept (attempt r m).after := by
  unfold attempt
  cases ho : r m with
  | done a m' =>
    rw [ho] at h
    exact h
  | failed e m' =>
    rw [ho] at h
    dsimp only
    split <;> exact h

private theorem located_kept {r : Run Value} {paren : Token} {m : Machine}
    (h : m.Kept (r m).after) : m.Kept (located paren r m).after := by
  unfold located
  split
  · next e m' ho =>
    rw [ho] at h
    exact h.trans (.setLine m' paren.line)
  · exact h

end Run

/-! ## Evaluation keeps order -/

/-- What a step with a record leaves behind: a machine that is as it was, apart from what is added
to it, and a record that is added to. -/
structure Traced.Kept {α : Type} (t : Trace) (m : Machine) (o : Outcome α × Trace) : Prop where
  machine : m.Kept o.1.after
  /-- The contexts of the functions that exist stay the same. -/
  contexts : ∀ id < m.nextFunction, o.2.contextOf id = t.contextOf id
  points : ∀ p ∈ t.points, p ∈ o.2.points

/-- A step with a record that leaves the machine and the record as they were, apart from what is
added to them. -/
def Traced.Orderly {α : Type} (r : Traced α) : Prop := ∀ t m, Traced.Kept t m (r t m)

namespace Traced

variable {α β : Type}

/-- A step that records nothing is orderly with a record if it is without one. -/
theorem orderly_lift {r : Run α} (h : Run.Orderly r) : Orderly (lift r) :=
  fun _ m ↦ ⟨h m, fun _ _ ↦ rfl, fun _ hp ↦ hp⟩

/-- Doing nothing is orderly. -/
theorem orderly_pure (a : α) : Orderly (pure a) := orderly_lift (Run.orderly_succeed a)

/-- Orderly steps one after the other are orderly. -/
theorem orderly_bind {r : Traced α} {f : α → Traced β} (h : Orderly r)
    (hf : ∀ a, Orderly (f a)) : Orderly (r >>= f) := by
  intro t m
  have hr := h t m
  change Kept t m (andThen r f t m)
  unfold andThen
  rcases ho : r t m with ⟨o, t'⟩
  rw [ho] at hr
  cases o with
  | done a m' =>
    have hfa := hf a t' m'
    refine ⟨hr.machine.trans hfa.machine, fun id hid ↦ ?_, fun p hp ↦ hfa.points p (hr.points p hp)⟩
    have hid' : id < m'.nextFunction := Nat.lt_of_lt_of_le hid hr.machine.later.functions
    exact (hfa.contexts id hid').trans (hr.contexts id hid)
  | failed e m' => exact ⟨hr.machine, hr.contexts, hr.points⟩

private theorem orderly_visit (c : Context) (e : Expr Binding) : Orderly (visit c e) :=
  fun _ m ↦ ⟨.refl m, fun _ _ ↦ rfl, fun _ hp ↦ List.mem_cons_of_mem _ hp⟩

/-- The context that was added last is found first. -/
theorem contextOf_cons (t : Trace) (id id' : Nat) (c : Context) :
    Trace.contextOf { t with contexts := (id', c) :: t.contexts } id =
      if id = id' then c else t.contextOf id := by
  by_cases h : id = id'
  · simp [Trace.contextOf, h]
  · have hb : (id == id') = false := beq_eq_false_iff_ne.mpr h
    simp [Trace.contextOf, List.lookup_cons, h, hb]

/-- Making a function is orderly: its context is added to those of older functions. -/
theorem orderly_newFunction (c : Context) (name : Token) (params : List Token)
    (body : Program Binding) : Orderly (newFunction c name params body) := by
  intro t m
  refine ⟨Run.orderly_newFunction name params body m, fun id hid ↦ ?_, fun _ hp ↦ hp⟩
  change Trace.contextOf { t with contexts := (m.nextFunction, c) :: t.contexts } id = _
  rw [contextOf_cons, if_neg (Nat.ne_of_lt hid)]

private theorem orderly_contextOf (f : Closure) : Orderly (contextOf f) :=
  fun _ m ↦ ⟨.refl m, fun _ _ ↦ rfl, fun _ hp ↦ hp⟩

/-- In another environment, an orderly step is orderly: the current one is restored. -/
theorem orderly_inEnv {r : Traced α} (e : EnvId) (h : Orderly r) : Orderly (inEnv e r) := by
  intro t m
  have hr := h t { m with env := e }
  exact ⟨Run.inEnv_kept (r := fun m' ↦ (r t m').1) hr.machine, hr.contexts, hr.points⟩

private theorem orderly_inCall {r : Traced α} (callee : Bytes) (line : Int) (h : Orderly r) :
    Orderly (inCall callee line r) := by
  intro t m
  have hr := h t { m.setLine line with stack := ⟨some callee, 0⟩ :: (m.setLine line).stack }
  exact ⟨Run.inCall_kept (r := fun m' ↦ (r t m').1) hr.machine, hr.contexts, hr.points⟩

/-- Placing an error is orderly. -/
theorem orderly_located {r : Traced Value} (paren : Token) (h : Orderly r) :
    Orderly (located paren r) := by
  intro t m
  have hr := h t m
  exact ⟨Run.located_kept (r := fun m' ↦ (r t m').1) hr.machine, hr.contexts, hr.points⟩

/-- Yielding an error, and not failing with it, is orderly. -/
theorem orderly_attempt {r : Traced α} (h : Orderly r) : Orderly (attempt r) := by
  intro t m
  have hr := h t m
  exact ⟨Run.attempt_kept (r := fun m' ↦ (r t m').1) hr.machine, hr.contexts, hr.points⟩

/-- A choice of orderly steps is orderly. -/
theorem orderly_ite {r r' : Traced α} {p : Prop} [Decidable p] (h : Orderly r)
    (h' : Orderly r') : Orderly (if p then r else r') := by
  split
  · exact h
  · exact h'

/-- A procedure keeps order if its calls do. -/
theorem orderly_serve {call : Value → List Value → Int → Traced Value}
    (hcall : ∀ f args line, Orderly (call f args line)) (callee : Bytes) (p : Procedure)
    (d : Procedure.Hand) : Orderly (Run.serve lift attempt call callee p d) := by
  induction p generalizing d with
  | yield v => exact orderly_pure _
  | fail message => exact orderly_lift (Run.orderly_fail _)
  | rethrow i => exact orderly_lift (Run.orderly_fail _)
  | call f args line next ih =>
    exact orderly_bind (orderly_attempt (hcall _ _ line)) fun result ↦ ih _ _
  | read name next ih => exact orderly_bind (orderly_lift (Run.orderly_look _)) fun v ↦ ih _ _
  | define name v next ih =>
    exact orderly_bind (orderly_lift (Run.orderly_defineGlobal name _)) fun _ ↦ ih _

/-- A function of the host that makes calls is orderly if the calls are. -/
theorem orderly_start {call : Value → List Value → Int → Traced Value}
    (hcall : ∀ f args line, Orderly (call f args line)) (f : Builtin)
    (p : Procedure.Occasion → Procedure) (args : List Value) :
    Orderly (Run.start lift attempt call f p args) :=
  orderly_bind (orderly_lift (Run.orderly_look _)) fun _ ↦ orderly_serve hcall _ _ _

/-- The part of a call that is done as a call keeps order if executing the body does. -/
theorem orderly_body {n : Nat} (h : ∀ c ss, Orderly (execAll n c ss)) (f : Closure)
    (args : List Value) :
    Orderly (do
      let c ← contextOf f
      let e ← lift (Run.newEnv f.env)
      lift (Run.bindParams e f.params args)
      let completion ← inEnv e (execAll n ((c.enter e).recordParams f.params) f.body)
      lift (Run.returnValue completion)) :=
  orderly_bind (orderly_contextOf f) fun c ↦
    orderly_bind (orderly_lift (Run.orderly_newEnv f.env)) fun e ↦
      orderly_bind (orderly_lift (Run.orderly_bindParams e f.params args)) fun _ ↦
        orderly_bind (orderly_inEnv e (h ((c.enter e).recordParams f.params) f.body))
          fun completion ↦ orderly_lift (Run.orderly_returnValue completion)

-- Evaluation with some fuel keeps order.
private structure OrderlyAt (n : Nat) : Prop where
  eval : ∀ c e, Orderly (eval n c e)
  evalAll : ∀ c es, Orderly (evalAll n c es)
  call : ∀ f args line, Orderly (call n f args line)
  exec : ∀ c s, Orderly (exec n c s)
  repeatWhile : ∀ c test body, Orderly (repeatWhile n c test body)
  execAll : ∀ c ss, Orderly (execAll n c ss)

private theorem orderly_eval_succ {n : Nat} (ih : OrderlyAt n) (c : Context) (e : Expr Binding) :
    Orderly (eval (n + 1) c e) := by
  apply orderly_bind (orderly_visit c e)
  intro _
  cases e with
  | literal t v => exact orderly_pure _
  | grouping t x => exact ih.eval c x
  | unary op x =>
    exact orderly_bind (ih.eval c x) fun v ↦ orderly_lift (Run.applied_unary op v).orderly
  | binary x op y =>
    exact orderly_bind (ih.eval c x) fun v ↦ orderly_bind (ih.eval c y) fun w ↦
      orderly_lift (Run.applied_binary op v w).orderly
  | logical x op y =>
    exact orderly_bind (ih.eval c x) fun v ↦ orderly_ite (orderly_pure v) (ih.eval c y)
  | «variable» name b => exact orderly_lift (Run.orderly_lookup name b)
  | assign name b x =>
    exact orderly_bind (ih.eval c x) fun v ↦
      orderly_bind (orderly_lift (Run.orderly_assign name b v)) fun _ ↦ orderly_pure v
  | call f paren args =>
    exact orderly_bind (ih.eval c f) fun g ↦ orderly_bind (ih.evalAll c args) fun vs ↦
      orderly_located paren (ih.call g vs paren.line)

private theorem orderly_call_succ {n : Nat} (ih : OrderlyAt n) (f : Value) (args : List Value)
    (line : Int) : Orderly (call (n + 1) f args line) := by
  cases f with
  | function f =>
    have hbody := orderly_body ih.execAll f args
    exact orderly_ite (orderly_inCall f.name.lexeme line hbody) (orderly_lift (Run.orderly_fail _))
  | builtin f =>
    apply orderly_ite (orderly_inCall f.name line _) (orderly_lift (Run.orderly_fail _))
    split
    · exact orderly_start ih.call f _ _
    · exact orderly_lift (Run.orderly_perform f _)
  | nil => exact orderly_lift (Run.orderly_fail _)
  | bool b => exact orderly_lift (Run.orderly_fail _)
  | number x => exact orderly_lift (Run.orderly_fail _)
  | text s => exact orderly_lift (Run.orderly_fail _)

private theorem orderly_exec_succ {n : Nat} (ih : OrderlyAt n) (c : Context) (s : Stmt Binding) :
    Orderly (exec (n + 1) c s) := by
  cases s with
  | expr e => exact orderly_bind (ih.eval c e) fun _ ↦ orderly_pure _
  | print t e =>
    exact orderly_bind (ih.eval c e) fun v ↦
      orderly_bind (orderly_lift (Run.orderly_print _)) fun _ ↦ orderly_pure _
  | var name init =>
    cases init with
    | none =>
      exact orderly_bind (orderly_lift (Run.orderly_define name.lexeme .nil)) fun _ ↦
        orderly_pure _
    | some e =>
      exact orderly_bind (ih.eval (c.record name.lexeme false) e) fun v ↦
        orderly_bind (orderly_lift (Run.orderly_define name.lexeme v)) fun _ ↦ orderly_pure _
  | block t body =>
    intro tr m
    exact orderly_bind (orderly_lift (Run.orderly_newEnv m.env))
      (fun e ↦ orderly_inEnv e (ih.execAll (c.enter e) body)) tr m
  | ifElse t test yes no =>
    apply orderly_bind (ih.eval c test)
    intro v
    apply orderly_ite (ih.exec c yes)
    cases no with
    | none => exact orderly_pure _
    | some no => exact ih.exec c no
  | «while» t test body => exact ih.repeatWhile c test body
  | function name params body =>
    exact orderly_bind (orderly_newFunction (c.record name.lexeme true) name params body) fun f ↦
      orderly_bind (orderly_lift (Run.orderly_define name.lexeme f)) fun _ ↦ orderly_pure _
  | «return» t result =>
    cases result with
    | none => exact orderly_pure _
    | some e => exact orderly_bind (ih.eval c e) fun v ↦ orderly_pure _
  | branch t => exact orderly_pure _

private theorem orderlyAt (n : Nat) : OrderlyAt n := by
  induction n with
  | zero => constructor <;> intros <;> exact orderly_lift (Run.orderly_fail _)
  | succ n ih =>
    constructor
    · exact orderly_eval_succ ih
    · intro c es
      cases es with
      | nil => exact orderly_pure _
      | cons e es =>
        exact orderly_bind (ih.eval c e) fun v ↦ orderly_bind (ih.evalAll c es) fun vs ↦
          orderly_pure _
    · exact orderly_call_succ ih
    · exact orderly_exec_succ ih
    · intro c test body
      apply orderly_bind (ih.eval c test)
      intro v
      apply orderly_ite _ (orderly_pure _)
      apply orderly_bind (ih.exec c body)
      intro completion
      cases completion with
      | normal => exact ih.repeatWhile c test body
      | returned v t => exact orderly_pure _
      | broken t => exact orderly_pure _
      | continued t => exact ih.repeatWhile c test body
    · intro c ss
      cases ss with
      | nil => exact orderly_pure _
      | cons s ss =>
        apply orderly_bind (ih.exec c s)
        intro completion
        cases completion with
        | normal => exact ih.execAll (c.after s) ss
        | returned v t => exact orderly_pure _
        | broken t => exact orderly_pure _
        | continued t => exact orderly_pure _

/-- Evaluating an expression keeps order. -/
theorem orderly_eval (n : Nat) (c : Context) (e : Expr Binding) : Orderly (eval n c e) :=
  (orderlyAt n).eval c e

/-- Evaluating several expressions keeps order. -/
theorem orderly_evalAll (n : Nat) (c : Context) (es : List (Expr Binding)) :
    Orderly (evalAll n c es) := (orderlyAt n).evalAll c es

/-- A call keeps order. -/
theorem orderly_call (n : Nat) (f : Value) (args : List Value) (line : Int) :
    Orderly (call n f args line) := (orderlyAt n).call f args line

/-- Executing a statement keeps order. -/
theorem orderly_exec (n : Nat) (c : Context) (s : Stmt Binding) : Orderly (exec n c s) :=
  (orderlyAt n).exec c s

/-- A loop keeps order. -/
theorem orderly_repeatWhile (n : Nat) (c : Context) (test : Expr Binding) (body : Stmt Binding) :
    Orderly (repeatWhile n c test body) := (orderlyAt n).repeatWhile c test body

/-- Executing several statements keeps order. -/
theorem orderly_execAll (n : Nat) (c : Context) (ss : List (Stmt Binding)) :
    Orderly (execAll n c ss) := (orderlyAt n).execAll c ss

/-- A program keeps order once it is at top level. -/
theorem orderly_interpretAll (n : Nat) (p : Program Binding) : Orderly (interpretAll n p) := by
  induction p with
  | nil => exact orderly_pure ()
  | cons s ss ih =>
    exact orderly_bind (orderly_exec n [] s) fun completion ↦
      orderly_bind (orderly_lift (Run.orderly_endProgram completion)) fun _ ↦ ih

end Traced
end Lox
