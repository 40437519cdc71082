import Lox.Proofs.Scope.Control
import Lox.Proofs.Session

/-!
# Control stays where the resolver allows it

A statement that is left by a keyword is left by one that stands in it, outside of the loops and
functions within it (`Run.leaves_exec`): what a called function does never leaves the statement that
calls it. So a loop is ended or taken up again only by keywords of its own body.

A `break` or `continue` that leaves the body of a function, or the program, is an error when it is
executed, and so is a `return` that leaves the program. These errors come only from keywords that
the resolver reports. A program that it accepts never meets them, in any session
(`Hosted.control_errors_are_stray`).
-/

namespace Lox

/-! ## Completions -/

/-- A completion is by one of these keywords, if it is by a keyword. -/
def Completion.LeavesBy (branches returns : List Token) : Completion → Prop
  | .normal => True
  | .returned _ t => t ∈ returns
  | .broken t | .continued t => t ∈ branches

namespace Run

variable {α : Type}

/-- A step that is left by these keywords only. -/
def Leaves (branches returns : List Token) (r : Run Completion) : Prop :=
  ∀ m c m', r m = .done c m' → c.LeavesBy branches returns

variable {bs rs : List Token}

private theorem leaves_succeed {c : Completion} (h : c.LeavesBy bs rs) :
    Leaves bs rs (succeed c) := by
  rintro m _ _ ⟨⟩
  exact h

private theorem leaves_fail (f : Fault) : Leaves bs rs (fail f) := by
  rintro m c m' ⟨⟩

/-- A step is left by the keywords of the one that comes last, which may depend on the one
before. -/
theorem leaves_andThen {P : α → Prop} {r : Run α} {f : α → Run Completion}
    (hr : ∀ m a m', r m = .done a m' → P a) (h : ∀ a, P a → Leaves bs rs (f a)) :
    Leaves bs rs (r >>= f) := by
  intro m c m' hc
  change andThen r f m = .done c m' at hc
  unfold andThen at hc
  cases ho : r m with
  | done a m₁ =>
    rw [ho] at hc
    exact h a (hr m a m₁ ho) m₁ c m' hc
  | failed e m₁ =>
    rw [ho] at hc
    cases hc

private theorem leaves_bind {r : Run α} {f : α → Run Completion} (h : ∀ a, Leaves bs rs (f a)) :
    Leaves bs rs (r >>= f) :=
  leaves_andThen (P := fun _ ↦ True) (fun _ _ _ _ ↦ trivial) fun a _ ↦ h a

private theorem leaves_inEnv {r : Run Completion} (h : Leaves bs rs r) (e : EnvId) :
    Leaves bs rs (inEnv e r) := by
  intro m c m' hc
  unfold inEnv at hc
  cases hr : r { m with env := e } with
  | done a m₁ =>
    rw [hr] at hc
    cases hc
    exact h _ _ _ hr
  | failed f m₁ =>
    rw [hr] at hc
    cases hc

end Run

private theorem Completion.LeavesBy.mono {bs bs' rs rs' : List Token} {c : Completion}
    (h : c.LeavesBy bs rs) (hb : bs ⊆ bs') (hr : rs ⊆ rs') : c.LeavesBy bs' rs' := by
  cases c with
  | normal => trivial
  | returned v t => exact hr h
  | broken t => exact hb h
  | continued t => exact hb h

namespace Run

-- Code is left by keywords of its own, with some fuel.
private structure LeavesAt (n : Nat) : Prop where
  exec : ∀ s, Leaves s.branches s.returns (exec n s)
  repeatWhile : ∀ test body, Leaves [] body.returns (repeatWhile n test body)
  execAll : ∀ ss, Leaves (Stmt.branchesAll ss) (Stmt.returnsAll ss) (execAll n ss)

private theorem Leaves.mono {bs bs' rs rs' : List Token} {r : Run Completion} (h : Leaves bs rs r)
    (hb : bs ⊆ bs') (hr : rs ⊆ rs') : Leaves bs' rs' r :=
  fun m c m' hc ↦ (h m c m' hc).mono hb hr

private theorem leaves_exec_succ {n : Nat} (ih : LeavesAt n) (s : Stmt Binding) :
    Leaves s.branches s.returns (exec (n + 1) s) := by
  cases s with
  | expr e => exact leaves_bind fun _ ↦ leaves_succeed trivial
  | print t e => exact leaves_bind fun _ ↦ leaves_bind fun _ ↦ leaves_succeed trivial
  | var name init =>
    cases init with
    | none => exact leaves_bind fun _ ↦ leaves_succeed trivial
    | some e => exact leaves_bind fun _ ↦ leaves_bind fun _ ↦ leaves_succeed trivial
  | block t body => exact fun m ↦ leaves_bind (fun e ↦ leaves_inEnv (ih.execAll body) e) m
  | ifElse t test yes no =>
    apply leaves_bind
    intro v
    cases no with
    | none =>
      split
      · exact ih.exec yes
      · exact leaves_succeed trivial
    | some no =>
      split
      · exact (ih.exec yes).mono (List.subset_append_left _ _) (List.subset_append_left _ _)
      · exact (ih.exec no).mono (List.subset_append_right _ _) (List.subset_append_right _ _)
  | «while» t test body => exact ih.repeatWhile test body
  | function name params body =>
    exact leaves_bind fun _ ↦ leaves_bind fun _ ↦ leaves_succeed trivial
  | «return» t result =>
    cases result with
    | none => exact leaves_succeed (List.mem_singleton_self t)
    | some e => exact leaves_bind fun _ ↦ leaves_succeed (List.mem_singleton_self t)
  | branch t =>
    apply leaves_succeed
    split
    · exact List.mem_singleton_self t
    · exact List.mem_singleton_self t

-- A loop takes the keywords `break` and `continue` of its body, and passes on `return`.
private theorem leaves_repeatWhile_succ {n : Nat} (ih : LeavesAt n) (test : Expr Binding)
    (body : Stmt Binding) : Leaves [] body.returns (repeatWhile (n + 1) test body) := by
  apply leaves_bind
  intro v
  split
  · apply leaves_andThen (ih.exec body)
    intro c hc
    cases c with
    | normal => exact ih.repeatWhile test body
    | returned v t => exact leaves_succeed hc
    | broken t => exact leaves_succeed trivial
    | continued t => exact ih.repeatWhile test body
  · exact leaves_succeed trivial

private theorem leaves_execAll_succ {n : Nat} (ih : LeavesAt n) (ss : List (Stmt Binding)) :
    Leaves (Stmt.branchesAll ss) (Stmt.returnsAll ss) (execAll (n + 1) ss) := by
  cases ss with
  | nil => exact leaves_succeed trivial
  | cons s ss =>
    apply leaves_andThen (ih.exec s)
    intro c hc
    have hc' := hc.mono (List.subset_append_left s.branches (Stmt.branchesAll ss))
      (List.subset_append_left s.returns (Stmt.returnsAll ss))
    cases c with
    | normal =>
      exact (ih.execAll ss).mono (List.subset_append_right _ _) (List.subset_append_right _ _)
    | returned v t => exact leaves_succeed hc'
    | broken t => exact leaves_succeed hc'
    | continued t => exact leaves_succeed hc'

private theorem leavesAt (n : Nat) : LeavesAt n := by
  induction n with
  | zero => constructor <;> intros <;> exact leaves_fail _
  | succ n ih =>
    exact ⟨leaves_exec_succ ih, leaves_repeatWhile_succ ih, leaves_execAll_succ ih⟩

/-- A statement is left by keywords that stand in it. -/
theorem leaves_exec (n : Nat) (s : Stmt Binding) : Leaves s.branches s.returns (exec n s) :=
  (leavesAt n).exec s

/-- Statements are left by keywords that stand in them. -/
theorem leaves_execAll (n : Nat) (ss : List (Stmt Binding)) :
    Leaves (Stmt.branchesAll ss) (Stmt.returnsAll ss) (execAll n ss) := (leavesAt n).execAll ss

end Run

/-! ## Where the errors come from -/

/-- Whether a cause is that of a keyword that leaves what it must not leave. -/
def RuntimeError.Cause.isControl : RuntimeError.Cause → Bool
  | .branchOutsideLoop _ | .returnAtTopLevel => true
  | _ => false

private theorem RuntimeError.Cause.OfOperands.isControl {cause : RuntimeError.Cause}
    (h : cause.OfOperands) : cause.isControl = false := by
  cases cause with
  | operandNotNumber => rfl
  | operandsNotNumbers => rfl
  | operandsNotAddable => rfl
  | divisionByZero => rfl
  | _ => exact h.elim

/-- Keywords that are known to leave what they must not leave. -/
structure Strays where
  branches : Token → Prop
  returns : Token → Prop

namespace Strays

variable {k : Strays} {α β : Type}

/-- A value that is no function with unknown strays. -/
def Knows (k : Strays) : Value → Prop
  | .function f => ∀ t, Program.Strays f.body t → k.branches t
  | _ => True

/-- Environments without functions with unknown strays. -/
def Covers (k : Strays) (h : Heap) : Prop := ∀ e x v, h.lookup e x = some v → k.Knows v

/-- A fault that is none of control, or one at a known keyword. -/
structure Explains (k : Strays) (f : Fault) : Prop where
  branches : ∀ e name, f = .runtime e → e.cause = .branchOutsideLoop name →
    ∃ t, k.branches t ∧ name = t.lexeme ∧ e.line = t.line
  returns : ∀ e, f = .runtime e → e.cause = .returnAtTopLevel → ∃ t, k.returns t ∧ e.line = t.line

/-- A step ends with such environments and a good value, or with such a fault. -/
structure Ends (k : Strays) (good : α → Prop) (o : Outcome α) : Prop where
  heap : k.Covers o.after.heap
  value : ∀ a m, o = .done a m → good a
  fault : ∀ f m, o = .failed f m → k.Explains f

/-- A step that ends so wherever it starts. -/
def Checks (k : Strays) (good : α → Prop) (r : Run α) : Prop :=
  ∀ m : Machine, k.Covers m.heap → k.Ends good (r m)

section Rules

variable {good : α → Prop} {m : Machine}

private theorem ends_done (h : k.Covers m.heap) {a : α} (ha : good a) :
    k.Ends good (.done a m) := by
  refine ⟨h, ?_, nofun⟩
  rintro _ _ ⟨⟩
  exact ha

private theorem ends_failed (h : k.Covers m.heap) {f : Fault} (hf : k.Explains f) :
    k.Ends good (.failed f m : Outcome α) := by
  refine ⟨h, nofun, ?_⟩
  rintro _ _ ⟨⟩
  exact hf

private theorem checks_succeed {a : α} (ha : good a) : k.Checks good (Run.succeed a) :=
  fun _ h ↦ ends_done h ha

private theorem checks_fail {f : Fault} (hf : k.Explains f) : k.Checks good (Run.fail f : Run α) :=
  fun _ h ↦ ends_failed h hf

private theorem explains_call (e : CallError) : k.Explains (.call e) := ⟨nofun, nofun⟩

private theorem explains_stuck : k.Explains .stuck := ⟨nofun, nofun⟩

private theorem explains_outOfFuel : k.Explains .outOfFuel := ⟨nofun, nofun⟩

private theorem checks_raise {t : Token} {cause : RuntimeError.Cause}
    (h : ∀ stack, k.Explains (.runtime ⟨cause, t.line, stack⟩)) :
    k.Checks good (Run.raise t cause : Run α) :=
  fun m hm ↦ ends_failed (m := m.setLine t.line) hm (h _)

/-- An error of a cause that is none of control. -/
theorem checks_raise_other {cause : RuntimeError.Cause} (hc : cause.isControl = false) (t : Token) :
    k.Checks good (Run.raise t cause : Run α) := by
  refine checks_raise fun stack ↦ ⟨?_, ?_⟩
  · rintro _ name ⟨⟩ rfl
    cases hc
  · rintro _ ⟨⟩ rfl
    cases hc

/-- The error of a known `break` or `continue`. -/
theorem checks_raise_branch {t : Token} (ht : k.branches t) :
    k.Checks good (Run.raise t (.branchOutsideLoop t.lexeme) : Run α) := by
  refine checks_raise fun stack ↦ ⟨?_, ?_⟩
  · rintro _ _ ⟨⟩ ⟨⟩
    exact ⟨t, ht, rfl, rfl⟩
  · rintro _ ⟨⟩ ⟨⟩

/-- The error of a known `return`. -/
theorem checks_raise_return {t : Token} (ht : k.returns t) :
    k.Checks good (Run.raise t .returnAtTopLevel : Run α) := by
  refine checks_raise fun stack ↦ ⟨?_, ?_⟩
  · rintro _ _ ⟨⟩ ⟨⟩
  · rintro _ ⟨⟩ -
    exact ⟨t, ht, rfl⟩

private theorem checks_bind {r : Run α} {f : α → Run β} {good' : β → Prop} (h : k.Checks good r)
    (hf : ∀ a, good a → k.Checks good' (f a)) : k.Checks good' (r >>= f) := by
  intro m hm
  have hr := h m hm
  change k.Ends good' (Run.andThen r f m)
  unfold Run.andThen
  cases ho : r m with
  | done a m' =>
    rw [ho] at hr
    exact hf a (hr.value a m' rfl) m' hr.heap
  | failed e m' =>
    rw [ho] at hr
    exact ends_failed hr.heap (hr.fault e m' rfl)

private theorem checks_ite {r r' : Run α} {p : Prop} [Decidable p] (h : k.Checks good r)
    (h' : k.Checks good r') : k.Checks good (if p then r else r') := by
  split
  · exact h
  · exact h'

private theorem checks_inEnv {r : Run α} (h : k.Checks good r) (e : EnvId) :
    k.Checks good (Run.inEnv e r) := by
  intro m hm
  have hr := h { m with env := e } hm
  unfold Run.inEnv
  dsimp only
  cases ho : r { m with env := e } with
  | done a m' =>
    rw [ho] at hr
    exact ends_done (m := { m' with env := m.env }) hr.heap (hr.value a m' rfl)
  | failed f m' =>
    rw [ho] at hr
    exact ends_failed (m := { m' with env := m.env }) hr.heap (hr.fault f m' rfl)

private theorem checks_inCall {r : Run α} (h : k.Checks good r) (callee : Bytes) (line : Int) :
    k.Checks good (Run.inCall callee line r) := by
  intro m hm
  have hr := h { m.setLine line with stack := ⟨some callee, 0⟩ :: (m.setLine line).stack } hm
  unfold Run.inCall
  dsimp only
  cases ho : r { m.setLine line with stack := ⟨some callee, 0⟩ :: (m.setLine line).stack } with
  | done a m' =>
    rw [ho] at hr
    dsimp only
    split
    · exact ends_failed hr.heap explains_stuck
    · next rest _ => exact ends_done (m := { m' with stack := rest }) hr.heap (hr.value a m' rfl)
  | failed f m' =>
    rw [ho] at hr
    dsimp only
    split
    · exact ends_failed hr.heap explains_stuck
    · next rest _ => exact ends_failed (m := { m' with stack := rest }) hr.heap (hr.fault f m' rfl)

private theorem checks_located {good : Value → Prop} {r : Run Value} (h : k.Checks good r)
    (paren : Token) : k.Checks good (Run.located paren r) := by
  intro m hm
  have hr := h m hm
  unfold Run.located
  split
  · next e m' ho =>
    rw [ho] at hr
    exact checks_raise_other rfl paren m' hr.heap
  · exact hr

private theorem checks_attempt {good : Value → Prop} {r : Run Value} (h : k.Checks good r) :
    k.Checks (Procedure.EndsWith good k.Explains) (Run.attempt r) := by
  intro m hm
  have hr := h m hm
  unfold Run.attempt
  cases ho : r m with
  | done a m' =>
    rw [ho] at hr
    exact ends_done hr.heap (hr.value a m' rfl)
  | failed e m' =>
    rw [ho] at hr
    have he := hr.fault e m' rfl
    dsimp only
    split
    · exact ends_done hr.heap he
    · exact ends_failed hr.heap he

/-- What a step is left by is known beside what it does. -/
theorem Checks.and_leaves {good : Completion → Prop} {r : Run Completion} {bs rs : List Token}
    (h : k.Checks good r) (hl : Run.Leaves bs rs r) :
    k.Checks (fun c ↦ good c ∧ c.LeavesBy bs rs) r := fun m hm ↦
  ⟨(h m hm).heap, fun a m' ha ↦ ⟨(h m hm).value a m' ha, hl m a m' ha⟩, (h m hm).fault⟩

end Rules

section Steps

variable {h : Heap}

private theorem Covers.define (hh : k.Covers h) (e : EnvId) (x : Bytes) {v : Value}
    (hv : k.Knows v) : k.Covers (h.define e x v) := by
  intro e' y w hw
  rw [Heap.lookup_define] at hw
  split at hw
  · cases hw
    exact hv
  · exact hh e' y w hw

/-- A step that binds a name. -/
theorem ends_define {m : Machine} (hm : k.Covers m.heap) (e : EnvId) (x : Bytes) {v : Value}
    (hv : k.Knows v) :
    k.Ends (fun _ ↦ True) (.done () { m with heap := m.heap.define e x v }) :=
  ends_done (m := { m with heap := m.heap.define e x v }) (hm.define e x hv) trivial

private theorem Covers.push (hh : k.Covers h) (p : Option EnvId) : k.Covers (h.push p) := by
  intro e x v hv
  rw [Heap.lookup_push] at hv
  exact hh e x v hv

private theorem knows_ofLiteral (v : Literal) : k.Knows (.ofLiteral v) := by
  cases v <;> trivial

private theorem checks_define (x : Bytes) {v : Value} (hv : k.Knows v) :
    k.Checks (fun _ ↦ True) (Run.define x v) := fun m h ↦ ends_define h m.env x hv

private theorem checks_print (text : Bytes) : k.Checks (fun _ ↦ True) (Run.print text) :=
  fun m h ↦ ends_done (m := (Run.print text m).after) h trivial

private theorem checks_newEnv (e : EnvId) : k.Checks (fun _ ↦ True) (Run.newEnv e) :=
  fun _ h ↦ ends_done (h.push (some e)) trivial

private theorem checks_newFunction (name : Token) (params : List Token) {body : Program Binding}
    (hbody : ∀ t, body.Strays t → k.branches t) :
    k.Checks k.Knows (Run.newFunction name params body) :=
  fun m h ↦ ends_done (m := { m with nextFunction := m.nextFunction + 1 }) h hbody

private theorem checks_bindParams (e : EnvId) (ps : List Token) {vs : List Value}
    (hvs : ∀ v ∈ vs, k.Knows v) : k.Checks (fun _ ↦ True) (Run.bindParams e ps vs) := by
  induction ps generalizing vs with
  | nil => exact checks_succeed trivial
  | cons p ps ih =>
    cases vs with
    | nil => exact checks_fail explains_stuck
    | cons v vs =>
      obtain ⟨hv, hvs⟩ := List.forall_mem_cons.mp hvs
      have hdefine : k.Checks (fun _ ↦ True)
          (Run.change fun m ↦ { m with heap := m.heap.define e p.lexeme v }) :=
        fun m h ↦ ends_define h e p.lexeme hv
      exact checks_bind hdefine fun _ _ ↦ ih hvs

private theorem checks_lookup (name : Token) (b : Binding) :
    k.Checks k.Knows (Run.lookup name b) := by
  intro m h
  have hl := Run.looked name b m
  generalize Run.lookup name b m = o at hl
  cases hl with
  | found hv => exact ends_done h (h _ _ _ hv)
  | undefined => exact checks_raise_other rfl name m h
  | stuck => exact ends_failed h explains_stuck

private theorem checks_assign (name : Token) (b : Binding) {v : Value} (hv : k.Knows v) :
    k.Checks (fun _ ↦ True) (Run.assign name b v) := by
  intro m h
  have ha := Run.assigned name b v m
  generalize Run.assign name b v m = o at ha
  cases ha with
  | defined e => exact ends_define h e name.lexeme hv
  | undefined => exact checks_raise_other rfl name m h
  | stuck => exact ends_failed h explains_stuck

private theorem knows_of_isData {v : Value} (h : v.IsData) : k.Knows v := by
  cases v with
  | function f => exact h.elim
  | builtin f => exact h.elim
  | _ => exact trivial

private theorem checks_applied {kinds : List Kind} {op : Token} {r : Run Value}
    (h : Run.Applied kinds op r) : k.Checks k.Knows r := by
  cases h with
  | data hv => exact checks_succeed (knows_of_isData hv)
  | raised hcause => exact checks_raise_other hcause.isControl op
  | stuck => exact checks_fail explains_stuck

private theorem checks_perform (f : Builtin) {args : List Value} (hargs : ∀ v ∈ args, k.Knows v) :
    k.Checks k.Knows (Run.perform f args) := by
  intro m h
  have hp := Run.performed f args m
  generalize Run.perform f args m = o at hp
  cases hp with
  | data hv => exact ends_done h (knows_of_isData hv)
  | arg hv => exact ends_done h (hargs _ hv)
  | failed e => exact ends_failed h (explains_call e)
  | stuck => exact ends_failed h explains_stuck

private theorem checks_look {f : Machine → α} {good : α → Prop}
    (hf : ∀ m : Machine, k.Covers m.heap → good (f m)) : k.Checks good (Run.look f) :=
  fun m h ↦ ends_done h (hf m h)

/-- A procedure meets the errors of its calls, and has none of control of its own. -/
theorem checks_serve {call : Value → List Value → Int → Run Value}
    (hcall : ∀ {f args} line, k.Knows f → (∀ v ∈ args, k.Knows v) →
      k.Checks k.Knows (call f args line))
    (callee : Bytes) (p : Procedure) {d : Procedure.Hand} (hd : d.Holds k.Knows k.Explains) :
    k.Checks k.Knows (Run.serve id Run.attempt call callee p d) := by
  induction p generalizing d with
  | yield x => exact checks_succeed (hd.value knows_ofLiteral x)
  | fail message => exact checks_fail (explains_call _)
  | rethrow i => exact checks_fail (hd.error explains_call callee i)
  | call f args line next ih =>
    have hr := checks_attempt
      (hcall line (hd.value knows_ofLiteral f) (hd.values_map knows_ofLiteral args))
    exact checks_bind hr fun r hr ↦ ih _ (hd.add hr)
  | read name next ih =>
    have hglobal : k.Checks (fun a ↦ ∀ v, a = some v → k.Knows v)
        (Run.look fun m ↦ m.heap.get? Machine.globals name) := by
      refine checks_look fun m hm v hv ↦ ?_
      rw [Machine.globals, Heap.get?_zero] at hv
      exact hm _ _ v hv
    exact checks_bind hglobal fun a ha ↦ ih _ (hd.addValue ha)
  | define name x next ih =>
    have hdefine : k.Checks (fun _ ↦ True) (Run.change fun m ↦
        { m with heap := m.heap.define Machine.globals name (d.value x) }) :=
      fun m h ↦ ends_define h Machine.globals name (hd.value knows_ofLiteral x)
    exact checks_bind hdefine fun _ _ ↦ ih hd

end Steps

/-- The value that a completion returns, if any, is known. -/
def KnowsCompletion (k : Strays) (c : Completion) : Prop := ∀ v t, c = .returned v t → k.Knows v

private theorem knowsCompletion_normal : k.KnowsCompletion .normal := fun _ _ h ↦ nomatch h

/-- The strays of the functions declared in some code are known. -/
def KnowsBodies (k : Strays) (bodies : List (Program Binding)) : Prop :=
  ∀ body ∈ bodies, ∀ t ∈ Stmt.branchesAll body, k.branches t

/-- A function returns a known value, or its body is left by a keyword that strays from it. -/
theorem checks_returnValue {c : Completion} {body : Program Binding} (hc : k.KnowsCompletion c)
    (hl : c.LeavesBy (Stmt.branchesAll body) (Stmt.returnsAll body))
    (hbody : ∀ t, body.Strays t → k.branches t) : k.Checks k.Knows (Run.returnValue c) := by
  have hstray : ∀ t ∈ Stmt.branchesAll body, k.branches t :=
    fun t ht ↦ hbody t ⟨body, List.mem_cons_self, ht⟩
  cases c with
  | normal => exact checks_succeed trivial
  | returned v t => exact checks_succeed (hc v t rfl)
  | broken t => exact checks_raise_branch (hstray t hl)
  | continued t => exact checks_raise_branch (hstray t hl)

private theorem checks_endProgram {c : Completion} {bs rs : List Token} (hl : c.LeavesBy bs rs)
    (hb : ∀ t ∈ bs, k.branches t) (hr : ∀ t ∈ rs, k.returns t) :
    k.Checks (fun _ ↦ True) (Run.endProgram c) := by
  cases c with
  | normal => exact checks_succeed trivial
  | returned v t => exact checks_raise_return (hr t hl)
  | broken t => exact checks_raise_branch (hb t hl)
  | continued t => exact checks_raise_branch (hb t hl)

-- Evaluation with some fuel.
private structure ChecksAt (k : Strays) (n : Nat) : Prop where
  eval : ∀ e, k.Checks k.Knows (Run.eval n e)
  evalAll : ∀ es, k.Checks (fun vs ↦ ∀ v ∈ vs, k.Knows v) (Run.evalAll n es)
  call : ∀ {f args} line, k.Knows f → (∀ v ∈ args, k.Knows v) →
    k.Checks k.Knows (Run.call n f args line)
  exec : ∀ {s}, k.KnowsBodies s.bodies → k.Checks k.KnowsCompletion (Run.exec n s)
  repeatWhile : ∀ {test body}, k.KnowsBodies body.bodies →
    k.Checks k.KnowsCompletion (Run.repeatWhile n test body)
  execAll : ∀ {ss}, k.KnowsBodies (Stmt.bodiesAll ss) →
    k.Checks k.KnowsCompletion (Run.execAll n ss)

section Succ

variable {n : Nat}

private theorem checks_eval_succ (ih : k.ChecksAt n) (e : Expr Binding) :
    k.Checks k.Knows (Run.eval (n + 1) e) := by
  cases e with
  | literal t v => exact checks_succeed (knows_ofLiteral v)
  | grouping t x => exact ih.eval x
  | unary op x => exact checks_bind (ih.eval x) fun v _ ↦ checks_applied (Run.applied_unary op v)
  | binary x op y =>
    exact checks_bind (ih.eval x) fun v _ ↦ checks_bind (ih.eval y) fun w _ ↦
      checks_applied (Run.applied_binary op v w)
  | logical x op y =>
    exact checks_bind (ih.eval x) fun v hv ↦ checks_ite (checks_succeed hv) (ih.eval y)
  | «variable» name b => exact checks_lookup name b
  | assign name b x =>
    exact checks_bind (ih.eval x) fun v hv ↦ checks_bind (checks_assign name b hv) fun _ _ ↦
      checks_succeed hv
  | call f paren args =>
    exact checks_bind (ih.eval f) fun g hg ↦ checks_bind (ih.evalAll args) fun vs hvs ↦
      checks_located (ih.call paren.line hg hvs) paren

private theorem checks_evalAll_succ (ih : k.ChecksAt n) (es : List (Expr Binding)) :
    k.Checks (fun vs ↦ ∀ v ∈ vs, k.Knows v) (Run.evalAll (n + 1) es) := by
  cases es with
  | nil => exact checks_succeed (List.forall_mem_nil _)
  | cons e es =>
    exact checks_bind (ih.eval e) fun v hv ↦ checks_bind (ih.evalAll es) fun vs hvs ↦
      checks_succeed (List.forall_mem_cons.mpr ⟨hv, hvs⟩)

private theorem checks_call_succ (ih : k.ChecksAt n) {f : Value} {args : List Value} (line : Int)
    (hf : k.Knows f) (hargs : ∀ v ∈ args, k.Knows v) :
    k.Checks k.Knows (Run.call (n + 1) f args line) := by
  cases f with
  | function f =>
    have hbodies : k.KnowsBodies (Stmt.bodiesAll f.body) :=
      fun body hb t ht ↦ hf t ⟨body, List.mem_cons_of_mem _ hb, ht⟩
    refine checks_ite (checks_inCall ?_ f.name.lexeme line) (checks_fail (explains_call _))
    refine checks_bind (checks_newEnv f.env) fun e _ ↦
      checks_bind (checks_bindParams e f.params hargs) fun _ _ ↦ ?_
    -- the body is left, if at all, by keywords of its own
    have hbody := (checks_inEnv (ih.execAll hbodies) e).and_leaves
      (Run.leaves_inEnv (Run.leaves_execAll n f.body) e)
    exact checks_bind hbody fun c hc ↦ checks_returnValue hc.1 hc.2 hf
  | builtin f =>
    refine checks_ite (checks_inCall ?_ f.name line) (checks_fail (explains_call _))
    split
    · next p _ =>
      have hcallers : k.Checks (fun _ ↦ True) (Run.look fun m ↦ m.stack.tail) :=
        checks_look fun _ _ ↦ trivial
      exact checks_bind hcallers fun _ _ ↦ checks_serve ih.call _ _ (.ofArgs hargs)
    · exact checks_perform f hargs
  | nil => exact checks_fail (explains_call _)
  | bool b => exact checks_fail (explains_call _)
  | number x => exact checks_fail (explains_call _)
  | text s => exact checks_fail (explains_call _)

private theorem checks_exec_succ (ih : k.ChecksAt n) {s : Stmt Binding}
    (hs : k.KnowsBodies s.bodies) : k.Checks k.KnowsCompletion (Run.exec (n + 1) s) := by
  cases s with
  | expr e => exact checks_bind (ih.eval e) fun _ _ ↦ checks_succeed knowsCompletion_normal
  | print t e =>
    exact checks_bind (ih.eval e) fun v _ ↦ checks_bind (checks_print v.display) fun _ _ ↦
      checks_succeed knowsCompletion_normal
  | var name init =>
    cases init with
    | none =>
      exact checks_bind (checks_define name.lexeme (v := .nil) trivial) fun _ _ ↦
        checks_succeed knowsCompletion_normal
    | some e =>
      exact checks_bind (ih.eval e) fun v hv ↦ checks_bind (checks_define name.lexeme hv) fun _ _ ↦
        checks_succeed knowsCompletion_normal
  | block t body =>
    exact fun m ↦ checks_bind (checks_newEnv m.env) (fun e _ ↦ checks_inEnv (ih.execAll hs) e) m
  | ifElse t test yes no =>
    refine checks_bind (ih.eval test) fun v _ ↦ ?_
    cases no with
    | none => exact checks_ite (ih.exec hs) (checks_succeed knowsCompletion_normal)
    | some no =>
      obtain ⟨hyes, hno⟩ := List.forall_mem_append.mp hs
      exact checks_ite (ih.exec hyes) (ih.exec hno)
  | «while» t test body => exact ih.repeatWhile hs
  | function name params body =>
    have hbody : ∀ t, Program.Strays body t → k.branches t := fun t ⟨b, hb, ht⟩ ↦ hs b hb t ht
    exact checks_bind (checks_newFunction name params hbody) fun f hf ↦
      checks_bind (checks_define name.lexeme hf) fun _ _ ↦ checks_succeed knowsCompletion_normal
  | «return» t result =>
    cases result with
    | none =>
      refine checks_succeed ?_
      rintro _ _ ⟨⟩
      trivial
    | some e =>
      refine checks_bind (ih.eval e) fun v hv ↦ checks_succeed ?_
      rintro _ _ ⟨⟩
      exact hv
  | branch t =>
    refine checks_succeed fun v keyword hr ↦ ?_
    split at hr <;> cases hr

private theorem checks_repeatWhile_succ (ih : k.ChecksAt n) {test : Expr Binding}
    {body : Stmt Binding} (hbody : k.KnowsBodies body.bodies) :
    k.Checks k.KnowsCompletion (Run.repeatWhile (n + 1) test body) := by
  refine checks_bind (ih.eval test) fun v _ ↦
    checks_ite ?_ (checks_succeed knowsCompletion_normal)
  refine checks_bind (ih.exec hbody) fun c hc ↦ ?_
  cases c with
  | normal => exact ih.repeatWhile hbody
  | returned v t => exact checks_succeed hc
  | broken t => exact checks_succeed knowsCompletion_normal
  | continued t => exact ih.repeatWhile hbody

private theorem checks_execAll_succ (ih : k.ChecksAt n) {ss : List (Stmt Binding)}
    (hs : k.KnowsBodies (Stmt.bodiesAll ss)) :
    k.Checks k.KnowsCompletion (Run.execAll (n + 1) ss) := by
  cases ss with
  | nil => exact checks_succeed knowsCompletion_normal
  | cons s ss =>
    obtain ⟨hs, hss⟩ := List.forall_mem_append.mp hs
    refine checks_bind (ih.exec hs) fun c hc ↦ ?_
    cases c with
    | normal => exact ih.execAll hss
    | returned v t => exact checks_succeed hc
    | broken t => exact checks_succeed hc
    | continued t => exact checks_succeed hc

end Succ

private theorem checksAt (k : Strays) (n : Nat) : k.ChecksAt n := by
  induction n with
  | zero => constructor <;> intros <;> exact checks_fail explains_outOfFuel
  | succ n ih =>
    exact ⟨checks_eval_succ ih, checks_evalAll_succ ih, checks_call_succ ih, checks_exec_succ ih,
      checks_repeatWhile_succ ih, checks_execAll_succ ih⟩

/-- Evaluating an expression. -/
theorem checks_evaluate (n : Nat) (e : Expr Binding) : k.Checks k.Knows (Run.evaluate n e) :=
  fun m h ↦ (checksAt k n).eval e m.atTopLevel h

/-- A call of a known value. -/
theorem checks_call (n : Nat) {f : Value} {args : List Value} (line : Int) (hf : k.Knows f)
    (hargs : ∀ v ∈ args, k.Knows v) : k.Checks k.Knows (Run.call n f args line) :=
  (checksAt k n).call line hf hargs

private theorem checks_interpretAll (n : Nat) {p : Program Binding}
    (hb : ∀ t ∈ Stmt.branchesAll p, k.branches t) (hbodies : k.KnowsBodies (Stmt.bodiesAll p))
    (hr : ∀ t ∈ Stmt.returnsAll p, k.returns t) :
    k.Checks (fun _ ↦ True) (Run.interpretAll n p) := by
  induction p with
  | nil => exact checks_succeed trivial
  | cons s ss ih =>
    obtain ⟨hbs, hbss⟩ := List.forall_mem_append.mp hb
    obtain ⟨hfs, hfss⟩ := List.forall_mem_append.mp hbodies
    obtain ⟨hrs, hrss⟩ := List.forall_mem_append.mp hr
    have hs := ((checksAt k n).exec hfs).and_leaves (Run.leaves_exec n s)
    exact checks_bind hs fun c hc ↦ checks_bind (checks_endProgram hc.2 hbs hrs) fun _ _ ↦
      ih hbss hfss hrss

/-- A program whose strays are known. -/
theorem checks_interpret (n : Nat) {p : Program Binding} (hb : ∀ t, p.Strays t → k.branches t)
    (hr : ∀ t ∈ Stmt.returnsAll p, k.returns t) :
    k.Checks (fun _ ↦ True) (Run.interpret n p) := by
  intro m h
  refine checks_interpretAll n (fun t ht ↦ hb t ⟨p, List.mem_cons_self, ht⟩) ?_ hr m.atTopLevel h
  exact fun body hbody t ht ↦ hb t ⟨body, List.mem_cons_of_mem _ hbody, ht⟩

end Strays

/-! ## Sessions -/

/-- The fault that a step ends with, if it fails. -/
def Outcome.fault? {α : Type} : Outcome α → Option Fault
  | .done _ _ => none
  | .failed f _ => some f

namespace Hosted

/-- The fault that a request ends with, if it fails. -/
def fault? (s : Hosted) (fuel : Nat) : Request → Option Fault
  | .run lenient tokens =>
    (Run.interpret fuel ((parseTokens tokens).tree.resolve lenient).tree s.machine).fault?
  | .evaluate tokens =>
    (parseExprTokens tokens).tree.bind fun e ↦ (Run.evaluate fuel e.resolve.tree s.machine).fault?
  | .call callee args line =>
    (Run.call fuel (callee.value s) (args.map (Operand.value s)) line s.machine).fault?
  | .define _ _ | .install _ _ _ => none

/-- The faults that requests end with, one after the other. -/
def faults (s : Hosted) : List (Nat × Request) → List Fault
  | [] => []
  | (fuel, r) :: script => (s.fault? fuel r).toList ++ (s.step fuel r).faults script

end Hosted

namespace Strays

variable {k : Strays}

/-- A session whose machine and whose host have no functions with unknown strays. -/
structure CoversSession (k : Strays) (s : Hosted) : Prop where
  heap : k.Covers s.machine.heap
  held : ∀ v ∈ s.held, k.Knows v

/-- The strays of the program that a request runs are known. -/
structure Admits (k : Strays) (r : Request) : Prop where
  branches : ∀ lenient tokens, r = .run lenient tokens →
    ∀ t, ((parseTokens tokens).tree.resolve lenient).tree.Strays t → k.branches t
  returns : ∀ lenient tokens, r = .run lenient tokens →
    ∀ t ∈ Stmt.returnsAll ((parseTokens tokens).tree.resolve lenient).tree, k.returns t

private theorem explains_fault? {α : Type} {good : α → Prop} {o : Outcome α} (h : k.Ends good o) :
    ∀ f ∈ o.fault?, k.Explains f := by
  cases o with
  | done a m => exact fun _ hf ↦ absurd hf (Option.not_mem_none _)
  | failed f m =>
    rintro _ ⟨⟩
    exact h.fault f m rfl

private theorem CoversSession.operand {s : Hosted} (h : k.CoversSession s) (x : Operand) :
    k.Knows (x.value s) :=
  Operand.value_of knows_ofLiteral h.heap h.held x

-- What a step yields is added to the values that the host has.
private theorem CoversSession.keep {s : Hosted} (h : k.CoversSession s) {o : Outcome Value}
    (ho : k.Ends k.Knows o) : k.CoversSession (s.keep o) := by
  cases o with
  | done v m => exact ⟨ho.heap, List.forall_mem_cons.mpr ⟨ho.value v m rfl, h.held⟩⟩
  | failed f m => exact ⟨ho.heap, h.held⟩

/-- One request keeps a session so, and its fault is explained. -/
theorem CoversSession.step {s : Hosted} (h : k.CoversSession s) (fuel : Nat) {r : Request}
    (hr : k.Admits r) :
    k.CoversSession (s.step fuel r) ∧ ∀ f ∈ s.fault? fuel r, k.Explains f := by
  cases r with
  | run lenient tokens =>
    have ho := checks_interpret fuel (hr.branches lenient tokens rfl)
      (hr.returns lenient tokens rfl) s.machine h.heap
    exact ⟨⟨ho.heap, h.held⟩, explains_fault? ho⟩
  | evaluate tokens =>
    simp only [Hosted.step, Hosted.fault?]
    cases (parseExprTokens tokens).tree with
    | none => exact ⟨h, fun _ hf ↦ absurd hf (Option.not_mem_none _)⟩
    | some e =>
      have ho := checks_evaluate fuel e.resolve.tree s.machine h.heap
      exact ⟨h.keep ho, explains_fault? ho⟩
  | call callee args line =>
    have hargs : ∀ v ∈ args.map (Operand.value s), k.Knows v := by
      intro v hv
      obtain ⟨x, -, rfl⟩ := List.mem_map.mp hv
      exact h.operand x
    have ho := checks_call fuel line (h.operand callee) hargs s.machine h.heap
    exact ⟨h.keep ho, explains_fault? ho⟩
  | define name v =>
    exact ⟨⟨h.heap.define Machine.globals name (h.operand v), h.held⟩,
      fun _ hf ↦ absurd hf (Option.not_mem_none _)⟩
  | install name arity action =>
    exact ⟨⟨h.heap, List.forall_mem_cons.mpr ⟨trivial, h.held⟩⟩,
      fun _ hf ↦ absurd hf (Option.not_mem_none _)⟩

/-- All faults of a session are explained. -/
theorem CoversSession.faults {s : Hosted} (h : k.CoversSession s) {script : List (Nat × Request)}
    (hscript : ∀ entry ∈ script, k.Admits entry.2) : ∀ f ∈ s.faults script, k.Explains f := by
  induction script generalizing s with
  | nil => exact List.forall_mem_nil _
  | cons entry script ih =>
    obtain ⟨hentry, hscript⟩ := List.forall_mem_cons.mp hscript
    obtain ⟨hstep, hfault⟩ := h.step entry.1 hentry
    refine List.forall_mem_append.mpr ⟨fun f hf ↦ hfault f ?_, ih hstep hscript⟩
    exact Option.mem_toList.mp hf

private theorem coversSession_start (clock : Option Int) (firstId : Nat) :
    k.CoversSession (.start clock firstId) := by
  refine ⟨fun e x v hv ↦ ?_, List.forall_mem_nil _⟩
  change (Machine.start clock firstId).heap.lookup e x = some v at hv
  rw [Machine.lookup_start] at hv
  split at hv
  · cases hv
    trivial
  · cases hv

/-- The keywords that stray in the programs of a session. -/
def ofScript (script : List (Nat × Request)) : Strays where
  branches t := ∃ fuel lenient tokens, (fuel, .run lenient tokens) ∈ script ∧
    ((parseTokens tokens).tree.resolve lenient).tree.Strays t
  returns t := ∃ fuel lenient tokens, (fuel, .run lenient tokens) ∈ script ∧
    t ∈ Stmt.returnsAll ((parseTokens tokens).tree.resolve lenient).tree

private theorem ofScript_admits (script : List (Nat × Request)) :
    ∀ entry ∈ script, (ofScript script).Admits entry.2 := by
  rintro ⟨fuel, r⟩ he
  constructor
  · rintro lenient tokens rfl t ht
    exact ⟨fuel, lenient, tokens, he, ht⟩
  · rintro lenient tokens rfl t ht
    exact ⟨fuel, lenient, tokens, he, ht⟩

end Strays

/-- In a session with programs that have no static errors, functions of which may be called by later
requests: no `return` leaves a program, and if no program was resolved leniently, no `break` or
`continue` is met outside of a loop. In a program that was resolved leniently one may be met, but
only where a strict resolver would have reported it, and the error has the line of its keyword.

In any case the keyword by which a statement is left, such as the body of a loop, stands in this
very statement, in no function in it: no `break` or `continue` ends or takes up a loop of a calling
function. -/
theorem Hosted.control_errors_are_stray (clock : Option Int) (firstId : Nat)
    (script : List (Nat × Request)) (h : ∀ entry ∈ script, entry.2.Accepted) :
    ((∀ fuel tokens, (fuel, .run true tokens) ∉ script) →
      ∀ e, .runtime e ∈ (start clock firstId).faults script → e.cause.isControl = false) ∧
    (∀ e, .runtime e ∈ (start clock firstId).faults script →
      e.cause ≠ .returnAtTopLevel ∧
      ∀ name, e.cause = .branchOutsideLoop name → ∃ fuel tokens t,
        (fuel, .run true tokens) ∈ script ∧
        ((parseTokens tokens).tree.resolve true).tree.Strays t ∧
        .stray t ∈ ((parseTokens tokens).tree.resolve false).errors ∧
        name = t.lexeme ∧ e.line = t.line) ∧
    ∀ n s m t m', Run.exec n s m = .done (.broken t) m' ∨ Run.exec n s m = .done (.continued t) m' →
      t ∈ s.branches := by
  have hfaults := (Strays.coversSession_start clock firstId).faults
    (Strays.ofScript_admits script)
  have herrors : ∀ e, .runtime e ∈ (start clock firstId).faults script →
      e.cause ≠ .returnAtTopLevel ∧
      ∀ name, e.cause = .branchOutsideLoop name → ∃ fuel tokens t,
        (fuel, .run true tokens) ∈ script ∧
        ((parseTokens tokens).tree.resolve true).tree.Strays t ∧
        .stray t ∈ ((parseTokens tokens).tree.resolve false).errors ∧
        name = t.lexeme ∧ e.line = t.line := by
    refine fun e he ↦ ⟨fun hc ↦ ?_, fun name hc ↦ ?_⟩
    · obtain ⟨t, ⟨fuel, lenient, tokens, hmem, ht⟩, -⟩ := (hfaults _ he).returns e rfl hc
      have hreported := (Program.reported_resolve lenient lenient (parseTokens tokens).tree).2 t ht
      rw [(h _ hmem).2] at hreported
      cases hreported
    · obtain ⟨t, ⟨fuel, lenient, tokens, hmem, ht⟩, hname, hline⟩ :=
        (hfaults _ he).branches e name rfl hc
      have hreported :=
        (Program.reported_resolve lenient false (parseTokens tokens).tree).1 rfl t ht
      cases lenient with
      | false =>
        rw [(h _ hmem).2] at hreported
        cases hreported
      | true => exact ⟨fuel, tokens, t, hmem, ht, hreported, hname, hline⟩
  refine ⟨fun hstrict e he ↦ ?_, herrors, ?_⟩
  · obtain ⟨hreturn, hbranch⟩ := herrors e he
    cases hc : e.cause with
    | returnAtTopLevel => exact absurd hc hreturn
    | branchOutsideLoop name =>
      obtain ⟨fuel, tokens, -, hmem, -⟩ := hbranch name hc
      exact absurd hmem (hstrict fuel tokens)
    | _ => rfl
  · rintro n s m t m' (hs | hs)
    · exact Run.leaves_exec n s m _ m' hs
    · exact Run.leaves_exec n s m _ m' hs

-- A token of a program.
private def piece (k : Kind) (text : String) (line : Int) : Token :=
  ⟨k, Bytes.ofString text, .nil, line⟩

/-- A function with a stray `break`, and a loop that calls it. -/
def strayProgram : List Token :=
  [piece .fun "fun" 1, piece .identifier "f" 1, piece .leftParen "(" 1, piece .rightParen ")" 1,
    piece .leftBrace "" 1, piece .break "break" 2, piece .semicolon ";" 2, piece .rightBrace "" 3,
    piece .while "while" 4, piece .leftParen "(" 4, piece .true "true" 4, piece .rightParen ")" 4,
    piece .identifier "f" 5, piece .leftParen "(" 5, piece .rightParen ")" 5,
    piece .semicolon ";" 5]

/-- The loop is not ended by the `break` of the function that it calls: this is an error on the line
of the `break`, and again when the host calls the function. -/
theorem Hosted.control_errors_are_stray_call :
    let script : List (Nat × Request) :=
      [(20, .run true strayProgram), (20, .call (.global (Bytes.ofString "f")) [] 9)]
    (∀ entry ∈ script, entry.2.Accepted) ∧ ((start none 0).faults script).length = 2 ∧
    ∀ f ∈ (start none 0).faults script, ∃ e, f = .runtime e ∧ e.line = 2 ∧
      e.cause = .branchOutsideLoop (Bytes.ofString "break") ∧ ∃ fuel tokens t,
        (fuel, .run true tokens) ∈ script ∧
        ((parseTokens tokens).tree.resolve true).tree.Strays t ∧
        .stray t ∈ ((parseTokens tokens).tree.resolve false).errors ∧
        Bytes.ofString "break" = t.lexeme ∧ e.line = t.line := by
  intro script
  have haccepted : ∀ entry ∈ script, entry.2.Accepted := by
    intro entry he
    rcases List.mem_cons.mp he with rfl | he
    · exact ⟨by decide, by decide⟩
    · rw [List.mem_singleton.mp he]
      trivial
  have hfaults : (start none 0).faults script =
      [.runtime ⟨.branchOutsideLoop (Bytes.ofString "break"), 2,
          [⟨some (Bytes.ofString "f"), 2⟩, ⟨none, 5⟩]⟩,
        .runtime ⟨.branchOutsideLoop (Bytes.ofString "break"), 2,
          [⟨some (Bytes.ofString "f"), 2⟩, ⟨none, 9⟩]⟩] := by decide +kernel
  refine ⟨haccepted, by rw [hfaults]; rfl, fun f hf ↦ ?_⟩
  have hf' := hf
  rw [hfaults] at hf'
  have herrors := (control_errors_are_stray none 0 script haccepted).2.1
  simp only [List.mem_cons, List.not_mem_nil, or_false] at hf'
  rcases hf' with rfl | rfl
  · exact ⟨_, rfl, rfl, rfl, (herrors _ hf).2 _ rfl⟩
  · exact ⟨_, rfl, rfl, rfl, (herrors _ hf).2 _ rfl⟩

end Lox
