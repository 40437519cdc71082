import Lox.Proofs.Machine.Order
import Lox.Proofs.Syntax.Nodes

/-!
# Bindings in a table

The evaluator again, on trees that know of each use of a variable its identity only. Where the use
finds its variable is looked up when it is evaluated, in a table that holds the entries of all trees
there are. Functions are run from the same trees: what a function was declared with is kept beside
the machine, under the identity of the function, and the table is asked anew at each call.

If the table has the entries of a tree, then running the tree by the table is running the tree with
its bindings filled in (`Directory.follows_interpret`). What is kept of the functions then agrees
with what the machine holds, and goes on to do so when the table gets entries for other uses
(`Directory.Ready.grown`).
-/

namespace Lox

/-- For uses of local variables, how many scopes out they are declared. A use that has no entry is
one of a global variable. -/
abbrev Table := List (NodeId × Nat)

/-- The entry of a use with this binding, if it has one. -/
def Binding.depth? : Binding → Option Nat
  | .scope depth => some depth
  | .global => none

namespace Table

/-- Where a use finds its variable. -/
def binding (t : Table) (id : NodeId) : Binding :=
  match t.lookup id with
  | some depth => .scope depth
  | none => .global

/-- The entries of uses that have these bindings, and the identities from `n` on. -/
def ofBindings (n : NodeId) : List Binding → Table
  | [] => []
  | .scope depth :: bs => (n, depth) :: ofBindings (n + 1) bs
  | .global :: bs => ofBindings (n + 1) bs

/-- Adds the entries of another table, which come in place of earlier ones of the same uses. -/
def add (t new : Table) : Table := new ++ t

/-- The entry of a use gives the binding back. -/
theorem binding_eq {t : Table} {id : NodeId} {b : Binding} (h : t.lookup id = b.depth?) :
    t.binding id = b := by
  rw [binding, h]
  cases b <;> rfl

/-- New entries come before older ones. -/
theorem lookup_add (t new : Table) (id : NodeId) :
    (t.add new).lookup id = (new.lookup id).or (t.lookup id) := by
  rw [add, List.lookup_append]

/-- The entries of uses are found under their own identities only. -/
theorem lookup_ofBindings (n : Nat) (bs : List Binding) (id : Nat) :
    (ofBindings n bs).lookup id = if n ≤ id then bs[id - n]?.bind Binding.depth? else none := by
  induction bs generalizing n with
  | nil => simp [ofBindings]
  | cons b bs ih =>
    -- the first use has the identity `n`, and the others follow it
    rcases Nat.lt_trichotomy id n with hlt | rfl | hgt
    · cases b <;> simp [ofBindings, List.lookup_cons, ih, beq_eq_false_iff_ne.mpr hlt.ne,
        Nat.not_le.mpr hlt, Nat.not_le.mpr (Nat.lt_succ_of_lt hlt)]
    · cases b <;> simp [ofBindings, ih, Binding.depth?]
    · have hsucc : id - n = (id - (n + 1)) + 1 := by omega
      cases b <;> simp [ofBindings, List.lookup_cons, ih, beq_eq_false_iff_ne.mpr hgt.ne',
        hgt.le, Nat.succ_le_of_lt hgt, hsucc]

end Table

/-- What functions were declared with, by their identities. -/
abbrev Code := List (Nat × Program NodeId)

/-- A step on a machine that keeps what functions are declared with. -/
def Tabled (α : Type) := Code → Machine → Outcome α × Code

namespace Tabled

/-- A step that declares no function. -/
def lift {α : Type} (r : Run α) : Tabled α := fun code m ↦ (r m, code)

/-- Does one step, and then the one that its value selects unless it failed. -/
def andThen {α β : Type} (r : Tabled α) (f : α → Tabled β) : Tabled β := fun code m ↦
  match r code m with
  | (.done a m, code) => f a code m
  | (.failed e m, code) => (.failed e m, code)

/-- Steps one after the other; a step that fails is the last one. -/
instance : Monad Tabled where
  pure a := lift (Run.succeed a)
  bind := andThen

/-- Makes a new function of the current environment and keeps its body. The machine gets the body
with its bindings filled in, which no step of this evaluator looks at. -/
def newFunction (table : Table) (name : Token) (params : List Token) (body : Program NodeId) :
    Tabled Value := fun code m ↦
  (Run.newFunction name params (Stmt.mapUsesList table.binding body) m,
    (m.nextFunction, body) :: code)

/-- What a function was declared with. -/
def bodyOf (f : Closure) : Tabled (Program NodeId) := fun code m ↦
  match code.lookup f.id with
  | some body => (.done body m, code)
  | none => (.failed .stuck m, code)

/-- Does a step in another environment and returns to the current one. -/
def inEnv {α : Type} (e : EnvId) (r : Tabled α) : Tabled α := fun code m ↦
  (Run.inEnv e (fun m' ↦ (r code m').1) m, (r code { m with env := e }).2)

/-- Does a step as a call and ends the call. -/
def inCall {α : Type} (callee : Bytes) (line : Int) (r : Tabled α) : Tabled α := fun code m ↦
  (Run.inCall callee line (fun m' ↦ (r code m').1) m,
    (r code { m.setLine line with stack := ⟨some callee, 0⟩ :: (m.setLine line).stack }).2)

/-- Gives an error of a call the place of the call in the program. -/
def located (paren : Token) (r : Tabled Value) : Tabled Value := fun code m ↦
  (Run.located paren (fun m' ↦ (r code m').1) m, (r code m).2)

/-- Does a step and yields the error that it ends with, if it ends with one. -/
def attempt {α : Type} (r : Tabled α) : Tabled (Except Fault α) := fun code m ↦
  (Run.attempt (fun m' ↦ (r code m').1) m, (r code m).2)

mutual

/-- The value of an expression. -/
def eval (table : Table) : Nat → Expr NodeId → Tabled Value
  | 0, _ => lift (Run.fail .outOfFuel)
  | n + 1, e =>
    match e with
    | .literal _ v => pure (.ofLiteral v)
    | .grouping _ x => eval table n x
    | .unary op x => do
      let v ← eval table n x
      lift (Run.applyUnary op v)
    | .binary x op y => do
      let v ← eval table n x
      let w ← eval table n y
      lift (Run.applyBinary op v w)
    | .logical x op y => do
      let v ← eval table n x
      if Run.skipsRight op v then pure v else eval table n y
    | .variable name id => lift (Run.lookup name (table.binding id))
    | .assign name id x => do
      let v ← eval table n x
      lift (Run.assign name (table.binding id) v)
      pure v
    | .call c paren args => do
      let f ← eval table n c
      let vs ← evalAll table n args
      located paren (call table n f vs paren.line)

/-- The values of expressions, from left to right. -/
def evalAll (table : Table) : Nat → List (Expr NodeId) → Tabled (List Value)
  | 0, _ => lift (Run.fail .outOfFuel)
  | _ + 1, [] => pure []
  | n + 1, e :: es => do
    let v ← eval table n e
    let vs ← evalAll table n es
    pure (v :: vs)

/-- Calls a value. A declared function is run from what it was declared with. -/
def call (table : Table) : Nat → Value → List Value → Int → Tabled Value
  | 0, _, _, _ => lift (Run.fail .outOfFuel)
  | n + 1, f, args, line =>
    match f with
    | .function f =>
      if args.length = f.params.length then
        inCall f.name.lexeme line do
          let body ← bodyOf f
          let e ← lift (Run.newEnv f.env)
          lift (Run.bindParams e f.params args)
          let completion ← inEnv e (execAll table n body)
          lift (Run.returnValue completion)
      else lift (Run.fail (.call (.arity f.params.length args.length)))
    | .builtin f =>
      if (args.length : Int) = f.arity then
        inCall f.name line <|
          match f.action with
          | .procedure p => Run.start lift attempt (call table n) f p args
          | _ => lift (Run.perform f args)
      else lift (Run.fail (.call (.arity f.arity args.length)))
    | _ => lift (Run.fail (.call .notCallable))

/-- Executes a statement. -/
def exec (table : Table) : Nat → Stmt NodeId → Tabled Completion
  | 0, _ => lift (Run.fail .outOfFuel)
  | n + 1, s =>
    match s with
    | .expr e => do
      let _ ← eval table n e
      pure .normal
    | .print _ e => do
      let v ← eval table n e
      lift (Run.print v.display)
      pure .normal
    | .var name none => do
      lift (Run.define name.lexeme .nil)
      pure .normal
    | .var name (some e) => do
      let v ← eval table n e
      lift (Run.define name.lexeme v)
      pure .normal
    | .block _ body => fun code m ↦
      (do
        let e ← lift (Run.newEnv m.env)
        inEnv e (execAll table n body) : Tabled Completion) code m
    | .ifElse _ test yes no => do
      let v ← eval table n test
      if v.truth then exec table n yes
      else
        match no with
        | none => pure .normal
        | some no => exec table n no
    | .while _ test body => repeatWhile table n test body
    | .function name params body => do
      let f ← newFunction table name params body
      lift (Run.define name.lexeme f)
      pure .normal
    | .return keyword none => pure (.returned .nil keyword)
    | .return keyword (some e) => do
      let v ← eval table n e
      pure (.returned v keyword)
    | .branch keyword =>
      pure (if keyword.kind = .break then .broken keyword else .continued keyword)

/-- Executes a statement as long as an expression is true and nothing but `continue` leaves it. -/
def repeatWhile (table : Table) : Nat → Expr NodeId → Stmt NodeId → Tabled Completion
  | 0, _, _ => lift (Run.fail .outOfFuel)
  | n + 1, test, body => do
    let v ← eval table n test
    if v.truth then
      match ← exec table n body with
      | .broken _ => pure .normal
      | .returned v t => pure (.returned v t)
      | .normal | .continued _ => repeatWhile table n test body
    else pure .normal

/-- Executes statements one after the other, up to the first that leaves them. -/
def execAll (table : Table) : Nat → List (Stmt NodeId) → Tabled Completion
  | 0, _ => lift (Run.fail .outOfFuel)
  | _ + 1, [] => pure .normal
  | n + 1, s :: ss => do
    match ← exec table n s with
    | .normal => execAll table n ss
    | completion => pure completion

end

/-- Runs the statements of a program, from top level. -/
def interpretAll (table : Table) (n : Nat) : Program NodeId → Tabled Unit
  | [] => pure ()
  | s :: ss => do
    let completion ← exec table n s
    lift (Run.endProgram completion)
    interpretAll table n ss

/-- Runs a program in the global environment. -/
def interpret (table : Table) (n : Nat) (p : Program NodeId) : Tabled Unit := fun code m ↦
  interpretAll table n p code m.atTopLevel

/-- Evaluates an expression in the global environment. -/
def evaluate (table : Table) (n : Nat) (e : Expr NodeId) : Tabled Value := fun code m ↦
  eval table n e code m.atTopLevel

end Tabled

/-! ## Where values go -/

/-- A value that has a property if it is a declared function. -/
def Value.IfFunction (P : Closure → Prop) : Value → Prop
  | .function f => P f
  | _ => True

private theorem Value.IsData.ifFunction {P : Closure → Prop} {v : Value} (h : v.IsData) :
    v.IfFunction P := by
  cases v with
  | function f => exact h.elim
  | _ => exact trivial

/-- All functions that variables hold have a property. -/
def Machine.Holds (m : Machine) (P : Closure → Prop) : Prop :=
  ∀ e x v, m.heap.lookup e x = some v → v.IfFunction P

namespace Run

variable {α β : Type}

/-- A step that makes no function: those that it leaves in variables or yields it found, or was
given. -/
def Carries (P : Closure → Prop) (good : α → Prop) (r : Run α) : Prop := ∀ m : Machine, m.Holds P →
  (r m).after.Holds P ∧ (r m).after.nextFunction = m.nextFunction ∧
    ∀ a m', r m = .done a m' → good a

variable {P : Closure → Prop} {good : α → Prop}

private theorem carries_succeed {a : α} (ha : good a) : Carries P good (succeed a) := by
  refine fun m h ↦ ⟨h, rfl, ?_⟩
  rintro _ _ ⟨⟩
  exact ha

private theorem carries_fail (f : Fault) : Carries P good (fail f : Run α) :=
  fun _ h ↦ ⟨h, rfl, nofun⟩

private theorem carries_raise (t : Token) (cause : RuntimeError.Cause) :
    Carries P good (raise t cause : Run α) := fun _ h ↦ ⟨h, rfl, nofun⟩

private theorem carries_bind {r : Run α} {f : α → Run β} {good' : β → Prop} (h : Carries P good r)
    (hf : ∀ a, good a → Carries P good' (f a)) : Carries P good' (r >>= f) := by
  intro m hm
  obtain ⟨hholds, hnext, hgood⟩ := h m hm
  change (andThen r f m).after.Holds P ∧ (andThen r f m).after.nextFunction = m.nextFunction ∧
    ∀ a m', andThen r f m = .done a m' → good' a
  unfold andThen
  cases ho : r m with
  | done a m' =>
    rw [ho] at hholds hnext
    obtain ⟨hholds', hnext', hgood'⟩ := hf a (hgood a m' ho) m' hholds
    exact ⟨hholds', hnext'.trans hnext, hgood'⟩
  | failed e m' =>
    rw [ho] at hholds hnext
    exact ⟨hholds, hnext, nofun⟩

/-- A step that binds a name in some environment. -/
theorem carries_define (e : Machine → EnvId) (x : Bytes) {v : Value} (hv : v.IfFunction P) :
    Carries P (fun _ ↦ True) (change fun m ↦ { m with heap := m.heap.define (e m) x v }) := by
  refine fun m h ↦ ⟨fun e' y w hw ↦ ?_, rfl, fun _ _ _ ↦ trivial⟩
  rw [change, Outcome.after_done, Heap.lookup_define] at hw
  split at hw
  · cases hw
    exact hv
  · exact h e' y w hw

private theorem carries_look {f : Machine → α} (hf : ∀ m : Machine, m.Holds P → good (f m)) :
    Carries P good (look f) := by
  refine fun m h ↦ ⟨h, rfl, ?_⟩
  rintro _ _ ⟨⟩
  exact hf m h

private theorem carries_print (text : Bytes) : Carries P (fun _ ↦ True) (print text) :=
  fun _ h ↦ ⟨h, rfl, fun _ _ _ ↦ trivial⟩

private theorem carries_newEnv (e : EnvId) : Carries P (fun _ ↦ True) (newEnv e) := by
  refine fun m h ↦ ⟨fun e' y w hw ↦ ?_, rfl, fun _ _ _ ↦ trivial⟩
  rw [newEnv, Outcome.after_done, Heap.lookup_push] at hw
  exact h e' y w hw

private theorem carries_bindParams (e : EnvId) (ps : List Token) {vs : List Value}
    (hvs : ∀ v ∈ vs, v.IfFunction P) : Carries P (fun _ ↦ True) (bindParams e ps vs) := by
  induction ps generalizing vs with
  | nil => exact carries_succeed trivial
  | cons p ps ih =>
    cases vs with
    | nil => exact carries_fail _
    | cons v vs =>
      obtain ⟨hv, hvs⟩ := List.forall_mem_cons.mp hvs
      exact carries_bind (carries_define (fun _ ↦ e) p.lexeme hv) fun _ _ ↦ ih hvs

private theorem carries_lookup (name : Token) (b : Binding) :
    Carries P (Value.IfFunction P) (lookup name b) := by
  intro m h
  have hl := looked name b m
  generalize lookup name b m = o at hl
  cases hl with
  | found hv => exact carries_succeed (h _ _ _ hv) m h
  | undefined => exact carries_raise name _ m h
  | stuck => exact carries_fail _ m h

private theorem carries_assign (name : Token) (b : Binding) {v : Value} (hv : v.IfFunction P) :
    Carries P (fun _ ↦ True) (assign name b v) := by
  intro m h
  have ha := assigned name b v m
  generalize assign name b v m = o at ha
  cases ha with
  | defined e => exact carries_define (fun _ ↦ e) name.lexeme hv m h
  | undefined => exact carries_raise name _ m h
  | stuck => exact carries_fail _ m h

private theorem Applied.carries {kinds : List Kind} {op : Token} {r : Run Value}
    (h : Applied kinds op r) : Carries P (Value.IfFunction P) r := by
  cases h with
  | data hv => exact carries_succeed hv.ifFunction
  | raised => exact carries_raise op _
  | stuck => exact carries_fail _

private theorem carries_perform (f : Builtin) {args : List Value}
    (hargs : ∀ v ∈ args, v.IfFunction P) : Carries P (Value.IfFunction P) (perform f args) := by
  intro m h
  have hp := performed f args m
  generalize perform f args m = o at hp
  cases hp with
  | data hv => exact carries_succeed hv.ifFunction m h
  | arg hv => exact carries_succeed (hargs _ hv) m h
  | failed e => exact carries_fail _ m h
  | stuck => exact carries_fail _ m h

private theorem carries_returnValue {c : Completion}
    (hc : ∀ v t, c = .returned v t → v.IfFunction P) :
    Carries P (Value.IfFunction P) (returnValue c) := by
  cases c with
  | normal => exact carries_succeed trivial
  | returned v t => exact carries_succeed (hc v t rfl)
  | broken t => exact carries_raise t _
  | continued t => exact carries_raise t _

private theorem carries_endProgram (c : Completion) : Carries P (fun _ ↦ True) (endProgram c) := by
  cases c with
  | normal => exact carries_succeed trivial
  | returned v t => exact carries_raise t _
  | broken t => exact carries_raise t _
  | continued t => exact carries_raise t _

end Run

/-! ## Running by the table -/

/-- A table, and the first identity that no use has yet. -/
structure Directory where
  table : Table
  next : NodeId

/-- What was kept of functions is kept. -/
def Code.Later (code code' : Code) : Prop :=
  ∀ id body, code.lookup id = some body → code'.lookup id = some body

/-- What is kept is kept. -/
theorem Code.Later.refl (code : Code) : code.Later code := fun _ _ h ↦ h

/-- What is kept later on is kept still later. -/
theorem Code.Later.trans {c₁ c₂ c₃ : Code} (h : c₁.Later c₂) (h' : c₂.Later c₃) : c₁.Later c₃ :=
  fun id body hid ↦ h' id body (h id body hid)

namespace Directory

variable {α β : Type} {k : Directory} {code code' : Code}

/-- All uses with these identities exist. -/
def Covers (k : Directory) (ids : List NodeId) : Prop := ∀ id ∈ ids, id < k.next

private theorem covers_append {ids ids' : List NodeId} :
    k.Covers (ids ++ ids') ↔ k.Covers ids ∧ k.Covers ids' := List.forall_mem_append

/-- What is kept of a function is what it was declared with: the table gives the bindings that its
body has. -/
def Knows (k : Directory) (code : Code) (f : Closure) : Prop :=
  ∃ body, code.lookup f.id = some body ∧ f.body = Stmt.mapUsesList k.table.binding body ∧
    k.Covers (Stmt.labelsAll body)

/-- A function whose body is kept stays one. -/
theorem Knows.later {f : Closure} (h : k.Knows code f) (hc : code.Later code') :
    k.Knows code' f := by
  obtain ⟨body, hbody, heq, hcov⟩ := h
  exact ⟨body, hc _ _ hbody, heq, hcov⟩

/-- A value that is not a function, or one of which is kept what it was declared with. -/
def Good (k : Directory) (code : Code) (v : Value) : Prop := v.IfFunction (k.Knows code)

/-- A value that is good stays good when more is kept. -/
theorem Good.later {v : Value} (h : k.Good code v) (hc : code.Later code') : k.Good code' v := by
  cases v with
  | function f => exact Knows.later h hc
  | _ => exact trivial

/-- Literals are good. -/
theorem good_ofLiteral (v : Literal) : k.Good code (.ofLiteral v) := by
  cases v <;> exact trivial

/-- Of all functions that a machine holds is kept what they were declared with. -/
structure Ready (k : Directory) (code : Code) (m : Machine) : Prop where
  holds : m.Holds (k.Knows code)
  fresh : ∀ id body, code.lookup id = some body → id < m.nextFunction

/-- Only the heap and the identities of functions matter. -/
theorem Ready.of_eq {m m' : Machine} (h : k.Ready code m) (hh : m'.heap = m.heap)
    (hf : m'.nextFunction = m.nextFunction) : k.Ready code m' := by
  refine ⟨fun e x v hv ↦ ?_, fun id body hid ↦ ?_⟩
  · rw [hh] at hv
    exact h.holds e x v hv
  · rw [hf]
    exact h.fresh id body hid

/-- A table that has the same entries for all uses that another one knows of. -/
structure Grown (k k' : Directory) : Prop where
  next : k.next ≤ k'.next
  table : ∀ id < k.next, k'.table.lookup id = k.table.lookup id

/-- A directory has grown from itself. -/
theorem Grown.refl (k : Directory) : k.Grown k := ⟨Nat.le_refl _, fun _ _ ↦ rfl⟩

/-- What has grown from a grown directory has grown from the first one. -/
theorem Grown.trans {k₁ k₂ k₃ : Directory} (h : k₁.Grown k₂) (h' : k₂.Grown k₃) : k₁.Grown k₃ :=
  ⟨Nat.le_trans h.next h'.next, fun id hid ↦
    (h'.table id (Nat.lt_of_lt_of_le hid h.next)).trans (h.table id hid)⟩

/-- A function that is known to a directory is known to one that has grown from it. -/
theorem Knows.grown {k' : Directory} {f : Closure} (h : k.Knows code f) (hk : k.Grown k') :
    k'.Knows code f := by
  obtain ⟨body, hbody, heq, hcov⟩ := h
  refine ⟨body, hbody, heq.trans ?_, fun id hid ↦ Nat.lt_of_lt_of_le (hcov id hid) hk.next⟩
  refine Stmt.mapUsesList_congr body fun id hid ↦ ?_
  rw [Table.binding, Table.binding, hk.table id (hcov id hid)]

/-- A value that is good for a directory is good for one that has grown from it. -/
theorem Good.grown {k' : Directory} {v : Value} (h : k.Good code v) (hk : k.Grown k') :
    k'.Good code v := by
  cases v with
  | function f => exact Knows.grown h hk
  | _ => exact trivial

/-- Entries for other uses do not matter to the functions there are. -/
theorem Ready.grown {k' : Directory} {m : Machine} (h : k.Ready code m) (hk : k.Grown k') :
    k'.Ready code m :=
  ⟨fun e x v hv ↦ Good.grown (h.holds e x v hv) hk, h.fresh⟩

/-- A step that keeps what functions are declared with comes to the same as a step on the machine
alone, and what it keeps is right. -/
structure Answers (k : Directory) (code : Code) (good : Code → α → Prop) (o' : Outcome α × Code)
    (o : Outcome α) : Prop where
  same : o'.1 = o
  ready : k.Ready o'.2 o.after
  later : code.Later o'.2
  value : ∀ a m, o = .done a m → good o'.2 a

private theorem Answers.failed {good : Code → α → Prop} {m : Machine} (hm : k.Ready code' m)
    (hc : code.Later code') (f : Fault) :
    k.Answers code good (.failed f m, code') (.failed f m) :=
  ⟨rfl, hm, hc, nofun⟩

/-- One step does by the table what the other does with bindings, on every machine of whose
functions is kept what they were declared with. -/
def Follows (k : Directory) (code : Code) (good : Code → α → Prop) (r' : Tabled α) (r : Run α) :
    Prop :=
  ∀ m, k.Ready code m → k.Answers code good (r' code m) (r m)

/-- Nothing is asked of a value. -/
def Any (_ : Code) (_ : α) : Prop := True

/-- The values that a list has. -/
def AllGood (k : Directory) (code : Code) (vs : List Value) : Prop := ∀ v ∈ vs, k.Good code v

private theorem AllGood.later {vs : List Value} (h : k.AllGood code vs) (hc : code.Later code') :
    k.AllGood code' vs := fun v hv ↦ (h v hv).later hc

/-- A value that is returned. -/
def Returns (k : Directory) (code : Code) (c : Completion) : Prop :=
  ∀ v t, c = .returned v t → k.Good code v

private theorem returns_normal : k.Returns code .normal := by
  rintro _ _ ⟨⟩

private theorem returns_returned {v : Value} (hv : k.Good code v) (t : Token) :
    k.Returns code (.returned v t) := by
  rintro _ _ ⟨⟩
  exact hv

section Steps

variable {good : Code → α → Prop}

private theorem follows_lift {r : Run α} (h : Run.Carries (k.Knows code) (good code) r) :
    k.Follows code good (Tabled.lift r) r := by
  intro m hm
  obtain ⟨hholds, hnext, hgood⟩ := h m hm.holds
  refine ⟨rfl, ⟨hholds, fun id body hid ↦ ?_⟩, .refl code, hgood⟩
  rw [hnext]
  exact hm.fresh id body hid

/-- A step that is done for its effect. -/
theorem follows_effect {r : Run α} (h : Run.Carries (k.Knows code) (fun _ ↦ True) r) :
    k.Follows code Any (Tabled.lift r) r := follows_lift h

private theorem follows_pure {a : α} (ha : good code a) :
    k.Follows code good (pure a) (Run.succeed a) :=
  follows_lift (Run.carries_succeed ha)

private theorem follows_bind {good' : Code → β → Prop} {r' : Tabled α} {r : Run α}
    {f' : α → Tabled β} {f : α → Run β} (h : k.Follows code good r' r)
    (hf : ∀ a code', code.Later code' → good code' a → k.Follows code' good' (f' a) (f a)) :
    k.Follows code good' (r' >>= f') (r >>= f) := by
  intro m hm
  have hr := h m hm
  change k.Answers code good' (Tabled.andThen r' f' code m) (Run.andThen r f m)
  unfold Tabled.andThen Run.andThen
  generalize r' code m = out, r m = o at hr
  obtain ⟨o', code'⟩ := out
  obtain ⟨rfl, hready, hlater, hgood⟩ := hr
  cases o' with
  | done a m' =>
    have hnext := hf a code' hlater (hgood a m' rfl) m' hready
    exact ⟨hnext.same, hnext.ready, hlater.trans hnext.later, hnext.value⟩
  | failed e m' => exact .failed hready hlater _

private theorem follows_ite {r' t' : Tabled α} {r t : Run α} {p : Prop} [Decidable p]
    (h : k.Follows code good r' r) (h' : k.Follows code good t' t) :
    k.Follows code good (if p then r' else t') (if p then r else t) := by
  split
  · exact h
  · exact h'

private theorem follows_inEnv {r' : Tabled α} {r : Run α} (h : k.Follows code good r' r)
    (e : EnvId) : k.Follows code good (Tabled.inEnv e r') (Run.inEnv e r) := by
  intro m hm
  have hr := h { m with env := e } (hm.of_eq rfl rfl)
  unfold Tabled.inEnv Run.inEnv
  dsimp only
  generalize r' code { m with env := e } = out, r { m with env := e } = o at hr
  obtain ⟨o', code'⟩ := out
  obtain ⟨rfl, hready, hlater, hgood⟩ := hr
  cases o' with
  | done a m' =>
    refine ⟨rfl, hready.of_eq rfl rfl, hlater, ?_⟩
    rintro _ _ ⟨⟩
    exact hgood a m' rfl
  | failed f m' =>
    refine .failed ?_ hlater _
    exact hready.of_eq rfl rfl

private theorem follows_inCall {r' : Tabled α} {r : Run α} (h : k.Follows code good r' r)
    (callee : Bytes) (line : Int) :
    k.Follows code good (Tabled.inCall callee line r') (Run.inCall callee line r) := by
  intro m hm
  have hr := h { m.setLine line with stack := ⟨some callee, 0⟩ :: (m.setLine line).stack }
    (hm.of_eq rfl rfl)
  unfold Tabled.inCall Run.inCall
  dsimp only
  generalize
    r' code { m.setLine line with stack := ⟨some callee, 0⟩ :: (m.setLine line).stack } = out,
    r { m.setLine line with stack := ⟨some callee, 0⟩ :: (m.setLine line).stack } = o at hr
  obtain ⟨o', code'⟩ := out
  obtain ⟨rfl, hready, hlater, hgood⟩ := hr
  cases o' with
  | done a m' =>
    dsimp only
    cases m'.stack with
    | nil => exact .failed hready hlater _
    | cons f rest =>
      refine ⟨rfl, hready.of_eq rfl rfl, hlater, ?_⟩
      rintro _ _ ⟨⟩
      exact hgood a m' rfl
  | failed f m' =>
    dsimp only
    cases m'.stack with
    | nil => exact .failed hready hlater _
    | cons f rest =>
      refine .failed ?_ hlater _
      exact hready.of_eq rfl rfl

private theorem follows_located {good : Code → Value → Prop} {r' : Tabled Value} {r : Run Value}
    (h : k.Follows code good r' r) (paren : Token) :
    k.Follows code good (Tabled.located paren r') (Run.located paren r) := by
  intro m hm
  have hr := h m hm
  unfold Tabled.located Run.located
  dsimp only
  generalize r' code m = out, r m = o at hr
  obtain ⟨o', code'⟩ := out
  obtain ⟨rfl, hready, hlater, hgood⟩ := hr
  cases o' with
  | done a m' => exact ⟨rfl, hready, hlater, hgood⟩
  | failed f m' =>
    cases f with
    | call e =>
      refine .failed ?_ hlater _
      exact hready.of_eq rfl rfl
    | runtime e => exact .failed hready hlater _
    | outOfFuel => exact .failed hready hlater _
    | stuck => exact .failed hready hlater _

/-- The value that a call comes to, of which is kept what it was declared with if it is a
function. -/
def GoodEnd (k : Directory) (code : Code) : Except Fault Value → Prop :=
  Procedure.EndsWith (k.Good code) fun _ ↦ True

private theorem follows_attempt {r' : Tabled Value} {r : Run Value}
    (h : k.Follows code k.Good r' r) :
    k.Follows code k.GoodEnd (Tabled.attempt r') (Run.attempt r) := by
  intro m hm
  have hr := h m hm
  unfold Tabled.attempt Run.attempt
  dsimp only
  generalize r' code m = out, r m = o at hr
  obtain ⟨o', code'⟩ := out
  obtain ⟨rfl, hready, hlater, hgood⟩ := hr
  cases o' with
  | done v m' =>
    refine ⟨rfl, hready, hlater, ?_⟩
    rintro _ _ ⟨⟩
    exact hgood v m' rfl
  | failed f m' =>
    dsimp only
    split
    · refine ⟨rfl, hready, hlater, ?_⟩
      rintro _ _ ⟨⟩
      exact trivial
    · exact .failed hready hlater _

/-- A procedure does by the table what it does with bindings if its calls do. -/
theorem follows_serve {call' : Value → List Value → Int → Tabled Value}
    {call : Value → List Value → Int → Run Value}
    (hcall : ∀ code f args line, k.Good code f → k.AllGood code args →
      k.Follows code k.Good (call' f args line) (call f args line))
    (callee : Bytes) (p : Procedure) {d : Procedure.Hand}
    (hd : d.Holds (k.Good code) fun _ ↦ True) :
    k.Follows code k.Good (Run.serve Tabled.lift Tabled.attempt call' callee p d)
      (Run.serve id Run.attempt call callee p d) := by
  induction p generalizing code d with
  | yield x => exact follows_pure (hd.value good_ofLiteral x)
  | fail message => exact follows_lift (Run.carries_fail _)
  | rethrow i => exact follows_lift (Run.carries_fail _)
  | call f args line next ih =>
    have hf := hd.value good_ofLiteral f
    have hargs := hd.values_map good_ofLiteral args
    exact follows_bind (follows_attempt (hcall code _ _ line hf hargs)) fun result _ hl hresult ↦
      ih _ ((hd.mono fun v hv ↦ hv.later hl).add hresult)
  | read name next ih =>
    have hglobal : k.Follows code (fun code a ↦ ∀ v, a = some v → k.Good code v)
        (Tabled.lift (Run.look fun m ↦ m.heap.get? Machine.globals name))
        (Run.look fun m ↦ m.heap.get? Machine.globals name) := by
      refine follows_lift (Run.carries_look fun m hm v hv ↦ ?_)
      rw [Machine.globals, Heap.get?_zero] at hv
      exact hm _ _ v hv
    exact follows_bind hglobal fun a _ hl ha ↦ ih _ ((hd.mono fun v hv ↦ hv.later hl).addValue ha)
  | define name x next ih =>
    have hx := hd.value good_ofLiteral x
    exact follows_bind (follows_effect (Run.carries_define (fun _ ↦ Machine.globals) name hx))
      fun _ _ hl _ ↦ ih (hd.mono fun v hv ↦ hv.later hl)

/-- The body of a new function is kept under an identity that no function has. -/
theorem follows_newFunction (name : Token) (params : List Token) {body : Program NodeId}
    (hbody : k.Covers (Stmt.labelsAll body)) :
    k.Follows code k.Good (Tabled.newFunction k.table name params body)
      (Run.newFunction name params (Stmt.mapUsesList k.table.binding body)) := by
  intro m hm
  -- the new entry hides none
  have hlater : code.Later ((m.nextFunction, body) :: code) := by
    intro id body' hid
    have hne : id ≠ m.nextFunction := Nat.ne_of_lt (hm.fresh id body' hid)
    rw [List.lookup_cons, beq_eq_false_iff_ne.mpr hne]
    exact hid
  refine ⟨rfl, ⟨fun e x v hv ↦ Good.later (hm.holds e x v hv) hlater, fun id body' hid ↦ ?_⟩,
    hlater, ?_⟩
  · change id < m.nextFunction + 1
    by_cases hne : id = m.nextFunction
    · exact Nat.lt_succ_of_le (Nat.le_of_eq hne)
    · rw [Tabled.newFunction, List.lookup_cons, beq_eq_false_iff_ne.mpr hne] at hid
      exact Nat.lt_succ_of_lt (hm.fresh id body' hid)
  · rintro _ _ ⟨⟩
    exact ⟨body, List.lookup_cons_self, rfl, hbody⟩

/-- A function is run from what it was declared with. -/
theorem follows_bodyOf {f : Closure} {g : Program NodeId → Tabled α} {r : Run α}
    (hf : k.Knows code f)
    (h : ∀ body, f.body = Stmt.mapUsesList k.table.binding body → k.Covers (Stmt.labelsAll body) →
      k.Follows code good (g body) r) :
    k.Follows code good (Tabled.bodyOf f >>= g) r := by
  obtain ⟨body, hlookup, hbody, hcov⟩ := hf
  intro m hm
  have hrun : (Tabled.bodyOf f >>= g) code m = g body code m := by
    change Tabled.andThen (Tabled.bodyOf f) g code m = g body code m
    simp only [Tabled.andThen, Tabled.bodyOf, hlookup]
  rw [hrun]
  exact h body hbody hcov m hm

end Steps

/-! ## Evaluation by the table -/

-- Evaluation by the table with some fuel does what evaluation with bindings does.
private structure FollowsAt (k : Directory) (n : Nat) : Prop where
  eval : ∀ code e, k.Covers (Expr.labels e) →
    k.Follows code k.Good (Tabled.eval k.table n e) (Run.eval n (e.mapUses k.table.binding))
  evalAll : ∀ code es, k.Covers (Expr.labelsAll es) → k.Follows code k.AllGood
    (Tabled.evalAll k.table n es) (Run.evalAll n (Expr.mapUsesList k.table.binding es))
  call : ∀ code f args line, k.Good code f → k.AllGood code args →
    k.Follows code k.Good (Tabled.call k.table n f args line) (Run.call n f args line)
  exec : ∀ code s, k.Covers (Stmt.labels s) →
    k.Follows code k.Returns (Tabled.exec k.table n s) (Run.exec n (s.mapUses k.table.binding))
  repeatWhile : ∀ code test body, k.Covers (Expr.labels test) → k.Covers (Stmt.labels body) →
    k.Follows code k.Returns (Tabled.repeatWhile k.table n test body)
      (Run.repeatWhile n (test.mapUses k.table.binding) (body.mapUses k.table.binding))
  execAll : ∀ code ss, k.Covers (Stmt.labelsAll ss) → k.Follows code k.Returns
    (Tabled.execAll k.table n ss) (Run.execAll n (Stmt.mapUsesList k.table.binding ss))

section Succ

variable {n : Nat}

private theorem follows_eval_succ (ih : k.FollowsAt n) (e : Expr NodeId)
    (he : k.Covers e.labels) :
    k.Follows code k.Good (Tabled.eval k.table (n + 1) e)
      (Run.eval (n + 1) (e.mapUses k.table.binding)) := by
  cases e with
  | literal t v => exact follows_pure (good_ofLiteral v)
  | grouping t x => exact ih.eval code x he
  | unary op x =>
    exact follows_bind (ih.eval code x he) fun v _ _ _ ↦
      follows_lift (Run.applied_unary op v).carries
  | binary x op y =>
    obtain ⟨hx, hy⟩ := covers_append.mp he
    exact follows_bind (ih.eval code x hx) fun v _ _ _ ↦ follows_bind (ih.eval _ y hy) fun w _ _ _ ↦
      follows_lift (Run.applied_binary op v w).carries
  | logical x op y =>
    obtain ⟨hx, hy⟩ := covers_append.mp he
    exact follows_bind (ih.eval code x hx) fun v _ _ hv ↦
      follows_ite (follows_pure hv) (ih.eval _ y hy)
  | «variable» name id => exact follows_lift (Run.carries_lookup name _)
  | assign name id x =>
    have hx : k.Covers x.labels := fun i hi ↦ he i (List.mem_cons_of_mem _ hi)
    exact follows_bind (ih.eval code x hx) fun v _ _ hv ↦
      follows_bind (follows_effect (Run.carries_assign name _ hv)) fun _ _ hl _ ↦
        follows_pure (hv.later hl)
  | call c paren args =>
    obtain ⟨hc, hargs⟩ := covers_append.mp he
    exact follows_bind (ih.eval code c hc) fun f _ _ hf ↦
      follows_bind (ih.evalAll _ args hargs) fun vs _ hl hvs ↦
        follows_located (ih.call _ f vs paren.line (hf.later hl) hvs) paren

private theorem follows_evalAll_succ (ih : k.FollowsAt n) (es : List (Expr NodeId))
    (hes : k.Covers (Expr.labelsAll es)) :
    k.Follows code k.AllGood (Tabled.evalAll k.table (n + 1) es)
      (Run.evalAll (n + 1) (Expr.mapUsesList k.table.binding es)) := by
  cases es with
  | nil => exact follows_pure fun _ hv ↦ nomatch hv
  | cons e es =>
    obtain ⟨he, hes⟩ := covers_append.mp hes
    exact follows_bind (ih.eval code e he) fun v _ _ hv ↦
      follows_bind (ih.evalAll _ es hes) fun vs _ hl hvs ↦
        follows_pure (List.forall_mem_cons.mpr ⟨hv.later hl, hvs⟩)

private theorem follows_call_succ (ih : k.FollowsAt n) (f : Value) (args : List Value) (line : Int)
    (hf : k.Good code f) (hargs : k.AllGood code args) :
    k.Follows code k.Good (Tabled.call k.table (n + 1) f args line)
      (Run.call (n + 1) f args line) := by
  have hfail (e : Fault) : k.Follows code k.Good (Tabled.lift (Run.fail e)) (Run.fail e) :=
    follows_lift (Run.carries_fail e)
  cases f with
  | function f =>
    refine follows_ite (follows_inCall ?_ f.name.lexeme line) (hfail _)
    refine follows_bodyOf hf fun body hbody hcov ↦ ?_
    rw [hbody]
    exact follows_bind (follows_effect (Run.carries_newEnv f.env)) fun e _ hl _ ↦
      follows_bind (follows_effect
        (Run.carries_bindParams e f.params (hargs.later hl))) fun _ _ _ _ ↦
        follows_bind (follows_inEnv (ih.execAll _ body hcov) e) fun c _ _ hc ↦
          follows_lift (Run.carries_returnValue hc)
  | builtin f =>
    refine follows_ite (follows_inCall ?_ f.name line) (hfail _)
    have hperform : k.Follows code k.Good (Tabled.lift (Run.perform f args)) (Run.perform f args) :=
      follows_lift (Run.carries_perform f hargs)
    cases f.action with
    | procedure p =>
      have hcallers : Run.Carries (k.Knows code) (fun _ ↦ True) (Run.look fun m ↦ m.stack.tail) :=
        Run.carries_look fun _ _ ↦ trivial
      exact follows_bind (follows_effect hcallers) fun _ _ hl _ ↦
        follows_serve ih.call _ _ (.ofArgs (hargs.later hl))
    | _ => exact hperform
  | nil => exact hfail _
  | bool b => exact hfail _
  | number x => exact hfail _
  | text s => exact hfail _

private theorem follows_exec_succ (ih : k.FollowsAt n) (s : Stmt NodeId)
    (hs : k.Covers s.labels) :
    k.Follows code k.Returns (Tabled.exec k.table (n + 1) s)
      (Run.exec (n + 1) (s.mapUses k.table.binding)) := by
  have hnormal (code : Code) : k.Follows code k.Returns (pure .normal) (Run.succeed .normal) :=
    follows_pure returns_normal
  have hdefine {code : Code} (x : Bytes) {v : Value} (hv : k.Good code v) :
      k.Follows code Any (Tabled.lift (Run.define x v)) (Run.define x v) :=
    follows_lift (Run.carries_define Machine.env x hv)
  cases s with
  | expr e => exact follows_bind (ih.eval code e hs) fun _ _ _ _ ↦ hnormal _
  | print t e =>
    exact follows_bind (ih.eval code e hs) fun v _ _ _ ↦
      follows_bind (follows_effect (Run.carries_print v.display)) fun _ _ _ _ ↦ hnormal _
  | var name init =>
    cases init with
    | none => exact follows_bind (hdefine name.lexeme trivial) fun _ _ _ _ ↦ hnormal _
    | some e =>
      exact follows_bind (ih.eval code e hs) fun v _ _ hv ↦
        follows_bind (hdefine name.lexeme hv) fun _ _ _ _ ↦ hnormal _
  | block t body =>
    intro m hm
    exact follows_bind (follows_effect (Run.carries_newEnv m.env)) (fun e _ _ _ ↦
      follows_inEnv (ih.execAll _ body hs) e) m hm
  | ifElse t test yes no =>
    cases no with
    | none =>
      obtain ⟨htest, hyes⟩ := covers_append.mp hs
      exact follows_bind (ih.eval code test htest) fun v _ _ _ ↦
        follows_ite (ih.exec _ yes hyes) (hnormal _)
    | some no =>
      obtain ⟨htest, hrest⟩ := covers_append.mp hs
      obtain ⟨hyes, hno⟩ := covers_append.mp hrest
      exact follows_bind (ih.eval code test htest) fun v _ _ _ ↦
        follows_ite (ih.exec _ yes hyes) (ih.exec _ no hno)
  | «while» t test body =>
    obtain ⟨htest, hbody⟩ := covers_append.mp hs
    exact ih.repeatWhile code test body htest hbody
  | function name params body =>
    exact follows_bind (follows_newFunction name params hs) fun f _ _ hf ↦
      follows_bind (hdefine name.lexeme hf) fun _ _ _ _ ↦ hnormal _
  | «return» t result =>
    cases result with
    | none =>
      have hnil : k.Good code .nil := trivial
      exact follows_pure (returns_returned hnil t)
    | some e =>
      exact follows_bind (ih.eval code e hs) fun v _ _ hv ↦ follows_pure (returns_returned hv t)
  | branch t =>
    refine follows_pure fun v t' h ↦ ?_
    split at h <;> cases h

private theorem follows_repeatWhile_succ (ih : k.FollowsAt n) (test : Expr NodeId)
    (body : Stmt NodeId) (htest : k.Covers test.labels) (hbody : k.Covers body.labels) :
    k.Follows code k.Returns (Tabled.repeatWhile k.table (n + 1) test body)
      (Run.repeatWhile (n + 1) (test.mapUses k.table.binding) (body.mapUses k.table.binding)) := by
  refine follows_bind (ih.eval code test htest) fun v _ _ _ ↦
    follows_ite ?_ (follows_pure returns_normal)
  refine follows_bind (ih.exec _ body hbody) fun c _ _ hc ↦ ?_
  cases c with
  | normal => exact ih.repeatWhile _ test body htest hbody
  | returned v t => exact follows_pure hc
  | broken t => exact follows_pure returns_normal
  | continued t => exact ih.repeatWhile _ test body htest hbody

private theorem follows_execAll_succ (ih : k.FollowsAt n) (ss : List (Stmt NodeId))
    (hss : k.Covers (Stmt.labelsAll ss)) :
    k.Follows code k.Returns (Tabled.execAll k.table (n + 1) ss)
      (Run.execAll (n + 1) (Stmt.mapUsesList k.table.binding ss)) := by
  cases ss with
  | nil => exact follows_pure returns_normal
  | cons s ss =>
    obtain ⟨hs, hss⟩ := covers_append.mp hss
    refine follows_bind (ih.exec code s hs) fun c _ _ hc ↦ ?_
    cases c with
    | normal => exact ih.execAll _ ss hss
    | returned v t => exact follows_pure hc
    | broken t => exact follows_pure hc
    | continued t => exact follows_pure hc

end Succ

private theorem followsAt (k : Directory) (n : Nat) : k.FollowsAt n := by
  induction n with
  | zero => constructor <;> intros <;> exact follows_lift (Run.carries_fail _)
  | succ n ih =>
    exact ⟨fun _ ↦ follows_eval_succ ih, fun _ ↦ follows_evalAll_succ ih,
      fun _ ↦ follows_call_succ ih, fun _ ↦ follows_exec_succ ih,
      fun _ ↦ follows_repeatWhile_succ ih, fun _ ↦ follows_execAll_succ ih⟩

private theorem follows_interpretAll (n : Nat) (p : Program NodeId)
    (hp : k.Covers (Stmt.labelsAll p)) :
    k.Follows code Any (Tabled.interpretAll k.table n p)
      (Run.interpretAll n (Stmt.mapUsesList k.table.binding p)) := by
  induction p generalizing code with
  | nil => exact follows_pure trivial
  | cons s ss ih =>
    obtain ⟨hs, hss⟩ := covers_append.mp hp
    exact follows_bind ((followsAt k n).exec code s hs) fun c _ _ _ ↦
      follows_bind (follows_effect (Run.carries_endProgram c)) fun _ _ _ _ ↦ ih hss

/-- Running a program by the table is running it with the bindings that the table has for it. -/
theorem follows_interpret (n : Nat) {p : Program NodeId} (hp : k.Covers (Stmt.labelsAll p)) :
    k.Follows code Any (Tabled.interpret k.table n p)
      (Run.interpret n (Stmt.mapUsesList k.table.binding p)) :=
  fun m hm ↦ follows_interpretAll n p hp m.atTopLevel (hm.of_eq rfl rfl)

/-- Evaluating an expression by the table is evaluating it with the bindings that the table has. -/
theorem follows_evaluate (n : Nat) {e : Expr NodeId} (he : k.Covers e.labels) :
    k.Follows code k.Good (Tabled.evaluate k.table n e)
      (Run.evaluate n (e.mapUses k.table.binding)) :=
  fun m hm ↦ (followsAt k n).eval code e he m.atTopLevel (hm.of_eq rfl rfl)

/-- A function that is run by the table does what it does with the bindings of its body. -/
theorem follows_call (n : Nat) {f : Value} {args : List Value} (hf : k.Good code f)
    (hargs : k.AllGood code args) (line : Int) :
    k.Follows code k.Good (Tabled.call k.table n f args line) (Run.call n f args line) :=
  (followsAt k n).call code f args line hf hargs

end Directory
end Lox
