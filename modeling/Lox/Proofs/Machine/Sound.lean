import Lox.Proofs.Machine.Order
import Lox.Proofs.Scope.Fit

/-!
# Scopes and environments agree

The scopes that are open at a point of a run are those of the environments from the current one
outwards, one for one, up to the global environment: `Context.Matches`. Where a scope has a name
that is ready, its environment has a value of it. Functions keep the environment and the scopes of
their declaration, which match too, and the code of a function fits its scopes. A machine on which
all this holds, of every value that can be reached, is `Sound`; running code that fits keeps it so,
and meets nothing that there is no rule for.
-/

namespace Lox

/-- The open scopes are those of an environment and of those around it, up to the global one. -/
def Context.Matches (h : Heap) : EnvId → Context → Prop
  | e, [] => e = Machine.globals
  | e, o :: rest =>
    o.env = e ∧ e ≠ Machine.globals ∧
      (∀ x, o.scope.lookup x = some true → (h.lookup e x).isSome) ∧
      ∃ p, h.enclosing? e = some p ∧ Context.Matches h p rest

namespace Context.Matches

private theorem later {h h' : Heap} (hl : h.Later h') {e : EnvId} {c : Context}
    (hc : c.Matches h e) : c.Matches h' e := by
  induction c generalizing e with
  | nil => exact hc
  | cons o rest ih =>
    obtain ⟨henv, hne, hbound, p, hp, hrest⟩ := hc
    exact ⟨henv, hne, fun x hx ↦ hl.bound e x (hbound x hx), p, hl.enclosing e p hp, ih hrest⟩

/-- The environment of an open scope is as many steps outwards as the scope is. -/
theorem ancestor? {h : Heap} {e : EnvId} {context : Context} (hcontext : context.Matches h e)
    {d : Nat} {o : Opened} (ho : context[d]? = some o) :
    h.ancestor? d e = some o.env ∧ o.env ≠ Machine.globals ∧
      ∀ x, o.scope.lookup x = some true → (h.lookup o.env x).isSome := by
  induction context generalizing e d with
  | nil => cases ho
  | cons o' rest ih =>
    obtain ⟨henv, hne, hbound, p, hp, hrest⟩ := hcontext
    cases d with
    | zero =>
      cases ho
      subst henv
      exact ⟨rfl, hne, hbound⟩
    | succ d =>
      obtain ⟨ha, hrest'⟩ := ih hrest ho
      refine ⟨?_, hrest'⟩
      rw [Heap.ancestor?, hp]
      exact ha

/-- Entering a scope makes an environment for it. -/
theorem enter {h : Heap} {e : EnvId} {c : Context} (hc : c.Matches h e) (hpos : 0 < h.nextId) :
    (c.enter h.nextId).Matches (h.push (some e)) h.nextId := by
  refine ⟨rfl, Nat.ne_of_gt hpos, fun x hx ↦ (nomatch hx), e, ?_, hc.later (.push h (some e))⟩
  rw [Heap.enclosing?_push, if_pos rfl]

/-- While a name is not ready its environment need not have it. -/
theorem record_unready {h : Heap} {e : EnvId} {c : Context} (hc : c.Matches h e) (x : Bytes) :
    (c.record x false).Matches h e := by
  cases c with
  | nil => exact hc
  | cons o rest =>
    obtain ⟨henv, hne, hbound, hrest⟩ := hc
    refine ⟨henv, hne, fun y hy ↦ hbound y ?_, hrest⟩
    by_cases hyx : y = x
    · subst hyx
      simp at hy
    · have hb : (y == x) = false := beq_eq_false_iff_ne.mpr hyx
      simpa [List.lookup_cons, hb] using hy

/-- A name becomes ready when it is bound in its environment. -/
theorem define {h : Heap} {e : EnvId} {c : Context} (hc : c.Matches h e) (x : Bytes) (v : Value) :
    (c.record x true).Matches (h.define e x v) e := by
  cases c with
  | nil => exact hc
  | cons o rest =>
    obtain ⟨henv, hne, hbound, p, hp, hrest⟩ := hc
    have hlt : e < h.nextId := Heap.lt_nextId_of_enclosing? hp
    refine ⟨henv, hne, fun y hy ↦ ?_, p, by simpa using hp, hrest.later (.define h e x v)⟩
    by_cases hyx : y = x
    · simp [Heap.lookup_define, hyx, hlt]
    · have hb : (y == x) = false := beq_eq_false_iff_ne.mpr hyx
      have hy' : o.scope.lookup y = some true := by simpa [List.lookup_cons, hb] using hy
      simpa [Heap.lookup_define, hyx] using hbound y hy'

end Context.Matches

/-- A name that is found in a scope is found in an open one. -/
theorem Context.find_eq_scope {context : Context} {x : Bytes} {d : Nat}
    (h : context.scopes.find x = .scope d) :
    ∃ o, context[d]? = some o ∧ o.scope.declares x = true := by
  obtain ⟨s, hs, hdecl⟩ := Scopes.find_eq_scope h
  rw [Context.scopes, List.getElem?_map, Option.map_eq_some_iff] at hs
  obtain ⟨o, ho, rfl⟩ := hs
  exact ⟨o, ho, hdecl⟩

/-! ## Sound machines -/

/-- A function of the host that looks at its first argument has one. -/
def Builtin.Total (f : Builtin) : Prop :=
  f.action = .first ∨ f.action = .typeName → f.arity ≠ 0

/-- What is promised of all that a machine is given. -/
structure Terms where
  /-- Whether no variable is read that is not ready. -/
  strict : Prop
  /-- Which functions of the host there may be. -/
  admits : Builtin → Prop

namespace Terms

/-- A function whose code fits the scopes that are open where it was declared. -/
structure GoodClosure (k : Terms) (t : Trace) (m : Machine) (f : Closure) : Prop where
  made : f.id < m.nextFunction
  scopes : (t.contextOf f.id).Matches m.heap f.env
  body : Stmt.AllFit k.strict
    (Scopes.declareParams ([] :: (t.contextOf f.id).scopes) f.params).1 f.body

/-- A value that a machine may hold. -/
def Good (k : Terms) (t : Trace) (m : Machine) : Value → Prop
  | .function f => k.GoodClosure t m f
  | .builtin f => k.admits f
  | _ => True

/-- A point at which the open scopes match the environments, and the expression fits them. -/
structure GoodPoint (k : Terms) (p : Point) : Prop where
  scopes : p.context.Matches p.machine.heap p.machine.env
  expr : p.expr.Fit k.strict p.context.scopes

/-- A machine with good values only, and a record of good points only. -/
structure Sound (k : Terms) (t : Trace) (m : Machine) : Prop where
  exists_global : 0 < m.heap.nextId
  values : ∀ e x v, m.heap.lookup e x = some v → k.Good t m v
  points : ∀ p ∈ t.points, k.GoodPoint p

variable {k : Terms}

/-- A good value stays good. -/
theorem Good.later {t t' : Trace} {m m' : Machine} {v : Value} (hv : k.Good t m v)
    (hl : m.Later m') (ht : ∀ id < m.nextFunction, t'.contextOf id = t.contextOf id) :
    k.Good t' m' v := by
  cases v with
  | function f =>
    have hc := ht f.id hv.made
    refine ⟨Nat.lt_of_lt_of_le hv.made hl.functions, ?_, ?_⟩
    · rw [hc]
      exact hv.scopes.later hl.heap
    · rw [hc]
      exact hv.body
  | builtin f => exact hv
  | nil => trivial
  | bool b => trivial
  | number x => trivial
  | text s => trivial

/-- A good value is still good when a step has been done. -/
theorem Good.kept {α : Type} {t : Trace} {m : Machine} {o : Outcome α × Trace} {v : Value}
    (hv : k.Good t m v) (hk : Traced.Kept t m o) : k.Good o.2 o.1.after v :=
  hv.later hk.machine.later hk.contexts

private theorem Good.inCall {t : Trace} {m : Machine} {v : Value} (hv : k.Good t m v)
    (callee : Bytes) (line : Int) :
    k.Good t { m.setLine line with stack := ⟨some callee, 0⟩ :: (m.setLine line).stack } v :=
  hv.later (.of_eq rfl rfl) fun _ _ ↦ rfl

/-- Literals are good. -/
theorem good_ofLiteral (t : Trace) (m : Machine) (v : Literal) : k.Good t m (.ofLiteral v) := by
  cases v <;> trivial

namespace Sound

variable {t : Trace} {m : Machine}

/-- Only the heap and the identities of functions matter. -/
theorem of_eq (h : k.Sound t m) {m' : Machine} (hh : m'.heap = m.heap)
    (hf : m'.nextFunction = m.nextFunction) : k.Sound t m' := by
  refine ⟨by rw [hh]; exact h.exists_global, fun e x v hv ↦ ?_, h.points⟩
  rw [hh] at hv
  exact (h.values e x v hv).later (.of_eq hh hf) fun _ _ ↦ rfl

private theorem withEnv (h : k.Sound t m) {e : EnvId} : k.Sound t { m with env := e } :=
  h.of_eq rfl rfl

/-- At the start of a call. -/
theorem inCall (h : k.Sound t m) (callee : Bytes) (line : Int) :
    k.Sound t { m.setLine line with stack := ⟨some callee, 0⟩ :: (m.setLine line).stack } :=
  h.of_eq rfl rfl

private theorem setLine (h : k.Sound t m) (line : Int) : k.Sound t (m.setLine line) :=
  h.of_eq rfl rfl

/-- Binding a name to a value that is good once the name is bound. -/
theorem bind (h : k.Sound t m) {e : EnvId} {x : Bytes} {v : Value}
    (hv : k.Good t { m with heap := m.heap.define e x v } v) :
    k.Sound t { m with heap := m.heap.define e x v } := by
  refine ⟨by simpa using h.exists_global, fun e' y w hw ↦ ?_, h.points⟩
  change (m.heap.define e x v).lookup e' y = some w at hw
  rw [Heap.lookup_define] at hw
  split at hw
  · cases hw
    exact hv
  · exact (h.values e' y w hw).later ⟨.define m.heap e x v, Nat.le_refl _⟩ fun _ _ ↦ rfl

/-- Binding a name to a good value. -/
theorem define (h : k.Sound t m) (e : EnvId) (x : Bytes) {v : Value} (hv : k.Good t m v) :
    k.Sound t { m with heap := m.heap.define e x v } :=
  h.bind (hv.later ⟨.define m.heap e x v, Nat.le_refl _⟩ fun _ _ ↦ rfl)

/-- Making an environment. -/
theorem push (h : k.Sound t m) (p : Option EnvId) :
    k.Sound t { m with heap := m.heap.push p } := by
  have hl : m.Later { m with heap := m.heap.push p } := ⟨.push m.heap p, Nat.le_refl _⟩
  refine ⟨by simp, fun e x v hv ↦ ?_, h.points⟩
  change (m.heap.push p).lookup e x = some v at hv
  rw [Heap.lookup_push] at hv
  exact (h.values e x v hv).later hl fun _ _ ↦ rfl

/-- Making a function. -/
theorem newFunction (h : k.Sound t m) (c : Context) :
    k.Sound { t with contexts := (m.nextFunction, c) :: t.contexts }
      { m with nextFunction := m.nextFunction + 1 } := by
  refine ⟨h.exists_global, fun e x v hv ↦ ?_, h.points⟩
  refine (h.values e x v hv).later ⟨.refl _, Nat.le_succ _⟩ fun id hid ↦ ?_
  rw [Traced.contextOf_cons, if_neg (Nat.ne_of_lt hid)]

/-- Recording a good point. -/
theorem visit (h : k.Sound t m) {p : Point} (hp : k.GoodPoint p) :
    k.Sound { t with points := p :: t.points } m := by
  refine ⟨h.exists_global, fun e x v hv ↦ ?_, fun p' hp' ↦ ?_⟩
  · exact (h.values e x v hv).later (.refl m) fun _ _ ↦ rfl
  · rcases List.mem_cons.mp hp' with rfl | hp'
    · exact hp
    · exact h.points p' hp'

end Sound

/-! ## How steps end -/

/-- The faults of the code that a machine runs: there is a rule for all that it meets, unless a
function of the host looks for an argument that it does not have. -/
def Foresees (k : Terms) : Fault → Prop
  | .runtime _ | .outOfFuel => True
  | .call _ => False
  | .stuck => ∃ f, k.admits f ∧ ¬ f.Total

/-- The faults of a call, which has no place in a program yet. -/
def ForeseesCall (k : Terms) (f : Fault) : Prop := k.Foresees f ∨ ∃ e, f = .call e

/-- A step ends on a sound machine, with a good value or with a fault that is foreseen. -/
structure Yields {α : Type} (k : Terms) (good : Trace → Machine → α → Prop)
    (foreseen : Fault → Prop) (o : Outcome α × Trace) : Prop where
  sound : k.Sound o.2 o.1.after
  value : ∀ a m, o.1 = .done a m → good o.2 m a
  fault : ∀ f m, o.1 = .failed f m → foreseen f

section Yields

variable {α β : Type} {good : Trace → Machine → α → Prop} {foreseen : Fault → Prop} {t : Trace}
  {m : Machine}

private theorem yields_done (h : k.Sound t m) {a : α} (ha : good t m a) :
    k.Yields good foreseen (.done a m, t) := by
  refine ⟨h, fun b m' hb ↦ ?_, fun f m' hf ↦ (nomatch hf)⟩
  cases hb
  exact ha

private theorem yields_failed (h : k.Sound t m) {f : Fault} (hf : foreseen f) :
    k.Yields good foreseen (.failed f m, t) := by
  refine ⟨h, fun b m' hb ↦ (nomatch hb), fun f' m' hf' ↦ ?_⟩
  cases hf'
  exact hf

private theorem yields_raise (h : k.Sound t m) (tok : Token) (cause : RuntimeError.Cause) :
    k.Yields good k.Foresees (Run.raise tok cause m, t) :=
  yields_failed (h.setLine tok.line) trivial

/-- What a step keeps is there for the next one. -/
theorem yields_bind {r : Traced α} {f : α → Traced β} {good' : Trace → Machine → β → Prop}
    (ho : Traced.Orderly r) (h : k.Yields good foreseen (r t m))
    (hf : ∀ a t' m', Traced.Kept t m (Outcome.done a m', t') → k.Sound t' m' → good t' m' a →
      k.Yields good' foreseen (f a t' m')) :
    k.Yields good' foreseen ((r >>= f) t m) := by
  have hk := ho t m
  change k.Yields good' foreseen (Traced.andThen r f t m)
  unfold Traced.andThen
  rcases hr : r t m with ⟨o, t'⟩
  rw [hr] at h hk
  cases o with
  | done a m' => exact hf a t' m' hk h.sound (h.value a m' rfl)
  | failed e m' => exact yields_failed h.sound (h.fault e m' rfl)

private theorem yields_visit {r : Traced α} {c : Context} {e : Expr Binding}
    (h : k.Yields good foreseen (r { t with points := ⟨c, e, m⟩ :: t.points } m)) :
    k.Yields good foreseen ((Traced.visit c e >>= fun _ ↦ r) t m) := h

private theorem yields_contextOf {f : Closure} {g : Context → Traced α}
    (h : k.Yields good foreseen (g (t.contextOf f.id) t m)) :
    k.Yields good foreseen ((Traced.contextOf f >>= g) t m) := h

private theorem yields_newEnv (h : k.Sound t m) {e : EnvId} {f : EnvId → Traced α}
    (hf : k.Sound t { m with heap := m.heap.push (some e) } →
      k.Yields good foreseen (f m.heap.nextId t { m with heap := m.heap.push (some e) })) :
    k.Yields good foreseen ((Traced.lift (Run.newEnv e) >>= f) t m) := hf (h.push (some e))

private theorem Yields.mono {o : Outcome α × Trace} {good' : Trace → Machine → α → Prop}
    {foreseen' : Fault → Prop} (h : k.Yields good foreseen o)
    (hg : ∀ a m', o.1 = .done a m' → good o.2 m' a → good' o.2 m' a)
    (hf : ∀ f, foreseen f → foreseen' f) : k.Yields good' foreseen' o :=
  ⟨h.sound, fun a m' ha ↦ hg a m' ha (h.value a m' ha), fun f m' hf' ↦ hf f (h.fault f m' hf')⟩

private theorem yields_inEnv {r : Traced α} {e : EnvId}
    (hgood : ∀ t' m' e' a, good t' m' a → good t' { m' with env := e' } a)
    (h : k.Yields good foreseen (r t { m with env := e })) :
    k.Yields good foreseen (Traced.inEnv e r t m) := by
  unfold Traced.inEnv Run.inEnv
  dsimp only
  rcases hr : r t { m with env := e } with ⟨o, t'⟩
  rw [hr] at h
  have hs : k.Sound t' { o.after with env := m.env } := h.sound.of_eq rfl rfl
  cases o with
  | done a m' => exact yields_done hs (hgood t' m' m.env a (h.value a m' rfl))
  | failed f m' => exact yields_failed hs (h.fault f m' rfl)

/-- A call ends on the stack that it was made on, so that there is a frame to end. -/
theorem yields_inCall {r : Traced α} {callee : Bytes} {line : Int} (ho : Traced.Orderly r)
    (hgood : ∀ t' m' s a, good t' m' a → good t' { m' with stack := s } a)
    (h : k.Yields good foreseen
      (r t { m.setLine line with stack := ⟨some callee, 0⟩ :: (m.setLine line).stack })) :
    k.Yields good foreseen (Traced.inCall callee line r t m) := by
  have hk := ho t { m.setLine line with stack := ⟨some callee, 0⟩ :: (m.setLine line).stack }
  unfold Traced.inCall Run.inCall
  dsimp only
  rcases hr : r t { m.setLine line with stack := ⟨some callee, 0⟩ :: (m.setLine line).stack } with
    ⟨o, t'⟩
  rw [hr] at h hk
  obtain ⟨f', hf'⟩ := hk.machine.stack.of_cons
  have hs : k.Sound t' { o.after with stack := (m.setLine line).stack } := h.sound.of_eq rfl rfl
  cases o with
  | done a m' =>
    simp only [Outcome.after_done] at hf'
    simp only [hf']
    exact yields_done hs (hgood t' m' _ a (h.value a m' rfl))
  | failed f m' =>
    simp only [Outcome.after_failed] at hf'
    simp only [hf']
    exact yields_failed hs (h.fault f m' rfl)

/-- An error of a call gets a place. -/
theorem yields_located {good : Trace → Machine → Value → Prop} {r : Traced Value} {paren : Token}
    (h : k.Yields good k.ForeseesCall (r t m)) :
    k.Yields good k.Foresees (Traced.located paren r t m) := by
  unfold Traced.located Run.located
  dsimp only
  rcases hr : r t m with ⟨o, t'⟩
  rw [hr] at h
  have hs : k.Sound t' o.after := h.sound
  cases o with
  | done a m' => exact yields_done hs (h.value a m' rfl)
  | failed f m' =>
    cases f with
    | call e => exact yields_raise hs paren _
    | runtime e => exact yields_failed hs trivial
    | outOfFuel => exact yields_failed hs trivial
    | stuck =>
      rcases h.fault _ m' rfl with hf | ⟨e, he⟩
      · exact yields_failed hs hf
      · cases he

/-- An error is one of the values that a step may yield. -/
theorem yields_attempt {r : Traced Value} (h : k.Yields k.Good k.ForeseesCall (r t m)) :
    k.Yields (fun t m ↦ Procedure.EndsWith (k.Good t m) k.ForeseesCall) k.ForeseesCall
      (Traced.attempt r t m) := by
  unfold Traced.attempt Run.attempt
  dsimp only
  rcases hr : r t m with ⟨o, t'⟩
  rw [hr] at h
  have hs : k.Sound t' o.after := h.sound
  cases o with
  | done a m' => exact yields_done hs (h.value a m' rfl)
  | failed f m' =>
    have hf := h.fault f m' rfl
    dsimp only
    split
    · exact yields_done hs hf
    · exact yields_failed hs hf

end Yields

/-! ## Steps that are not nested -/

section Steps

variable {t : Trace} {m : Machine}

private theorem yields_print (h : k.Sound t m) (text : Bytes) :
    k.Yields (fun _ _ _ ↦ True) k.Foresees (Run.print text m, t) := by
  have h' : k.Sound t (Run.print text m).after := h.of_eq rfl rfl
  exact yields_done h' trivial

private theorem yields_lookup (h : k.Sound t m) {c : Context} (hc : c.Matches m.heap m.env)
    {name : Token} {b : Binding} (hb : b = c.scopes.find name.lexeme) :
    k.Yields k.Good k.Foresees (Run.lookup name b m, t) := by
  cases b with
  | global =>
    rw [Run.lookup_global]
    cases hv : m.heap.lookup Machine.globals name.lexeme with
    | none => exact yields_raise h name _
    | some v => exact yields_done h (h.values _ _ v hv)
  | scope d =>
    obtain ⟨o, ho, -⟩ := Context.find_eq_scope hb.symm
    rw [Run.lookup_scope, (hc.ancestor? ho).1]
    dsimp only
    cases hv : m.heap.lookup o.env name.lexeme with
    | none => exact yields_raise h name _
    | some v => exact yields_done h (h.values _ _ v hv)

private theorem yields_assign (h : k.Sound t m) {c : Context} (hc : c.Matches m.heap m.env)
    {name : Token} {b : Binding} (hb : b = c.scopes.find name.lexeme) {v : Value}
    (hv : k.Good t m v) : k.Yields (fun _ _ _ ↦ True) k.Foresees (Run.assign name b v m, t) := by
  cases b with
  | global =>
    rw [Run.assign_global]
    split
    · exact yields_done (h.define _ _ hv) trivial
    · exact yields_raise h name _
  | scope d =>
    obtain ⟨o, ho, -⟩ := Context.find_eq_scope hb.symm
    rw [Run.assign_scope, (hc.ancestor? ho).1]
    exact yields_done (h.define _ _ hv) trivial

-- An operator that the evaluator knows ends well.
private theorem yields_applied {kinds : List Kind} {op : Token} {r : Run Value}
    (h : k.Sound t m) (hr : Run.Applied kinds op r) (hop : op.kind ∈ kinds) :
    k.Yields k.Good k.Foresees (r m, t) := by
  cases hr with
  | @data v hv =>
    refine yields_done h ?_
    cases v with
    | function f => exact hv.elim
    | builtin f => exact hv.elim
    | _ => exact trivial
  | raised => exact yields_raise h op _
  | stuck hnot => exact absurd hop hnot

/-- A function of the host has its first argument if it looks for it. -/
theorem yields_perform (h : k.Sound t m) {f : Builtin} (hf : k.admits f) {args : List Value}
    (hargs : ∀ v ∈ args, k.Good t m v) (harity : (args.length : Int) = f.arity)
    (hprocedure : ∀ p, f.action ≠ .procedure p) :
    k.Yields k.Good k.ForeseesCall (Run.perform f args m, t) := by
  -- without an argument, the function is one that looks for an argument it does not have
  have hstuck : f.action = .first ∨ f.action = .typeName → args = [] → k.ForeseesCall .stuck := by
    intro ha hnil
    subst hnil
    exact .inl ⟨f, hf, fun htotal ↦ htotal ha harity.symm⟩
  unfold Run.perform
  split
  · cases m.clock with
    | none => exact yields_failed h (.inr ⟨_, rfl⟩)
    | some ns => exact yields_done h trivial
  · exact yields_done h (hargs _ List.mem_cons_self)
  · exact yields_done h trivial
  · exact yields_failed h (.inr ⟨_, rfl⟩)
  · exact yields_failed h (.inr ⟨_, rfl⟩)
  · exact yields_done h trivial
  · exact yields_done h trivial
  · exact yields_done h trivial
  · next ha => exact yields_failed h (hstuck (.inl ha) rfl)
  · next ha => exact yields_failed h (hstuck (.inr ha) rfl)
  · next ha => exact absurd ha (hprocedure _)

/-- A procedure meets nothing that there is no rule for, unless a call of its own does. -/
theorem yields_serve {call : Value → List Value → Int → Traced Value}
    (ho : ∀ f args line, Traced.Orderly (call f args line))
    (hcall : ∀ {f args t m} line, k.Sound t m → k.Good t m f → (∀ v ∈ args, k.Good t m v) →
      k.Yields k.Good k.ForeseesCall (call f args line t m))
    (callee : Bytes) (p : Procedure) {d : Procedure.Hand} (h : k.Sound t m)
    (hd : d.Holds (k.Good t m) k.ForeseesCall) :
    k.Yields k.Good k.ForeseesCall (Run.serve Traced.lift Traced.attempt call callee p d t m) := by
  induction p generalizing d t m with
  | yield x => exact yields_done h (hd.value (good_ofLiteral t m) x)
  | fail message => exact yields_failed h (.inr ⟨_, rfl⟩)
  | rethrow i => exact yields_failed h (hd.error (fun e ↦ .inr ⟨e, rfl⟩) callee i)
  | call f args line next ih =>
    have hliteral := good_ofLiteral (k := k) t m
    apply yields_bind (Traced.orderly_attempt (ho _ _ line))
      (yields_attempt (hcall line h (hd.value hliteral f) (hd.values_map hliteral args)))
    intro r t' m' hk h' hr
    exact ih _ h' ((hd.mono fun v hv ↦ hv.kept hk).add hr)
  | read name next ih =>
    refine ih _ h (hd.addValue fun v (hv : m.heap.get? 0 name = some v) ↦ ?_)
    rw [Heap.get?_zero] at hv
    exact h.values _ _ v hv
  | define name x next ih =>
    have hx := hd.value (good_ofLiteral t m) x
    exact ih (h.define Machine.globals name hx) (hd.mono fun v hv ↦
      hv.later ⟨.define _ _ _ _, Nat.le_refl _⟩ fun _ _ ↦ rfl)

/-- There is an argument for each parameter, and then each parameter is ready. -/
theorem yields_bindParams {c : Context} {e : EnvId} {params : List Token} {args : List Value}
    (h : k.Sound t m) (hc : c.Matches m.heap e) (hlen : args.length = params.length)
    (hargs : ∀ v ∈ args, k.Good t m v) :
    k.Yields (fun _ m' _ ↦ (c.recordParams params).Matches m'.heap e) k.ForeseesCall
      (Run.bindParams e params args m, t) := by
  induction params generalizing c args m with
  | nil => exact yields_done h hc
  | cons p ps ih =>
    cases args with
    | nil => cases hlen
    | cons v vs =>
      refine ih (h.define e p.lexeme (hargs v List.mem_cons_self)) (hc.define p.lexeme v)
        (Nat.succ.inj hlen) fun w hw ↦ ?_
      exact (hargs w (List.mem_cons_of_mem _ hw)).later ⟨.define _ _ _ _, Nat.le_refl _⟩
        fun _ _ ↦ rfl

/-- The value that a completion carries is good. -/
def GoodCompletion (k : Terms) (t : Trace) (m : Machine) (c : Completion) : Prop :=
  ∀ v keyword, c = .returned v keyword → k.Good t m v

private theorem yields_returnValue (h : k.Sound t m) {completion : Completion}
    (hc : k.GoodCompletion t m completion) :
    k.Yields k.Good k.ForeseesCall (Run.returnValue completion m, t) := by
  cases completion with
  | normal => exact yields_done h trivial
  | returned v keyword => exact yields_done h (hc v keyword rfl)
  | broken keyword => exact (yields_raise h keyword _).mono (fun _ _ _ hg ↦ hg) fun _ ↦ .inl
  | continued keyword => exact (yields_raise h keyword _).mono (fun _ _ _ hg ↦ hg) fun _ ↦ .inl

private theorem yields_endProgram (h : k.Sound t m) (completion : Completion) :
    k.Yields (fun _ _ _ ↦ True) k.Foresees (Run.endProgram completion m, t) := by
  cases completion with
  | normal => exact yields_done h trivial
  | returned v keyword => exact yields_raise h keyword _
  | broken keyword => exact yields_raise h keyword _
  | continued keyword => exact yields_raise h keyword _

end Steps

/-! ## Evaluation -/

/-- How a statement ends: behind a statement that came to its end, its scope has what it
declares. -/
structure GoodEnd (k : Terms) (c : Context) (s : Stmt Binding) (t : Trace) (m : Machine)
    (completion : Completion) : Prop where
  value : k.GoodCompletion t m completion
  scopes : completion = .normal → (c.after s).Matches m.heap m.env

-- Evaluation with some fuel keeps a machine sound.
private structure SoundAt (k : Terms) (n : Nat) : Prop where
  eval : ∀ {c e t m}, k.Sound t m → c.Matches m.heap m.env → e.Fit k.strict c.scopes →
    k.Yields k.Good k.Foresees (Traced.eval n c e t m)
  evalAll : ∀ {c es t m}, k.Sound t m → c.Matches m.heap m.env →
    Expr.AllFit k.strict c.scopes es →
    k.Yields (fun t m vs ↦ ∀ v ∈ vs, k.Good t m v) k.Foresees (Traced.evalAll n c es t m)
  call : ∀ {f args t m} (line), k.Sound t m → k.Good t m f → (∀ v ∈ args, k.Good t m v) →
    k.Yields k.Good k.ForeseesCall (Traced.call n f args line t m)
  exec : ∀ {c s t m}, k.Sound t m → c.Matches m.heap m.env → s.Fit k.strict c.scopes →
    k.Yields (k.GoodEnd c s) k.Foresees (Traced.exec n c s t m)
  repeatWhile : ∀ {c test body t m}, k.Sound t m → c.Matches m.heap m.env →
    test.Fit k.strict c.scopes → body.Fit k.strict c.scopes →
    k.Yields k.GoodCompletion k.Foresees (Traced.repeatWhile n c test body t m)
  execAll : ∀ {c ss t m}, k.Sound t m → c.Matches m.heap m.env →
    Stmt.AllFit k.strict c.scopes ss →
    k.Yields k.GoodCompletion k.Foresees (Traced.execAll n c ss t m)

section Succ

variable {n : Nat} {t : Trace} {m : Machine} {c : Context}

-- The scopes still match after a step.
private theorem matches_kept {α : Type} {o : Outcome α × Trace} (hc : c.Matches m.heap m.env)
    (hk : Traced.Kept t m o) : c.Matches o.1.after.heap o.1.after.env := by
  rw [hk.machine.env]
  exact hc.later hk.machine.later.heap

private theorem good_withStack (t : Trace) (m : Machine) (s : CallStack) (v : Value)
    (hv : k.Good t m v) : k.Good t { m with stack := s } v :=
  hv.later (.of_eq rfl rfl) fun _ _ ↦ rfl

private theorem goodCompletion_withEnv (t : Trace) (m : Machine) (e : EnvId)
    (completion : Completion) (hc : k.GoodCompletion t m completion) :
    k.GoodCompletion t { m with env := e } completion :=
  fun v keyword hr ↦ (hc v keyword hr).later (.of_eq rfl rfl) fun _ _ ↦ rfl

private theorem sound_eval_succ (ih : k.SoundAt n) {e : Expr Binding} (h : k.Sound t m)
    (hc : c.Matches m.heap m.env) (he : e.Fit k.strict c.scopes) :
    k.Yields k.Good k.Foresees (Traced.eval (n + 1) c e t m) := by
  replace h : k.Sound { t with points := ⟨c, e, m⟩ :: t.points } m := h.visit ⟨hc, he⟩
  apply yields_visit
  generalize { t with points := ⟨c, e, m⟩ :: t.points : Trace } = t at h
  cases e with
  | literal tok v => exact yields_done h (good_ofLiteral t m v)
  | grouping tok x => exact ih.eval h hc he
  | unary op x =>
    apply yields_bind (Traced.orderly_eval n c x) (ih.eval h hc he.2)
    intro v t' m' _ h' _
    exact yields_applied h' (Run.applied_unary op v) he.1
  | binary x op y =>
    apply yields_bind (Traced.orderly_eval n c x) (ih.eval h hc he.1)
    intro v t₁ m₁ hk₁ h₁ _
    apply yields_bind (Traced.orderly_eval n c y) (ih.eval h₁ (matches_kept hc hk₁) he.2.2)
    intro w t₂ m₂ _ h₂ _
    exact yields_applied h₂ (Run.applied_binary op v w) he.2.1
  | logical x op y =>
    apply yields_bind (Traced.orderly_eval n c x) (ih.eval h hc he.1)
    intro v t' m' hk h' hv
    split
    · exact yields_done h' hv
    · exact ih.eval h' (matches_kept hc hk) he.2
  | «variable» name b => exact yields_lookup h hc he.1
  | assign name b x =>
    apply yields_bind (Traced.orderly_eval n c x) (ih.eval h hc he.2)
    intro v t₁ m₁ hk₁ h₁ hv
    apply yields_bind (Traced.orderly_lift (Run.orderly_assign name b v))
      (yields_assign h₁ (matches_kept hc hk₁) he.1 hv)
    intro _ t₂ m₂ hk₂ h₂ _
    exact yields_done h₂ (hv.kept hk₂)
  | call f paren args =>
    apply yields_bind (Traced.orderly_eval n c f) (ih.eval h hc he.1)
    intro g t₁ m₁ hk₁ h₁ hg
    apply yields_bind (Traced.orderly_evalAll n c args) (ih.evalAll h₁ (matches_kept hc hk₁) he.2)
    intro vs t₂ m₂ hk₂ h₂ hvs
    exact yields_located (ih.call paren.line h₂ (hg.kept hk₂) hvs)

private theorem sound_evalAll_succ (ih : k.SoundAt n) {es : List (Expr Binding)} (h : k.Sound t m)
    (hc : c.Matches m.heap m.env) (he : Expr.AllFit k.strict c.scopes es) :
    k.Yields (fun t m vs ↦ ∀ v ∈ vs, k.Good t m v) k.Foresees
      (Traced.evalAll (n + 1) c es t m) := by
  cases es with
  | nil => exact yields_done h fun _ hv ↦ (nomatch hv)
  | cons e es =>
    apply yields_bind (Traced.orderly_eval n c e) (ih.eval h hc he.1)
    intro v t₁ m₁ hk₁ h₁ hv
    apply yields_bind (Traced.orderly_evalAll n c es) (ih.evalAll h₁ (matches_kept hc hk₁) he.2)
    intro vs t₂ m₂ hk₂ h₂ hvs
    refine yields_done h₂ fun w hw ↦ ?_
    rcases List.mem_cons.mp hw with rfl | hw
    · exact hv.kept hk₂
    · exact hvs w hw

-- A call enters a scope for the parameters and the body of the function, within the scopes of its
-- declaration.
private theorem sound_call_succ (ih : k.SoundAt n) {f : Value} {args : List Value} (line : Int)
    (h : k.Sound t m) (hf : k.Good t m f) (hargs : ∀ v ∈ args, k.Good t m v) :
    k.Yields k.Good k.ForeseesCall (Traced.call (n + 1) f args line t m) := by
  cases f with
  | function f =>
    by_cases hlen : args.length = f.params.length
    · simp only [Traced.call, hlen, if_true]
      apply yields_inCall (Traced.orderly_body (Traced.orderly_execAll n) f args) good_withStack
      have h' := h.inCall f.name.lexeme line
      apply yields_contextOf
      apply yields_newEnv h'
      intro h₁
      -- the new environment is that of the scope of the parameters and the body
      have hc₁ : ((t.contextOf f.id).enter m.heap.nextId).Matches
          (m.heap.push (some f.env)) m.heap.nextId := hf.scopes.enter h.exists_global
      apply yields_bind (Traced.orderly_lift (Run.orderly_bindParams _ f.params args))
        (yields_bindParams h₁ hc₁ hlen fun v hv ↦
          (hargs v hv).later ⟨.push _ _, Nat.le_refl _⟩ fun _ _ ↦ rfl)
      intro _ t₂ m₂ hk₂ h₂ hc₂
      have hbody : Stmt.AllFit k.strict
          (((t.contextOf f.id).enter m.heap.nextId).recordParams f.params).scopes f.body := by
        rw [Context.scopes_recordParams]
        exact hf.body
      apply yields_bind (Traced.orderly_inEnv _ (Traced.orderly_execAll n _ f.body))
        ((yields_inEnv goodCompletion_withEnv (ih.execAll h₂.withEnv hc₂ hbody)).mono
          (fun _ _ _ hg ↦ hg) fun _ ↦ .inl)
      intro completion t₃ m₃ _ h₃ hcompletion
      exact yields_returnValue h₃ hcompletion
    · simp only [Traced.call, hlen, if_false]
      exact yields_failed h (.inr ⟨_, rfl⟩)
  | builtin f =>
    by_cases harity : (args.length : Int) = f.arity
    · simp only [Traced.call, harity, if_true]
      have h' := h.inCall f.name line
      have hargs' : ∀ v ∈ args, k.Good t _ v := fun v hv ↦ (hargs v hv).inCall f.name line
      cases hact : f.action with
      | procedure p =>
        exact yields_inCall (Traced.orderly_start (Traced.orderly_call n) f p args) good_withStack
          (yields_serve (Traced.orderly_call n) ih.call _ _ h' (.ofArgs hargs'))
      | _ =>
        exact yields_inCall (Traced.orderly_lift (Run.orderly_perform f args)) good_withStack
          (yields_perform h' hf hargs' harity fun p hp ↦ by rw [hact] at hp; cases hp)
    · simp only [Traced.call, harity, if_false]
      exact yields_failed h (.inr ⟨_, rfl⟩)
  | nil => exact yields_failed h (.inr ⟨_, rfl⟩)
  | bool b => exact yields_failed h (.inr ⟨_, rfl⟩)
  | number x => exact yields_failed h (.inr ⟨_, rfl⟩)
  | text s => exact yields_failed h (.inr ⟨_, rfl⟩)

-- A statement that declares nothing leaves the scopes that it found.
private theorem yields_plain {s : Stmt Binding} {r : Traced Completion}
    (hs : s.isDeclaration = false) (hc : c.Matches m.heap m.env) (ho : Traced.Orderly r)
    (hr : k.Yields k.GoodCompletion k.Foresees (r t m)) :
    k.Yields (k.GoodEnd c s) k.Foresees (r t m) := by
  refine hr.mono (fun completion m' hm hg ↦ ⟨hg, fun _ ↦ ?_⟩) fun _ hf ↦ hf
  have hc' := matches_kept hc (ho t m)
  rw [hm] at hc'
  rw [Context.after_of_plain c hs]
  exact hc'

private theorem goodCompletion_normal : k.GoodCompletion t m .normal :=
  fun _ _ hr ↦ nomatch hr

private theorem sound_exec_succ (ih : k.SoundAt n) {s : Stmt Binding} (h : k.Sound t m)
    (hc : c.Matches m.heap m.env) (hs : s.Fit k.strict c.scopes) :
    k.Yields (k.GoodEnd c s) k.Foresees (Traced.exec (n + 1) c s t m) := by
  cases s with
  | expr e =>
    apply yields_plain rfl hc (Traced.orderly_exec (n + 1) c (.expr e))
    apply yields_bind (Traced.orderly_eval n c e) (ih.eval h hc hs)
    intro v t' m' _ h' _
    exact yields_done h' goodCompletion_normal
  | print tok e =>
    apply yields_plain rfl hc (Traced.orderly_exec (n + 1) c (.print tok e))
    apply yields_bind (Traced.orderly_eval n c e) (ih.eval h hc hs)
    intro v t₁ m₁ _ h₁ _
    apply yields_bind (Traced.orderly_lift (Run.orderly_print v.display))
      (yields_print h₁ v.display)
    intro _ t₂ m₂ _ h₂ _
    exact yields_done h₂ goodCompletion_normal
  | var name init =>
    cases init with
    | none =>
      exact yields_done (h.define m.env name.lexeme (v := .nil) trivial)
        ⟨goodCompletion_normal, fun _ ↦ hc.define name.lexeme .nil⟩
    | some e =>
      have hc' := hc.record_unready name.lexeme
      rw [Stmt.Fit, ← Context.scopes_record] at hs
      apply yields_bind (Traced.orderly_eval n _ e) (ih.eval h hc' hs)
      intro v t' m' hk h' hv
      exact yields_done (h'.define m'.env name.lexeme hv)
        ⟨goodCompletion_normal, fun _ ↦ (matches_kept hc hk).define name.lexeme v⟩
  | block tok body =>
    apply yields_plain rfl hc (Traced.orderly_exec (n + 1) c (.block tok body))
    -- the body is executed in the scope that it enters, whose environment is new
    refine yields_inEnv goodCompletion_withEnv (ih.execAll (h.push (some m.env)).withEnv ?_ hs)
    exact hc.enter h.exists_global
  | ifElse tok test yes no =>
    apply yields_plain rfl hc (Traced.orderly_exec (n + 1) c (.ifElse tok test yes no))
    have htest : test.Fit k.strict c.scopes := by
      cases no with
      | none => exact hs.1
      | some no => exact hs.1
    apply yields_bind (Traced.orderly_eval n c test) (ih.eval h hc htest)
    intro v t' m' hk h' _
    have hc' := matches_kept hc hk
    split
    · refine (ih.exec h' hc' ?_).mono (fun _ _ _ hg ↦ hg.value) fun _ hf ↦ hf
      cases no with
      | none => exact hs.2
      | some no => exact hs.2.1
    · cases no with
      | none => exact yields_done h' goodCompletion_normal
      | some no => exact (ih.exec h' hc' hs.2.2).mono (fun _ _ _ hg ↦ hg.value) fun _ hf ↦ hf
  | «while» tok test body =>
    apply yields_plain rfl hc (Traced.orderly_exec (n + 1) c (.while tok test body))
    exact ih.repeatWhile h hc hs.1 hs.2
  | function name params body =>
    -- the name is bound, so that the scopes of the function match, when the function is bound
    have hc' := hc.define name.lexeme (.function ⟨m.nextFunction, name, params, body, m.env⟩)
    have hcontext : Trace.contextOf { t with contexts :=
        (m.nextFunction, c.record name.lexeme true) :: t.contexts } m.nextFunction =
        c.record name.lexeme true := by
      rw [Traced.contextOf_cons, if_pos rfl]
    refine yields_done ((h.newFunction (c.record name.lexeme true)).bind ?_)
      ⟨goodCompletion_normal, fun _ ↦ hc'⟩
    refine ⟨Nat.lt_succ_self _, ?_, ?_⟩
    · rw [hcontext]
      exact hc'
    · rw [hcontext, Context.scopes_record]
      exact hs
  | «return» tok result =>
    apply yields_plain rfl hc (Traced.orderly_exec (n + 1) c (.return tok result))
    cases result with
    | none =>
      refine yields_done h fun v keyword hr ↦ ?_
      cases hr
      exact trivial
    | some e =>
      apply yields_bind (Traced.orderly_eval n c e) (ih.eval h hc hs)
      intro v t' m' _ h' hv
      refine yields_done h' fun w keyword hr ↦ ?_
      cases hr
      exact hv
  | branch tok =>
    apply yields_plain rfl hc (Traced.orderly_exec (n + 1) c (.branch tok))
    refine yields_done h fun v keyword hr ↦ ?_
    split at hr <;> cases hr

private theorem sound_repeatWhile_succ (ih : k.SoundAt n) {test : Expr Binding}
    {body : Stmt Binding} (h : k.Sound t m) (hc : c.Matches m.heap m.env)
    (htest : test.Fit k.strict c.scopes) (hbody : body.Fit k.strict c.scopes) :
    k.Yields k.GoodCompletion k.Foresees (Traced.repeatWhile (n + 1) c test body t m) := by
  apply yields_bind (Traced.orderly_eval n c test) (ih.eval h hc htest)
  intro v t₁ m₁ hk₁ h₁ _
  have hc₁ := matches_kept hc hk₁
  split
  · apply yields_bind (Traced.orderly_exec n c body) (ih.exec h₁ hc₁ hbody)
    intro completion t₂ m₂ hk₂ h₂ hend
    -- what the body left in its scope is forgotten: the next round is in the scopes of this one
    have hc₂ := matches_kept hc₁ hk₂
    cases completion with
    | normal => exact ih.repeatWhile h₂ hc₂ htest hbody
    | returned v keyword => exact yields_done h₂ hend.value
    | broken keyword => exact yields_done h₂ goodCompletion_normal
    | continued keyword => exact ih.repeatWhile h₂ hc₂ htest hbody
  · exact yields_done h₁ goodCompletion_normal

private theorem sound_execAll_succ (ih : k.SoundAt n) {ss : List (Stmt Binding)}
    (h : k.Sound t m) (hc : c.Matches m.heap m.env) (hs : Stmt.AllFit k.strict c.scopes ss) :
    k.Yields k.GoodCompletion k.Foresees (Traced.execAll (n + 1) c ss t m) := by
  cases ss with
  | nil => exact yields_done h goodCompletion_normal
  | cons s ss =>
    apply yields_bind (Traced.orderly_exec n c s) (ih.exec h hc hs.1)
    intro completion t' m' _ h' hend
    cases completion with
    | normal =>
      have hss := hs.2
      rw [← Context.scopes_after] at hss
      exact ih.execAll h' (hend.scopes rfl) hss
    | returned v keyword => exact yields_done h' hend.value
    | broken keyword => exact yields_done h' hend.value
    | continued keyword => exact yields_done h' hend.value

end Succ

private theorem soundAt (k : Terms) (n : Nat) : k.SoundAt n := by
  induction n with
  | zero =>
    constructor
    case call => exact fun _ h _ _ ↦ yields_failed h (.inl trivial)
    all_goals intros; exact yields_failed ‹_› trivial
  | succ n ih =>
    constructor
    · exact sound_eval_succ ih
    · exact sound_evalAll_succ ih
    · exact sound_call_succ ih
    · exact sound_exec_succ ih
    · exact sound_repeatWhile_succ ih
    · exact sound_execAll_succ ih

section Programs

variable {t : Trace} {m : Machine}

/-- Calling a good value with good values, on a sound machine. -/
theorem sound_call (n : Nat) {f : Value} {args : List Value} (line : Int) (h : k.Sound t m)
    (hf : k.Good t m f) (hargs : ∀ v ∈ args, k.Good t m v) :
    k.Yields k.Good k.ForeseesCall (Traced.call n f args line t m) :=
  (soundAt k n).call line h hf hargs

/-- Evaluating an expression that fits, on a sound machine. -/
theorem sound_evaluate (n : Nat) {e : Expr Binding} (h : k.Sound t m) (he : e.Fit k.strict []) :
    k.Yields k.Good k.Foresees (Traced.evaluate n e t m) := by
  have h' : k.Sound t m.atTopLevel := h.of_eq rfl rfl
  exact (soundAt k n).eval (c := []) h' rfl he

private theorem sound_interpretAll (n : Nat) {p : Program Binding} (h : k.Sound t m)
    (hm : m.env = Machine.globals) (hp : Stmt.AllFit k.strict [] p) :
    k.Yields (fun _ _ _ ↦ True) k.Foresees (Traced.interpretAll n p t m) := by
  induction p generalizing t m with
  | nil => exact yields_done h trivial
  | cons s ss ih =>
    apply yields_bind (Traced.orderly_exec n [] s) ((soundAt k n).exec (c := []) h hm hp.1)
    intro completion t₁ m₁ hk₁ h₁ _
    apply yields_bind (Traced.orderly_lift (Run.orderly_endProgram completion))
      (yields_endProgram h₁ completion)
    intro _ t₂ m₂ hk₂ h₂ _
    refine ih h₂ (hk₂.machine.env.trans (hk₁.machine.env.trans hm)) ?_
    -- at top level no scope is open, so that nothing was recorded
    have hss := hp.2
    rwa [Scopes.after_nil] at hss

/-- Running a program that fits, on a sound machine. -/
theorem sound_interpret (n : Nat) {p : Program Binding} (h : k.Sound t m)
    (hp : Stmt.AllFit k.strict [] p) :
    k.Yields (fun _ _ _ ↦ True) k.Foresees (Traced.interpret n p t m) := by
  have h' : k.Sound t m.atTopLevel := h.of_eq rfl rfl
  exact sound_interpretAll n h' rfl hp

end Programs

/-- A machine on which nothing has run is sound if the clock is admitted. -/
theorem sound_start (hclock : k.admits Machine.clockFunction) (clock : Option Int)
    (firstId : Nat) : k.Sound .empty (Machine.start clock firstId) := by
  refine ⟨Nat.zero_lt_one, fun e x v hv ↦ ?_, fun p hp ↦ (nomatch hp)⟩
  rw [Machine.lookup_start] at hv
  split at hv
  · cases hv
    exact hclock
  · cases hv

end Terms
end Lox
