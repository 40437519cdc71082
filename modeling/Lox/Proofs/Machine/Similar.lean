import Lox.Proofs.Machine.Order
import Lox.Proofs.Scope.Like
import Mathlib.Data.Option.Basic

/-!
# Runs of code that is alike

Code that differs in the names of local variables and perhaps in lines does the same on machines
that differ in the same way. Each environment belongs to a scope, and has the names that the scope
gives: a `World` says which, and a new environment extends it. Two machines are similar in a world
if their environments are the same but for these names, and for the code of the functions in them,
which is alike.

A program can show the name of a local variable in one way only, when it reads one that has no
value. The result is therefore about runs in which this does not happen. Lines can be shown by a
function of the host that describes the active calls, and a procedure may do one thing or another
because of them, so that these may be there only if lines are the same.
-/

namespace Lox

/-- The other names in each environment. -/
abbrev World := EnvId → Renaming

namespace World

/-- The scopes around some code give the names that the environments from `e` outwards have, up to
the global one. -/
def Fits (W : World) (h : Heap) : EnvId → List Renaming → Prop
  | e, [] => e = Machine.globals
  | e, ρ :: names => W e = ρ ∧ ∃ p, h.enclosing? e = some p ∧ W.Fits h p names

/-- The names in the environments of a heap stay the same. -/
def Extends (W : World) (h : Heap) (W' : World) : Prop := ∀ e < h.nextId, W' e = W e

private theorem Extends.refl (W : World) (h : Heap) : W.Extends h W := fun _ _ ↦ rfl

private theorem Extends.trans {W₁ W₂ W₃ : World} {h h' : Heap} (h₁ : W₁.Extends h W₂)
    (h₂ : W₂.Extends h' W₃) (hl : h.Later h') : W₁.Extends h W₃ := fun e he ↦
  (h₂ e (Nat.lt_of_lt_of_le he hl.nextId)).trans (h₁ e he)

/-- A world with other names in a new environment. -/
theorem extends_update (W : World) (h : Heap) (ρ : Renaming) :
    W.Extends h (Function.update W h.nextId ρ) :=
  fun _ he ↦ Function.update_of_ne (Nat.ne_of_lt he) _ _

variable {W W' : World} {h h' : Heap} {e : EnvId} {names : List Renaming}

private theorem Fits.later (hf : W.Fits h e names) (hw : W.Extends h W') (hl : h.Later h') :
    W'.Fits h' e names := by
  induction names generalizing e with
  | nil => exact hf
  | cons ρ names ih =>
    obtain ⟨hρ, p, hp, hrest⟩ := hf
    exact ⟨(hw e (Heap.lt_nextId_of_enclosing? hp)).trans hρ, p, hl.enclosing e p hp, ih hrest⟩

/-- Names of a scope are those of the environment as many steps outwards. -/
theorem Fits.ancestor? (hf : W.Fits h e names) {d : Nat} {ρ : Renaming} (hd : names[d]? = some ρ) :
    ∃ e', h.ancestor? d e = some e' ∧ W e' = ρ := by
  induction names generalizing e d with
  | nil => cases hd
  | cons ρ' names ih =>
    obtain ⟨hρ, p, hp, hrest⟩ := hf
    cases d with
    | zero =>
      cases hd
      exact ⟨e, rfl, hρ⟩
    | succ d =>
      obtain ⟨e', he', hρ'⟩ := ih hrest hd
      refine ⟨e', ?_, hρ'⟩
      rw [Heap.ancestor?, hp]
      exact he'

/-- A new environment for a new scope. -/
theorem Fits.push (hf : W.Fits h e names) (ρ : Renaming) :
    World.Fits (Function.update W h.nextId ρ) (h.push (some e)) h.nextId (ρ :: names) := by
  refine ⟨Function.update_self _ _ _, e, ?_, hf.later (extends_update W h ρ) (.push h (some e))⟩
  rw [Heap.enclosing?_push, if_pos rfl]

/-- The names of the innermost scope are those of the environment. -/
theorem Fits.head (hf : W.Fits h e names) (hg : W Machine.globals = 1) : names.headD 1 = W e := by
  cases names with
  | nil =>
    rw [show e = Machine.globals from hf, hg]
    rfl
  | cons ρ names => exact hf.1.symm

end World

/-! ## Values and machines -/

section Similar

variable (same : Prop)

/-- Functions with the same identity and name, and with code that is alike. -/
structure Closure.Like (W : World) (h : Heap) (f f' : Closure) : Prop where
  id : f'.id = f.id
  env : f'.env = f.env
  name : f'.name.lexeme = f.name.lexeme
  code : ∃ ρ names, W.Fits h f.env names ∧
    List.Forall₂ (Token.Renamed same ρ) f.params f'.params ∧
    Stmt.AllLike same (ρ :: names) f.body f'.body

/-- The same values, but for the code of functions. -/
inductive Value.Like (W : World) (h : Heap) : Value → Value → Prop where
  | nil : Value.Like W h .nil .nil
  | bool (b : Bool) : Value.Like W h (.bool b) (.bool b)
  | number (x : Number) : Value.Like W h (.number x) (.number x)
  | text (s : Bytes) : Value.Like W h (.text s) (.text s)
  | function {f f' : Closure} (hf : f.Like same W h f') :
    Value.Like W h (.function f) (.function f')
  | builtin (f : Builtin) (hf : f.action.seesLines → same) :
    Value.Like W h (.builtin f) (.builtin f)

/-- The same call, perhaps at another line. -/
structure Frame.Like (f f' : Frame) : Prop where
  callee : f'.callee = f.callee
  line : same → f'.line = f.line

/-- Machines that differ in the names of local variables and in code that is alike. -/
structure Machine.Similar (W : World) (m m' : Machine) : Prop where
  globals : W Machine.globals = 1
  exists_global : 0 < m.heap.nextId
  nextId : m'.heap.nextId = m.heap.nextId
  enclosing : ∀ e, m'.heap.enclosing? e = m.heap.enclosing? e
  values : ∀ e x, Option.Rel (Value.Like same W m.heap) (m.heap.lookup e x)
    (m'.heap.lookup e (W e x))
  env : m'.env = m.env
  stack : List.Forall₂ (Frame.Like same) m.stack m'.stack
  printed : m'.printed = m.printed
  nextFunction : m'.nextFunction = m.nextFunction
  clock : m'.clock = m.clock

/-- The same fault, perhaps at another line. -/
inductive Fault.Like : Fault → Fault → Prop where
  | runtime {e e' : RuntimeError} (hcause : e'.cause = e.cause) (hsame : same → e' = e) :
    Fault.Like (.runtime e) (.runtime e')
  | refl (f : Fault) : Fault.Like f f

end Similar

variable {same : Prop}

namespace Value.Like

variable {W W' : World} {h h' : Heap} {v v' : Value}

private theorem later (hv : Value.Like same W h v v') (hw : W.Extends h W') (hl : h.Later h') :
    Value.Like same W' h' v v' := by
  cases hv with
  | function hf =>
    obtain ⟨ρ, names, hfit, hparams, hbody⟩ := hf.code
    exact .function ⟨hf.id, hf.env, hf.name, ρ, names, hfit.later hw hl, hparams, hbody⟩
  | nil => exact .nil
  | bool b => exact .bool b
  | number x => exact .number x
  | text s => exact .text s
  | builtin f hf => exact .builtin f hf

private theorem rel_later {a a' : Option Value} (ha : Option.Rel (Value.Like same W h) a a')
    (hw : W.Extends h W') (hl : h.Later h') : Option.Rel (Value.Like same W' h') a a' := by
  cases ha with
  | none => exact .none
  | some hv => exact .some (hv.later hw hl)

private theorem truth (hv : Value.Like same W h v v') : v'.truth = v.truth := by
  cases hv <;> rfl

private theorem typeName (hv : Value.Like same W h v v') : v'.typeName = v.typeName := by
  cases hv <;> rfl

private theorem display (hv : Value.Like same W h v v') : v'.display = v.display := by
  cases hv with
  | function hf => simp only [Value.display, hf.name]
  | _ => rfl

private theorem sight (hv : Value.Like same W h v v') : v'.sight = v.sight := by
  cases hv with
  | function hf =>
    obtain ⟨ρ, names, -, hparams, -⟩ := hf.code
    simp only [Value.sight, hf.id, hf.name, hparams.length_eq]
  | _ => rfl

private theorem equal (hv : Value.Like same W h v v') {w w' : Value}
    (hw : Value.Like same W h w w') : v'.equal w' = v.equal w := by
  cases hv with
  | function hf =>
    cases hw with
    | function hg => simp only [Value.equal, hf.id, hg.id]
    | _ => rfl
  | _ => cases hw <;> rfl

end Value.Like

private theorem Token.Renamed.lexeme_eq {t t' : Token} (h : t.Renamed same 1 t') :
    t'.lexeme = t.lexeme :=
  h.lexeme

namespace Machine.Similar

variable {W : World} {m m' : Machine}

/-- Only what a machine holds matters, not where it was set. -/
theorem withEnv (h : m.Similar same W m') (e : EnvId) :
    Machine.Similar same W { m with env := e } { m' with env := e } :=
  { h with env := rfl }

/-- Machines that are similar are so with other stacks that are alike. -/
theorem withStack (h : m.Similar same W m') {s s' : CallStack}
    (hs : List.Forall₂ (Frame.Like same) s s') :
    Machine.Similar same W { m with stack := s } { m' with stack := s' } :=
  { h with stack := hs }

private theorem setLine (h : m.Similar same W m') {line line' : Int} (hl : same → line' = line) :
    Machine.Similar same W (m.setLine line) (m'.setLine line') := by
  have hs : List.Forall₂ (Frame.Like same) (m.stack.withLine line) (m'.stack.withLine line') := by
    have hstack := h.stack
    cases hm : m.stack with
    | nil =>
      rw [hm] at hstack
      cases hm' : m'.stack with
      | nil => exact .cons ⟨rfl, hl⟩ .nil
      | cons f' rest' =>
        rw [hm'] at hstack
        cases hstack
    | cons f rest =>
      rw [hm] at hstack
      cases hm' : m'.stack with
      | nil =>
        rw [hm'] at hstack
        cases hstack
      | cons f' rest' =>
        rw [hm'] at hstack
        cases hstack with
        | cons hf hrest => exact .cons ⟨hf.callee, hl⟩ hrest
  rw [← stack_setLine, ← stack_setLine] at hs
  exact { h with stack := hs }

/-- At the start of a call. -/
theorem inCall (h : m.Similar same W m') (callee : Bytes) {line line' : Int}
    (hl : same → line' = line) :
    Machine.Similar same W
      { m.setLine line with stack := ⟨some callee, 0⟩ :: (m.setLine line).stack }
      { m'.setLine line' with stack := ⟨some callee, 0⟩ :: (m'.setLine line').stack } :=
  (h.setLine hl).withStack (.cons ⟨rfl, fun _ ↦ rfl⟩ (h.setLine hl).stack)

/-- Printing a text. -/
theorem print (h : m.Similar same W m') (text : Bytes) :
    Machine.Similar same W (Run.print text m).after (Run.print text m').after := by
  have hframe : m'.stack.head?.elim [] Frame.name = m.stack.head?.elim [] Frame.name := by
    have hstack := h.stack
    cases hm : m.stack with
    | nil =>
      rw [hm, List.forall₂_nil_left_iff] at hstack
      rw [hstack]
    | cons f rest =>
      rw [hm, List.forall₂_cons_left_iff] at hstack
      obtain ⟨f', rest', hf, -, hm'⟩ := hstack
      rw [hm']
      simp only [List.head?_cons, Option.elim_some, Frame.name, hf.callee]
  refine { h with printed := ?_ }
  simp only [Run.print, Run.change, Outcome.after_done, hframe, h.stack.length_eq, h.printed]

/-- Binding a name, which is another name in the second machine. -/
theorem define (h : m.Similar same W m') (e : EnvId) (x : Bytes) {v v' : Value}
    (hv : Value.Like same W m.heap v v') :
    Machine.Similar same W { m with heap := m.heap.define e x v }
      { m' with heap := m'.heap.define e (W e x) v' } := by
  have hl : m.heap.Later (m.heap.define e x v) := .define m.heap e x v
  refine { h with
    exists_global := ?_, nextId := ?_, enclosing := fun e' ↦ ?_, values := fun e' y ↦ ?_ }
  · simpa using h.exists_global
  · simpa using h.nextId
  · simpa using h.enclosing e'
  · simp only [Heap.lookup_define, h.nextId]
    by_cases he : e' = e
    · subst he
      by_cases hy : y = x ∧ e' < m.heap.nextId
      · simp only [hy, and_self, if_true]
        exact .some (hv.later (.refl W _) hl)
      · have hy' : ¬ (W e' y = W e' x ∧ e' < m.heap.nextId) := by
          rwa [(W e').injective.eq_iff]
        simp only [true_and, hy, hy', if_false]
        exact Value.Like.rel_later (h.values e' y) (.refl W _) hl
    · simp only [he, false_and, if_false]
      exact Value.Like.rel_later (h.values e' y) (.refl W _) hl

/-- A new environment, with names of its own. -/
theorem push (h : m.Similar same W m') (p : Option EnvId) (ρ : Renaming) :
    Machine.Similar same (Function.update W m.heap.nextId ρ) { m with heap := m.heap.push p }
      { m' with heap := m'.heap.push p } := by
  have hw : W.Extends m.heap (Function.update W m.heap.nextId ρ) := World.extends_update W m.heap ρ
  have hl : m.heap.Later (m.heap.push p) := .push m.heap p
  refine { h with
    globals := ?_, exists_global := ?_, nextId := ?_, enclosing := fun e ↦ ?_,
    values := fun e x ↦ ?_ }
  · exact (hw Machine.globals h.exists_global).trans h.globals
  · simp
  · simpa using h.nextId
  · simp only [Heap.enclosing?_push, h.nextId, h.enclosing]
  · simp only [Heap.lookup_push]
    by_cases he : e < m.heap.nextId
    · rw [hw e he]
      exact Value.Like.rel_later (h.values e x) hw hl
    · have hge := Nat.le_of_not_lt he
      rw [Heap.lookup_eq_none _ _ _ hge, Heap.lookup_eq_none _ _ _ (h.nextId.trans_le hge)]
      exact .none

/-- A new function. -/
theorem newFunction (h : m.Similar same W m') :
    Machine.Similar same W { m with nextFunction := m.nextFunction + 1 }
      { m' with nextFunction := m'.nextFunction + 1 } :=
  { h with nextFunction := congrArg (· + 1) h.nextFunction }

/-- Global names are the same. -/
theorem value_global (h : m.Similar same W m') (x : Bytes) :
    Option.Rel (Value.Like same W m.heap) (m.heap.lookup Machine.globals x)
      (m'.heap.lookup Machine.globals x) := by
  have hv := h.values Machine.globals x
  rw [h.globals] at hv
  exact hv

private theorem ancestor? (h : m.Similar same W m') (d : Nat) (e : EnvId) :
    m'.heap.ancestor? d e = m.heap.ancestor? d e := Heap.ancestor?_congr h.enclosing d e

end Machine.Similar

private theorem CallStack.eq_of_like (hsame : same) {s s' : CallStack}
    (h : List.Forall₂ (Frame.Like same) s s') : s' = s := by
  induction h with
  | nil => rfl
  | @cons f f' _ _ hf _ ih =>
    rw [ih]
    obtain ⟨c, l⟩ := f
    obtain ⟨c', l'⟩ := f'
    have hc : c' = c := hf.callee
    have hl : l' = l := hf.line hsame
    rw [hc, hl]

/-! ## Steps that end alike -/

/-- A local variable that is to be read at this point has a value. -/
def Point.Bound (p : Point) : Prop :=
  ∀ name d, p.expr = .variable name (.scope d) → ∃ e v,
    p.machine.heap.ancestor? d p.machine.env = some e ∧
    p.machine.heap.lookup e name.lexeme = some v

/-- Steps that end on similar machines, with values that are related or with the same fault. -/
inductive Outcome.Similar {α : Type} (same : Prop) (good : World → Heap → α → α → Prop)
    (W : World) : Outcome α → Outcome α → Prop where
  | done {a a' : α} {m m' : Machine} (hm : m.Similar same W m') (ha : good W m.heap a a') :
    Outcome.Similar same good W (.done a m) (.done a' m')
  | failed {f f' : Fault} {m m' : Machine} (hm : m.Similar same W m') (hf : f.Like same f') :
    Outcome.Similar same good W (.failed f m) (.failed f' m')

/-- If every local variable that is read in the first step has a value, then the second ends alike,
in a world that extends the one at the start. -/
def Simulates {α : Type} (same : Prop) (good : World → Heap → α → α → Prop) (W : World) (h : Heap)
    (o : Outcome α × Trace) (o' : Outcome α) : Prop :=
  (∀ p ∈ o.2.points, p.Bound) → ∃ W', W.Extends h W' ∧ Outcome.Similar same good W' o.1 o'

section Simulates

variable {α β : Type} {good : World → Heap → α → α → Prop} {W : World} {t : Trace} {m m' : Machine}

private theorem simulates_done (hm : m.Similar same W m') {a a' : α} (ha : good W m.heap a a')
    {h : Heap} : Simulates same good W h (.done a m, t) (.done a' m') :=
  fun _ ↦ ⟨W, .refl W h, .done hm ha⟩

private theorem simulates_failed (hm : m.Similar same W m') {f f' : Fault} (hf : f.Like same f')
    {h : Heap} : Simulates same good W h (.failed f m, t) (.failed f' m') :=
  fun _ ↦ ⟨W, .refl W h, .failed hm hf⟩

private theorem Outcome.similar_raise (hm : m.Similar same W m') {tok tok' : Token}
    (htok : tok.Like same tok') {cause cause' : RuntimeError.Cause} (hcause : cause' = cause) :
    Outcome.Similar same good W (Run.raise tok cause m) (Run.raise tok' cause' m') := by
  have hm' := hm.setLine htok.line
  refine .failed hm' (.runtime hcause fun hsame ↦ ?_)
  rw [CallStack.eq_of_like hsame hm'.stack, hcause, htok.line hsame]

private theorem simulates_raise (hm : m.Similar same W m') {tok tok' : Token}
    (htok : tok.Like same tok') {cause cause' : RuntimeError.Cause} (hcause : cause' = cause)
    {h : Heap} : Simulates same good W h (Run.raise tok cause m, t) (Run.raise tok' cause' m') :=
  fun _ ↦ ⟨W, .refl W h, Outcome.similar_raise hm htok hcause⟩

/-- What two steps keep is there for the next ones. -/
theorem simulates_bind {good' : World → Heap → β → β → Prop} {r : Traced α} {r' : Run α}
    {f : α → Traced β} {f' : α → Run β} (ho : Traced.Orderly r) (hof : ∀ a, Traced.Orderly (f a))
    (hr : Simulates same good W m.heap (r t m) (r' m'))
    (hf : ∀ W' a a' t₁ m₁ m₁', W.Extends m.heap W' → Traced.Kept t m (Outcome.done a m₁, t₁) →
      m₁.Similar same W' m₁' → good W' m₁.heap a a' →
      Simulates same good' W' m₁.heap (f a t₁ m₁) (f' a' m₁')) :
    Simulates same good' W m.heap ((r >>= f) t m) ((r' >>= f') m') := by
  have hk := ho t m
  change Simulates same good' W m.heap (Traced.andThen r f t m) (Run.andThen r' f' m')
  unfold Traced.andThen Run.andThen
  rcases hrt : r t m with ⟨o, t₁⟩
  rw [hrt] at hr hk
  intro hpoints
  cases o with
  | done a m₁ =>
    -- the points of the first step are among those of both
    obtain ⟨W', hw, hsim⟩ := hr fun p hp ↦ hpoints p ((hof a t₁ m₁).points p hp)
    cases hsim' : r' m' with
    | done a' m₁' =>
      rw [hsim'] at hsim
      cases hsim with
      | done hm ha =>
        obtain ⟨W'', hw', hsim''⟩ := hf W' a a' t₁ m₁ m₁' hw hk hm ha hpoints
        exact ⟨W'', hw.trans hw' hk.machine.later.heap, hsim''⟩
    | failed f' m₁' =>
      rw [hsim'] at hsim
      cases hsim
  | failed fault m₁ =>
    obtain ⟨W', hw, hsim⟩ := hr hpoints
    cases hsim' : r' m' with
    | done a' m₁' =>
      rw [hsim'] at hsim
      cases hsim
    | failed f' m₁' =>
      rw [hsim'] at hsim
      cases hsim with
      | failed hm hfault => exact ⟨W', hw, .failed hm hfault⟩

private theorem simulates_visit {r : Traced α} {c : Context} {e : Expr Binding} {o' : Outcome α}
    {h : Heap} (hr : Simulates same good W h (r { t with points := ⟨c, e, m⟩ :: t.points } m) o') :
    Simulates same good W h ((Traced.visit c e >>= fun _ ↦ r) t m) o' := hr

/-- At a point that was visited, a local variable that is to be read has a value. -/
theorem simulates_visit_bound {r : Traced α} {c : Context} {e : Expr Binding} {o' : Outcome α}
    {h : Heap} (ho : Traced.Orderly r)
    (hr : Point.Bound ⟨c, e, m⟩ →
      Simulates same good W h (r { t with points := ⟨c, e, m⟩ :: t.points } m) o') :
    Simulates same good W h ((Traced.visit c e >>= fun _ ↦ r) t m) o' := by
  intro hpoints
  have hmem := (ho { t with points := ⟨c, e, m⟩ :: t.points } m).points ⟨c, e, m⟩
    List.mem_cons_self
  exact hr (hpoints _ hmem) hpoints

private theorem simulates_contextOf {f : Closure} {g : Context → Traced α} {o' : Outcome α}
    {h : Heap} (hg : Simulates same good W h (g (t.contextOf f.id) t m) o') :
    Simulates same good W h ((Traced.contextOf f >>= g) t m) o' := hg

/-- New environments for scopes that give the names `ρ`. -/
theorem simulates_newEnv {e : EnvId} (ρ : Renaming) {f : EnvId → Traced α} {f' : EnvId → Run α}
    (hm : m.Similar same W m')
    (hf : Machine.Similar same (Function.update W m.heap.nextId ρ)
        { m with heap := m.heap.push (some e) } { m' with heap := m'.heap.push (some e) } →
      Simulates same good (Function.update W m.heap.nextId ρ) (m.heap.push (some e))
        (f m.heap.nextId t { m with heap := m.heap.push (some e) })
        (f' m.heap.nextId { m' with heap := m'.heap.push (some e) })) :
    Simulates same good W m.heap ((Traced.lift (Run.newEnv e) >>= f) t m)
      ((Run.newEnv e >>= f') m') := by
  intro hpoints
  change ∃ W', _ ∧ Outcome.Similar same good W' _
    (f' m'.heap.nextId { m' with heap := m'.heap.push (some e) })
  rw [hm.nextId]
  obtain ⟨W', hw, hsim⟩ := hf (hm.push (some e) ρ) hpoints
  exact ⟨W', (World.extends_update W m.heap ρ).trans hw (.push m.heap (some e)), hsim⟩

private theorem simulates_inEnv {r : Traced α} {r' : Run α} {e : EnvId} {h : Heap}
    (hm : m.Similar same W m')
    (hr : Simulates same good W h (r t { m with env := e }) (r' { m' with env := e })) :
    Simulates same good W h (Traced.inEnv e r t m) (Run.inEnv e r' m') := by
  intro hpoints
  obtain ⟨W', hw, hsim⟩ := hr hpoints
  refine ⟨W', hw, ?_⟩
  unfold Traced.inEnv Run.inEnv
  dsimp only
  rw [hm.env]
  generalize (r t { m with env := e }).1 = o at hsim
  generalize r' { m' with env := e } = o' at hsim
  cases hsim with
  | done hm₁ ha => exact .done (hm₁.withEnv m.env) ha
  | failed hm₁ hf => exact .failed (hm₁.withEnv m.env) hf

/-- Calls end on the stacks that they were made on. -/
theorem simulates_inCall {r : Traced α} {r' : Run α} {callee : Bytes} {line line' : Int} {h : Heap}
    (ho : Traced.Orderly r) (hm : m.Similar same W m') (hl : same → line' = line)
    (hr : Machine.Similar same W
        { m.setLine line with stack := ⟨some callee, 0⟩ :: (m.setLine line).stack }
        { m'.setLine line' with stack := ⟨some callee, 0⟩ :: (m'.setLine line').stack } →
      Simulates same good W h
        (r t { m.setLine line with stack := ⟨some callee, 0⟩ :: (m.setLine line).stack })
        (r' { m'.setLine line' with stack := ⟨some callee, 0⟩ :: (m'.setLine line').stack })) :
    Simulates same good W h (Traced.inCall callee line r t m) (Run.inCall callee line' r' m') := by
  intro hpoints
  obtain ⟨W', hw, hsim⟩ := hr (hm.inCall callee hl) hpoints
  refine ⟨W', hw, ?_⟩
  have hk := ho t { m.setLine line with stack := ⟨some callee, 0⟩ :: (m.setLine line).stack }
  obtain ⟨f, hf⟩ := hk.machine.stack.of_cons
  unfold Traced.inCall Run.inCall
  dsimp only
  generalize (r t { m.setLine line with stack := ⟨some callee, 0⟩ :: (m.setLine line).stack }).1 = o
    at hsim hf
  generalize r' { m'.setLine line' with stack := ⟨some callee, 0⟩ :: (m'.setLine line').stack } = o'
    at hsim
  cases hsim with
  | done hm₁ ha =>
    have hstack := hm₁.stack
    simp only [Outcome.after_done] at hf
    rw [hf, List.forall₂_cons_left_iff] at hstack
    obtain ⟨f', rest', -, hrest, hf'⟩ := hstack
    simp only [hf, hf']
    exact .done (hm₁.withStack hrest) ha
  | failed hm₁ hfault =>
    have hstack := hm₁.stack
    simp only [Outcome.after_failed] at hf
    rw [hf, List.forall₂_cons_left_iff] at hstack
    obtain ⟨f', rest', -, hrest, hf'⟩ := hstack
    simp only [hf, hf']
    exact .failed (hm₁.withStack hrest) hfault

private theorem simulates_located {good : World → Heap → Value → Value → Prop} {r : Traced Value}
    {r' : Run Value} {paren paren' : Token} {h : Heap} (hparen : paren.Like same paren')
    (hr : Simulates same good W h (r t m) (r' m')) :
    Simulates same good W h (Traced.located paren r t m) (Run.located paren' r' m') := by
  intro hpoints
  obtain ⟨W', hw, hsim⟩ := hr hpoints
  refine ⟨W', hw, ?_⟩
  unfold Traced.located Run.located
  dsimp only
  generalize (r t m).1 = o at hsim
  generalize r' m' = o' at hsim
  cases hsim with
  | done hm₁ ha => exact .done hm₁ ha
  | @failed f _ _ _ hm₁ hfault =>
    cases hfault with
    | runtime hcause hsame => exact .failed hm₁ (.runtime hcause hsame)
    | refl =>
      cases f with
      | call e => exact Outcome.similar_raise hm₁ hparen rfl
      | _ => exact .failed hm₁ (.refl _)

end Simulates

/-! ## Steps that are not nested -/

section Steps

variable {W : World} {t : Trace} {m m' : Machine} {h : Heap}

/-- Reading a variable, which has a value if it is local. -/
theorem simulates_lookup (hm : m.Similar same W m') {names : List Renaming}
    (hfit : W.Fits m.heap m.env names) {name name' : Token} {b : Binding} {ρ : Renaming}
    (hb : b.renaming? names = some ρ) (hname : name.Renamed same ρ name') {c : Context}
    (hbound : Point.Bound ⟨c, .variable name b, m⟩) :
    Simulates same (Value.Like same) W h (Run.lookup name b m, t) (Run.lookup name' b m') := by
  cases b with
  | global =>
    cases hb
    have hlexeme : name'.lexeme = name.lexeme := hname.lexeme
    rw [Run.lookup_global, Run.lookup_global, hlexeme]
    have hv := hm.value_global name.lexeme
    generalize m.heap.lookup Machine.globals name.lexeme = a at hv
    generalize m'.heap.lookup Machine.globals name.lexeme = a' at hv
    cases hv with
    | none => exact simulates_raise hm hname.toLike rfl
    | some hv => exact simulates_done hm hv
  | scope d =>
    obtain ⟨e, he, hρ⟩ := hfit.ancestor? hb
    obtain ⟨e', v, he', hv⟩ := hbound name d rfl
    have hee : e = e' := Option.some.inj (he.symm.trans he')
    subst hee
    have hrel := hm.values e name.lexeme
    rw [hv, hρ, ← hname.lexeme] at hrel
    rw [Run.lookup_scope, Run.lookup_scope, hm.env, hm.ancestor?, he]
    dsimp only
    rw [hv]
    generalize m'.heap.lookup e name'.lexeme = a' at hrel
    cases hrel with
    | some hv' => exact simulates_done hm hv'

private theorem simulates_assign (hm : m.Similar same W m') {names : List Renaming}
    (hfit : W.Fits m.heap m.env names) {name name' : Token} {b : Binding} {ρ : Renaming}
    (hb : b.renaming? names = some ρ) (hname : name.Renamed same ρ name') {v v' : Value}
    (hv : Value.Like same W m.heap v v') :
    Simulates same (fun _ _ _ _ ↦ True) W h (Run.assign name b v m, t)
      (Run.assign name' b v' m') := by
  cases b with
  | global =>
    cases hb
    have hlexeme : name'.lexeme = name.lexeme := hname.lexeme
    have hrel := hm.value_global name.lexeme
    have hdefine := hm.define Machine.globals name.lexeme hv
    rw [hm.globals] at hdefine
    rw [Run.assign_global, Run.assign_global, hlexeme]
    generalize m.heap.lookup Machine.globals name.lexeme = a at hrel
    generalize m'.heap.lookup Machine.globals name.lexeme = a' at hrel
    cases hrel with
    | none => exact simulates_raise hm hname.toLike rfl
    | some _ => exact simulates_done hdefine trivial
  | scope d =>
    obtain ⟨e, he, hρ⟩ := hfit.ancestor? hb
    have hdefine := hm.define e name.lexeme hv
    rw [hρ, ← hname.lexeme] at hdefine
    have he' : m'.heap.ancestor? d m'.env = some e := by rw [hm.env, hm.ancestor?, he]
    rw [Run.assign_scope, Run.assign_scope, he, he']
    exact simulates_done hdefine trivial

-- Steps that end alike on all machines that are similar.
private def Alike (same : Prop) (W : World) (g : Heap) (r r' : Run Value) : Prop :=
  ∀ t m m' h, g.Later m.heap → m.Similar same W m' →
    Simulates same (Value.Like same) W h (r m, t) (r' m')

private theorem alike_succeed {g : Heap} {v v' : Value} (hv : Value.Like same W g v v') :
    Alike same W g (Run.succeed v) (Run.succeed v') :=
  fun _ _ _ _ hg hm ↦ simulates_done hm (hv.later (.refl W g) hg)

private theorem alike_raise {g : Heap} {op op' : Token} (hop : op.Like same op')
    (cause : RuntimeError.Cause) : Alike same W g (Run.raise op cause) (Run.raise op' cause) :=
  fun _ _ _ _ _ hm ↦ simulates_raise hm hop rfl

private theorem alike_stuck {g : Heap} : Alike same W g (Run.fail .stuck) (Run.fail .stuck) :=
  fun _ _ _ _ _ hm ↦ simulates_failed hm (.refl _)

private theorem alike_applyUnary {g : Heap} {op op' : Token} (hop : op.Like same op')
    {v v' : Value} (hv : Value.Like same W g v v') :
    Alike same W g (Run.applyUnary op v) (Run.applyUnary op' v') := by
  unfold Run.applyUnary
  rw [hop.kind, hv.truth]
  generalize op.kind = k
  cases k with
  | minus =>
    cases hv with
    | number x => exact alike_succeed (.number _)
    | _ => exact alike_raise hop _
  | bang => exact alike_succeed (.bool _)
  | _ => exact alike_stuck

private theorem alike_applyArithmetic {g : Heap} {op op' : Token} (hop : op.Like same op')
    (x y : Number) : Alike same W g (Run.applyArithmetic op x y) (Run.applyArithmetic op' x y) := by
  unfold Run.applyArithmetic
  rw [hop.kind]
  generalize op.kind = k
  cases k with
  | slash =>
    dsimp only
    split
    · exact alike_raise hop _
    · exact alike_succeed (.number _)
  | minus => exact alike_succeed (.number _)
  | star => exact alike_succeed (.number _)
  | greater => exact alike_succeed (.bool _)
  | greaterEqual => exact alike_succeed (.bool _)
  | less => exact alike_succeed (.bool _)
  | lessEqual => exact alike_succeed (.bool _)
  | _ => exact alike_stuck

-- Operators that are for numbers.
private theorem alike_numbers {g : Heap} {op op' : Token} (hop : op.Like same op')
    (v v' w w' : Value) : Value.Like same W g v v' → Value.Like same W g w w' →
    Alike same W g
      (match v, w with
        | .number x, .number y => Run.applyArithmetic op x y
        | _, _ => Run.raise op .operandsNotNumbers)
      (match v', w' with
        | .number x, .number y => Run.applyArithmetic op' x y
        | _, _ => Run.raise op' .operandsNotNumbers) := by
  intro hv hw
  cases hv with
  | number x =>
    cases hw with
    | number y => exact alike_applyArithmetic hop x y
    | _ => exact alike_raise hop _
  | _ => exact alike_raise hop _

private theorem alike_add {g : Heap} {op op' : Token} (hop : op.Like same op')
    (v v' w w' : Value) : Value.Like same W g v v' → Value.Like same W g w w' →
    Alike same W g
      (match v, w with
        | .number x, .number y => Run.succeed (.number (x.add y))
        | .text s, .text t => Run.succeed (.text (s ++ t))
        | _, _ => Run.raise op .operandsNotAddable)
      (match v', w' with
        | .number x, .number y => Run.succeed (.number (x.add y))
        | .text s, .text t => Run.succeed (.text (s ++ t))
        | _, _ => Run.raise op' .operandsNotAddable) := by
  intro hv hw
  cases hv with
  | number x =>
    cases hw with
    | number y => exact alike_succeed (.number _)
    | _ => exact alike_raise hop _
  | text s =>
    cases hw with
    | text s' => exact alike_succeed (.text _)
    | _ => exact alike_raise hop _
  | _ => exact alike_raise hop _

private theorem alike_applyBinary {g : Heap} {op op' : Token} (hop : op.Like same op')
    {v v' w w' : Value} (hv : Value.Like same W g v v') (hw : Value.Like same W g w w') :
    Alike same W g (Run.applyBinary op v w) (Run.applyBinary op' v' w') := by
  have hadd := alike_add hop v v' w w' hv hw
  have hnumbers := alike_numbers hop v v' w w' hv hw
  unfold Run.applyBinary
  rw [hop.kind, hv.equal hw]
  generalize op.kind = k
  cases k with
  | equalEqual => exact alike_succeed (.bool _)
  | bangEqual => exact alike_succeed (.bool _)
  | plus => exact hadd
  | _ => exact hnumbers

-- A function of the host, on arguments that are alike.
private theorem simulates_perform (hm : m.Similar same W m') {f : Builtin}
    (hf : f.action.seesLines → same) {args args' : List Value}
    (hargs : List.Forall₂ (Value.Like same W m.heap) args args') :
    Simulates same (Value.Like same) W h (Run.perform f args m, t) (Run.perform f args' m') := by
  unfold Run.perform
  cases hact : f.action with
  | clock =>
    dsimp only
    rw [hm.clock]
    cases m.clock with
    | none => exact simulates_failed hm (.refl _)
    | some ns => exact simulates_done hm (.number _)
  | first =>
    cases hargs with
    | nil => exact simulates_failed hm (.refl _)
    | cons hv _ => exact simulates_done hm hv
  | typeName =>
    cases hargs with
    | nil => exact simulates_failed hm (.refl _)
    | cons hv _ =>
      dsimp only
      rw [hv.typeName]
      exact simulates_done hm (.text _)
  | fail => exact simulates_failed hm (.refl _)
  | nothing => exact simulates_failed hm (.refl _)
  | stack =>
    dsimp only
    rw [CallStack.eq_of_like (hf (by rw [hact]; rfl)) hm.stack]
    exact simulates_done hm (.text _)
  | depth =>
    dsimp only
    rw [← hm.stack.length_eq]
    exact simulates_done hm (.number _)
  | procedure => exact simulates_failed hm (.refl _)
  | nil => exact simulates_done hm .nil

-- Binding parameters, which have other names in the second machine, to arguments.
private theorem simulates_bindParams {e : EnvId} {params params' : List Token}
    {args args' : List Value} (hm : m.Similar same W m')
    (hparams : List.Forall₂ (Token.Renamed same (W e)) params params')
    (hargs : List.Forall₂ (Value.Like same W m.heap) args args') :
    Simulates same (fun _ _ _ _ ↦ True) W h (Run.bindParams e params args m, t)
      (Run.bindParams e params' args' m') := by
  induction hparams generalizing args args' m m' with
  | nil => exact simulates_done hm trivial
  | @cons p p' ps ps' hp _ ih =>
    cases hargs with
    | nil => exact simulates_failed hm (.refl _)
    | @cons v v' vs vs' hv hvs =>
      have hdefine := hm.define e p.lexeme hv
      rw [← hp.lexeme] at hdefine
      exact ih hdefine (hvs.imp fun _ _ hw ↦ hw.later (.refl W _) (.define _ _ _ _))

/-- The same way to end, with values that are alike. -/
inductive Completion.Like (same : Prop) (W : World) (h : Heap) :
    Completion → Completion → Prop where
  | normal : Completion.Like same W h .normal .normal
  | returned {v v' : Value} {t t' : Token} (hv : Value.Like same W h v v')
      (ht : t.Renamed same 1 t') : Completion.Like same W h (.returned v t) (.returned v' t')
  | broken {t t' : Token} (ht : t.Renamed same 1 t') :
    Completion.Like same W h (.broken t) (.broken t')
  | continued {t t' : Token} (ht : t.Renamed same 1 t') :
    Completion.Like same W h (.continued t) (.continued t')

private theorem branchOutsideLoop_eq {t t' : Token} (ht : t.Renamed same 1 t') :
    RuntimeError.Cause.branchOutsideLoop t'.lexeme = .branchOutsideLoop t.lexeme :=
  congrArg _ ht.lexeme_eq

private theorem simulates_returnValue (hm : m.Similar same W m')
    {completion completion' : Completion} (hc : completion.Like same W m.heap completion') :
    Simulates same (Value.Like same) W h (Run.returnValue completion m, t)
      (Run.returnValue completion' m') := by
  cases hc with
  | normal => exact simulates_done hm .nil
  | returned hv _ => exact simulates_done hm hv
  | broken ht => exact simulates_raise hm ht.toLike (branchOutsideLoop_eq ht)
  | continued ht => exact simulates_raise hm ht.toLike (branchOutsideLoop_eq ht)

private theorem simulates_endProgram (hm : m.Similar same W m')
    {completion completion' : Completion} (hc : completion.Like same W m.heap completion') :
    Simulates same (fun _ _ _ _ ↦ True) W h (Run.endProgram completion m, t)
      (Run.endProgram completion' m') := by
  cases hc with
  | normal => exact simulates_done hm trivial
  | returned _ ht => exact simulates_raise hm ht.toLike rfl
  | broken ht => exact simulates_raise hm ht.toLike (branchOutsideLoop_eq ht)
  | continued ht => exact simulates_raise hm ht.toLike (branchOutsideLoop_eq ht)

end Steps

/-! ## Evaluation -/

/-- Lists of values that are alike. -/
def Value.AllLike (same : Prop) (W : World) (h : Heap) : List Value → List Value → Prop :=
  List.Forall₂ (Value.Like same W h)

-- With some fuel, code that is alike ends alike.
private structure SimulatesAt (same : Prop) (n : Nat) : Prop where
  eval : ∀ {W names c e e' t m m'}, m.Similar same W m' → W.Fits m.heap m.env names →
    Expr.Like same names e e' →
    Simulates same (Value.Like same) W m.heap (Traced.eval n c e t m) (Run.eval n e' m')
  evalAll : ∀ {W names c es es' t m m'}, m.Similar same W m' → W.Fits m.heap m.env names →
    Expr.AllLike same names es es' →
    Simulates same (Value.AllLike same) W m.heap (Traced.evalAll n c es t m) (Run.evalAll n es' m')
  call : ∀ {W f f' args args' line line' t m m'}, m.Similar same W m' →
    Value.Like same W m.heap f f' → Value.AllLike same W m.heap args args' →
    (same → line' = line) →
    Simulates same (Value.Like same) W m.heap (Traced.call n f args line t m)
      (Run.call n f' args' line' m')
  exec : ∀ {W names c s s' t m m'}, m.Similar same W m' → W.Fits m.heap m.env names →
    Stmt.Like same names s s' →
    Simulates same (Completion.Like same) W m.heap (Traced.exec n c s t m) (Run.exec n s' m')
  repeatWhile : ∀ {W names c test test' body body' t m m'}, m.Similar same W m' →
    W.Fits m.heap m.env names → Expr.Like same names test test' →
    Stmt.Like same names body body' →
    Simulates same (Completion.Like same) W m.heap (Traced.repeatWhile n c test body t m)
      (Run.repeatWhile n test' body' m')
  execAll : ∀ {W names c ss ss' t m m'}, m.Similar same W m' → W.Fits m.heap m.env names →
    Stmt.AllLike same names ss ss' →
    Simulates same (Completion.Like same) W m.heap (Traced.execAll n c ss t m)
      (Run.execAll n ss' m')

section Succ

variable {n : Nat} {W : World} {names : List Renaming} {c : Context} {t : Trace} {m m' : Machine}

-- The names still fit after a step.
private theorem fits_kept {α : Type} {W' : World} {o : Outcome α × Trace}
    (hfit : W.Fits m.heap m.env names) (hw : W.Extends m.heap W') (hk : Traced.Kept t m o) :
    W'.Fits o.1.after.heap o.1.after.env names := by
  rw [hk.machine.env]
  exact hfit.later hw hk.machine.later.heap

-- Values are still alike after a step.
private theorem like_kept {α : Type} {W' : World} {o : Outcome α × Trace} {v v' : Value}
    (hv : Value.Like same W m.heap v v') (hw : W.Extends m.heap W') (hk : Traced.Kept t m o) :
    Value.Like same W' o.1.after.heap v v' := hv.later hw hk.machine.later.heap

private theorem simulates_eval_succ (ih : SimulatesAt same n) {e e' : Expr Binding}
    (hm : m.Similar same W m') (hfit : W.Fits m.heap m.env names)
    (he : Expr.Like same names e e') :
    Simulates same (Value.Like same) W m.heap (Traced.eval (n + 1) c e t m)
      (Run.eval (n + 1) e' m') := by
  cases he with
  | literal tok tok' v =>
    apply simulates_visit
    cases v with
    | nil => exact simulates_done hm .nil
    | bool b => exact simulates_done hm (.bool b)
    | number x => exact simulates_done hm (.number x)
    | text s => exact simulates_done hm (.text s)
  | grouping tok tok' hx =>
    apply simulates_visit
    exact ih.eval hm hfit hx
  | unary hop hx =>
    apply simulates_visit
    apply simulates_bind (Traced.orderly_eval n c _)
      (fun v ↦ Traced.orderly_lift (Run.applied_unary _ v).orderly) (ih.eval hm hfit hx)
    intro _ v v' t₁ m₁ m₁' _ _ hm₁ hv
    exact alike_applyUnary hop hv t₁ m₁ m₁' m₁.heap (.refl _) hm₁
  | binary hx hop hy =>
    apply simulates_visit
    apply simulates_bind (Traced.orderly_eval n c _)
      (fun v ↦ Traced.orderly_bind (Traced.orderly_eval n c _) fun w ↦
        Traced.orderly_lift (Run.applied_binary _ v w).orderly) (ih.eval hm hfit hx)
    intro W₁ v v' t₁ m₁ m₁' hw₁ hk₁ hm₁ hv
    apply simulates_bind (Traced.orderly_eval n c _)
      (fun w ↦ Traced.orderly_lift (Run.applied_binary _ v w).orderly)
      (ih.eval hm₁ (fits_kept hfit hw₁ hk₁) hy)
    intro W₂ w w' t₂ m₂ m₂' hw₂ hk₂ hm₂ hw
    exact alike_applyBinary hop (like_kept hv hw₂ hk₂) hw t₂ m₂ m₂' m₂.heap (.refl _) hm₂
  | @logical op op' x x' y y' hx hop hy =>
    apply simulates_visit
    apply simulates_bind (Traced.orderly_eval n c _)
      (fun v ↦ Traced.orderly_ite (Traced.orderly_pure v) (Traced.orderly_eval n c _))
      (ih.eval hm hfit hx)
    intro W₁ v v' t₁ m₁ m₁' hw₁ hk₁ hm₁ hv
    have hskip : Run.skipsRight op' v' = Run.skipsRight op v := by
      rw [Run.skipsRight, Run.skipsRight, hop.kind, hv.truth]
    rw [hskip]
    split
    · exact simulates_done hm₁ hv
    · exact ih.eval hm₁ (fits_kept hfit hw₁ hk₁) hy
  | «variable» hb hname =>
    apply simulates_visit_bound (Traced.orderly_lift (Run.orderly_lookup _ _))
    intro hbound
    exact simulates_lookup hm hfit hb hname hbound
  | assign hb hname hx =>
    apply simulates_visit
    apply simulates_bind (Traced.orderly_eval n c _)
      (fun v ↦ Traced.orderly_bind (Traced.orderly_lift (Run.orderly_assign _ _ v)) fun _ ↦
        Traced.orderly_pure v) (ih.eval hm hfit hx)
    intro W₁ v v' t₁ m₁ m₁' hw₁ hk₁ hm₁ hv
    apply simulates_bind (Traced.orderly_lift (Run.orderly_assign _ _ v))
      (fun _ ↦ Traced.orderly_pure v)
      (simulates_assign hm₁ (fits_kept hfit hw₁ hk₁) hb hname hv)
    intro W₂ _ _ t₂ m₂ m₂' hw₂ hk₂ hm₂ _
    exact simulates_done hm₂ (like_kept hv hw₂ hk₂)
  | call hf hparen hargs =>
    apply simulates_visit
    apply simulates_bind (Traced.orderly_eval n c _)
      (fun g ↦ Traced.orderly_bind (Traced.orderly_evalAll n c _) fun vs ↦
        Traced.orderly_located _ (Traced.orderly_call n g vs _)) (ih.eval hm hfit hf)
    intro W₁ g g' t₁ m₁ m₁' hw₁ hk₁ hm₁ hg
    apply simulates_bind (Traced.orderly_evalAll n c _)
      (fun vs ↦ Traced.orderly_located _ (Traced.orderly_call n g vs _))
      (ih.evalAll hm₁ (fits_kept hfit hw₁ hk₁) hargs)
    intro W₂ vs vs' t₂ m₂ m₂' hw₂ hk₂ hm₂ hvs
    exact simulates_located hparen (ih.call hm₂ (like_kept hg hw₂ hk₂) hvs hparen.line)

private theorem simulates_evalAll_succ (ih : SimulatesAt same n) {es es' : List (Expr Binding)}
    (hm : m.Similar same W m') (hfit : W.Fits m.heap m.env names)
    (he : Expr.AllLike same names es es') :
    Simulates same (Value.AllLike same) W m.heap (Traced.evalAll (n + 1) c es t m)
      (Run.evalAll (n + 1) es' m') := by
  cases he with
  | nil => exact simulates_done hm .nil
  | cons hx hxs =>
    apply simulates_bind (Traced.orderly_eval n c _)
      (fun v ↦ Traced.orderly_bind (Traced.orderly_evalAll n c _) fun vs ↦ Traced.orderly_pure _)
      (ih.eval hm hfit hx)
    intro W₁ v v' t₁ m₁ m₁' hw₁ hk₁ hm₁ hv
    apply simulates_bind (Traced.orderly_evalAll n c _) (fun vs ↦ Traced.orderly_pure _)
      (ih.evalAll hm₁ (fits_kept hfit hw₁ hk₁) hxs)
    intro W₂ vs vs' t₂ m₂ m₂' hw₂ hk₂ hm₂ hvs
    exact simulates_done hm₂ (.cons (like_kept hv hw₂ hk₂) hvs)

-- The part of a call that is done as a call.
private theorem simulates_body (ih : SimulatesAt same n) {f f' : Closure} (hm : m.Similar same W m')
    (hf : f.Like same W m.heap f') {args args' : List Value}
    (hargs : Value.AllLike same W m.heap args args') :
    Simulates same (Value.Like same) W m.heap
      ((do
        let c ← Traced.contextOf f
        let e ← Traced.lift (Run.newEnv f.env)
        Traced.lift (Run.bindParams e f.params args)
        let completion ← Traced.inEnv e
          (Traced.execAll n ((c.enter e).recordParams f.params) f.body)
        Traced.lift (Run.returnValue completion) : Traced Value) t m)
      ((do
        let e ← Run.newEnv f'.env
        Run.bindParams e f'.params args'
        let completion ← Run.inEnv e (Run.execAll n f'.body)
        Run.returnValue completion : Run Value) m') := by
  obtain ⟨ρ, names, hfit, hparams, hbody⟩ := hf.code
  rw [hf.env]
  apply simulates_contextOf
  apply simulates_newEnv ρ hm
  intro hm₁
  have hw₁ := World.extends_update W m.heap ρ
  have hparams₁ : List.Forall₂
      (Token.Renamed same (Function.update W m.heap.nextId ρ m.heap.nextId))
      f.params f'.params := by
    rw [Function.update_self]
    exact hparams
  apply simulates_bind (Traced.orderly_lift (Run.orderly_bindParams _ f.params args))
    (fun _ ↦ Traced.orderly_bind (Traced.orderly_inEnv _ (Traced.orderly_execAll n _ f.body))
      fun completion ↦ Traced.orderly_lift (Run.orderly_returnValue completion))
    (simulates_bindParams hm₁ hparams₁ (hargs.imp fun _ _ hv ↦ hv.later hw₁ (.push _ _)))
  intro W₂ _ _ t₂ m₂ m₂' hw₂ hk₂ hm₂ _
  have hfit₂ := (hfit.push ρ).later hw₂ hk₂.machine.later.heap
  have hexec : Simulates same (Completion.Like same) W₂ m₂.heap
      (Traced.inEnv m.heap.nextId (Traced.execAll n
        (((t.contextOf f.id).enter m.heap.nextId).recordParams f.params) f.body) t₂ m₂)
      (Run.inEnv m.heap.nextId (Run.execAll n f'.body) m₂') :=
    simulates_inEnv hm₂ (ih.execAll (hm₂.withEnv m.heap.nextId) hfit₂ hbody)
  apply simulates_bind (Traced.orderly_inEnv _ (Traced.orderly_execAll n _ f.body))
    (fun completion ↦ Traced.orderly_lift (Run.orderly_returnValue completion)) hexec
  intro W₃ completion completion' t₃ m₃ m₃' _ _ hm₃ hc
  exact simulates_returnValue hm₃ hc

/-- The same ends of calls, with values that are alike. -/
inductive Result.Like (same : Prop) (W : World) (h : Heap) :
    Except Fault Value → Except Fault Value → Prop where
  | ok {v v' : Value} (hv : Value.Like same W h v v') : Result.Like same W h (.ok v) (.ok v')
  | error (e : Fault) : Result.Like same W h (.error e) (.error e)

private theorem Result.Like.reply {r r' : Except Fault Value} {h : Heap}
    (hr : Result.Like same W h r r') : Procedure.reply r' = Procedure.reply r := by
  cases hr with
  | ok hv => simp only [Procedure.reply, hv.sight]
  | error e => rfl

-- Errors are the same if lines are.
private theorem simulates_attempt (hsame : same) {r : Traced Value} {r' : Run Value} {h : Heap}
    (hr : Simulates same (Value.Like same) W h (r t m) (r' m')) :
    Simulates same (Result.Like same) W h (Traced.attempt r t m) (Run.attempt r' m') := by
  intro hpoints
  obtain ⟨W', hw, hsim⟩ := hr hpoints
  refine ⟨W', hw, ?_⟩
  unfold Traced.attempt Run.attempt
  dsimp only
  generalize (r t m).1 = o at hsim
  generalize r' m' = o' at hsim
  cases hsim with
  | done hm₁ ha => exact .done hm₁ (.ok ha)
  | failed hm₁ hfault =>
    cases hfault with
    | runtime _ heq =>
      cases heq hsame
      exact .done hm₁ (.error _)
    | refl =>
      dsimp only
      split
      · exact .done hm₁ (.error _)
      · exact .failed hm₁ (.refl _)

-- The same values, but for the code of functions, and the same errors.
private structure Hand.Like (same : Prop) (W : World) (h : Heap) (d d' : Procedure.Hand) :
    Prop where
  values : Value.AllLike same W h d.values d'.values
  errors : d'.errors = d.errors

namespace Hand.Like

variable {W' : World} {h h' : Heap} {d d' : Procedure.Hand}

private theorem later (hd : Hand.Like same W h d d') (hw : W.Extends h W') (hl : h.Later h') :
    Hand.Like same W' h' d d' := ⟨hd.values.imp fun _ _ hv ↦ hv.later hw hl, hd.errors⟩

private theorem value (hd : Hand.Like same W h d d') (x : Procedure.Operand) :
    Value.Like same W h (d.value x) (d'.value x) := by
  cases x with
  | literal v => cases v <;> constructor
  | held i =>
    obtain ⟨vs, es⟩ := d
    obtain ⟨vs', es'⟩ := d'
    have hvs : List.Forall₂ (Value.Like same W h) vs vs' := hd.values
    clear hd
    induction hvs generalizing i with
    | nil => exact .nil
    | cons hv _ ih =>
      cases i with
      | zero => exact hv
      | succ i => exact ih i

private theorem values_map (hd : Hand.Like same W h d d') (xs : List Procedure.Operand) :
    Value.AllLike same W h (xs.map d.value) (xs.map d'.value) := by
  induction xs with
  | nil => exact .nil
  | cons x xs ih => exact .cons (hd.value x) ih

private theorem add (hd : Hand.Like same W h d d') {r r' : Except Fault Value}
    (hr : Result.Like same W h r r') : Hand.Like same W h (d.add r) (d'.add r') := by
  cases hr with
  | ok hv => exact ⟨.cons hv hd.values, hd.errors⟩
  | error e => exact ⟨hd.values, congrArg (e :: ·) hd.errors⟩

private theorem addValue (hd : Hand.Like same W h d d') {a a' : Option Value}
    (ha : Option.Rel (Value.Like same W h) a a') :
    Hand.Like same W h (d.addValue a) (d'.addValue a') := by
  cases ha with
  | none => exact hd
  | some hv => exact ⟨.cons hv hd.values, hd.errors⟩

end Hand.Like

-- A procedure does the same with what is alike, as it sees the same.
private theorem simulates_serve (hsame : same) {call : Value → List Value → Int → Traced Value}
    {call' : Value → List Value → Int → Run Value}
    (ho : ∀ f args line, Traced.Orderly (call f args line))
    (hcall : ∀ {W f f' args args' t m m'} line, m.Similar same W m' →
      Value.Like same W m.heap f f' → Value.AllLike same W m.heap args args' →
      Simulates same (Value.Like same) W m.heap (call f args line t m) (call' f' args' line m'))
    (callee : Bytes) (p : Procedure) {d d' : Procedure.Hand} (hm : m.Similar same W m')
    (hd : Hand.Like same W m.heap d d') :
    Simulates same (Value.Like same) W m.heap
      (Run.serve Traced.lift Traced.attempt call callee p d t m)
      (Run.serve id Run.attempt call' callee p d' m') := by
  induction p generalizing d d' W t m m' with
  | yield x => exact simulates_done hm (hd.value x)
  | fail message => exact simulates_failed hm (.refl _)
  | rethrow i =>
    have herror : d'.error callee i = d.error callee i := by
      rw [Procedure.Hand.error, Procedure.Hand.error, hd.errors]
    change Simulates same _ W m.heap _ (Run.fail (d'.error callee i) m')
    rw [herror]
    exact simulates_failed hm (.refl _)
  | call g args line next ih =>
    apply simulates_bind (Traced.orderly_attempt (ho _ _ line))
      (fun _ ↦ Traced.orderly_serve ho callee _ _)
      (simulates_attempt hsame (hcall line hm (hd.value g) (hd.values_map args)))
    intro W₁ r r' t₁ m₁ m₁' hw₁ hk₁ hm₁ hr
    rw [hr.reply]
    exact ih _ hm₁ ((hd.later hw₁ hk₁.machine.later.heap).add hr)
  | read name next ih =>
    have hv := hm.value_global name
    rw [Machine.globals, ← Heap.get?_zero, ← Heap.get?_zero] at hv
    have hsight : (m'.heap.get? 0 name).map Value.sight = (m.heap.get? 0 name).map Value.sight := by
      generalize m.heap.get? 0 name = a, m'.heap.get? 0 name = a' at hv
      cases hv with
      | none => rfl
      | some hv => exact congrArg some hv.sight
    change Simulates same _ W m.heap _ (Run.serve id Run.attempt call' callee
      (next ((m'.heap.get? 0 name).map Value.sight)) (d'.addValue (m'.heap.get? 0 name)) m')
    rw [hsight]
    exact ih _ hm (hd.addValue hv)
  | define name x next ih =>
    have hsimilar := hm.define Machine.globals name (hd.value x)
    rw [hm.globals] at hsimilar
    have hdefine : Simulates same (fun _ _ (_ _ : Unit) ↦ True) W m.heap
        (Traced.lift (Run.change fun m ↦
          { m with heap := m.heap.define Machine.globals name (d.value x) }) t m)
        (Run.change (fun m ↦
          { m with heap := m.heap.define Machine.globals name (d'.value x) }) m') :=
      simulates_done hsimilar trivial
    apply simulates_bind (Traced.orderly_lift (Run.orderly_defineGlobal name _))
      (fun _ ↦ Traced.orderly_serve ho callee _ _) hdefine
    intro W₁ _ _ t₁ m₁ m₁' hw₁ hk₁ hm₁ _
    exact ih hm₁ (hd.later hw₁ hk₁.machine.later.heap)

-- A procedure starts with the same in its sight.
private theorem simulates_start (hsame : same) (ih : SimulatesAt same n) (f : Builtin)
    (p : Procedure.Occasion → Procedure) {args args' : List Value} (hm : m.Similar same W m')
    (hargs : Value.AllLike same W m.heap args args') :
    Simulates same (Value.Like same) W m.heap
      (Run.start Traced.lift Traced.attempt (Traced.call n) f p args t m)
      (Run.start id Run.attempt (Run.call n) f p args' m') := by
  have hsights : args'.map Value.sight = args.map Value.sight := by
    induction hargs with
    | nil => rfl
    | cons hv _ ih => rw [List.map_cons, List.map_cons, hv.sight, ih]
  have hcallers : m'.stack.tail = m.stack.tail := by rw [CallStack.eq_of_like hsame hm.stack]
  change Simulates same _ W m.heap _
    (Run.serve id Run.attempt (Run.call n) (Value.builtin f).display
      (p ⟨args'.map Value.sight, m'.stack.tail⟩) ⟨args', []⟩ m')
  rw [hsights, hcallers]
  exact simulates_serve hsame (Traced.orderly_call n)
    (fun line hm hg hvs ↦ ih.call hm hg hvs fun _ ↦ rfl) _ _ hm ⟨hargs, rfl⟩

private theorem simulates_call_succ (ih : SimulatesAt same n) {f f' : Value}
    {args args' : List Value} {line line' : Int} (hm : m.Similar same W m')
    (hf : Value.Like same W m.heap f f') (hargs : Value.AllLike same W m.heap args args')
    (hl : same → line' = line) :
    Simulates same (Value.Like same) W m.heap (Traced.call (n + 1) f args line t m)
      (Run.call (n + 1) f' args' line' m') := by
  have hlen : args'.length = args.length := hargs.length_eq.symm
  cases hf with
  | @function f f' hf =>
    obtain ⟨ρ, names, -, hparams, -⟩ := hf.code
    have hlen' : f'.params.length = f.params.length := hparams.length_eq.symm
    by_cases harity : args.length = f.params.length
    · simp only [Traced.call, Run.call, hlen, hlen', harity, if_true, hf.name]
      apply simulates_inCall (Traced.orderly_body (Traced.orderly_execAll n) f args) hm hl
      intro hm₁
      exact simulates_body ih hm₁ hf hargs
    · simp only [Traced.call, Run.call, hlen, hlen', harity, if_false]
      exact simulates_failed hm (.refl _)
  | builtin f hlines =>
    by_cases harity : (args.length : Int) = f.arity
    · simp only [Traced.call, Run.call, hlen, harity, if_true]
      have hperform : Simulates same (Value.Like same) W m.heap
          (Traced.inCall f.name line (Traced.lift (Run.perform f args)) t m)
          (Run.inCall f.name line' (Run.perform f args') m') := by
        apply simulates_inCall (Traced.orderly_lift (Run.orderly_perform f args)) hm hl
        intro hm₁
        exact simulates_perform hm₁ hlines hargs
      cases hact : f.action with
      | procedure p =>
        apply simulates_inCall (Traced.orderly_start (Traced.orderly_call n) f p args) hm hl
        intro hm₁
        exact simulates_start (hlines (by rw [hact]; rfl)) ih f p hm₁ hargs
      | _ => exact hperform
    · simp only [Traced.call, Run.call, hlen, harity, if_false]
      exact simulates_failed hm (.refl _)
  | nil => exact simulates_failed hm (.refl _)
  | bool b => exact simulates_failed hm (.refl _)
  | number x => exact simulates_failed hm (.refl _)
  | text s => exact simulates_failed hm (.refl _)

-- Binding a name of the innermost scope.
private theorem simulates_define (hm : m.Similar same W m') (hfit : W.Fits m.heap m.env names)
    {name name' : Token} (hname : name'.lexeme = names.headD 1 name.lexeme) {v v' : Value}
    (hv : Value.Like same W m.heap v v') {h : Heap} :
    Simulates same (fun _ _ _ _ ↦ True) W h (Run.define name.lexeme v m, t)
      (Run.define name'.lexeme v' m') := by
  have hdefine := hm.define m.env name.lexeme hv
  rw [← hfit.head hm.globals, ← hname] at hdefine
  have hright : Run.define name'.lexeme v' m' =
      .done () { m' with heap := m'.heap.define m.env name'.lexeme v' } := by
    rw [← hm.env]
    rfl
  rw [hright]
  exact simulates_done hdefine trivial

private theorem simulates_exec_succ (ih : SimulatesAt same n) {s s' : Stmt Binding}
    (hm : m.Similar same W m') (hfit : W.Fits m.heap m.env names)
    (hs : Stmt.Like same names s s') :
    Simulates same (Completion.Like same) W m.heap (Traced.exec (n + 1) c s t m)
      (Run.exec (n + 1) s' m') := by
  cases hs with
  | expr he =>
    apply simulates_bind (Traced.orderly_eval n c _) (fun _ ↦ Traced.orderly_pure _)
      (ih.eval hm hfit he)
    intro _ _ _ _ _ _ _ _ hm₁ _
    exact simulates_done hm₁ .normal
  | print tok tok' he =>
    apply simulates_bind (Traced.orderly_eval n c _)
      (fun v ↦ Traced.orderly_bind (Traced.orderly_lift (Run.orderly_print _)) fun _ ↦
        Traced.orderly_pure _) (ih.eval hm hfit he)
    intro W₁ v v' t₁ m₁ m₁' _ _ hm₁ hv
    rw [hv.display]
    exact simulates_done (hm₁.print v.display) .normal
  | declare hname =>
    apply simulates_bind (Traced.orderly_lift (Run.orderly_define _ .nil))
      (fun _ ↦ Traced.orderly_pure _) (simulates_define hm hfit hname.lexeme .nil)
    intro _ _ _ _ _ _ _ _ hm₁ _
    exact simulates_done hm₁ .normal
  | @init _ name name' e e' hname he =>
    apply simulates_bind (Traced.orderly_eval n _ e)
      (fun v ↦ Traced.orderly_bind (Traced.orderly_lift (Run.orderly_define name.lexeme v)) fun _ ↦
        Traced.orderly_pure _) (ih.eval hm hfit he)
    intro W₁ v v' t₁ m₁ m₁' hw₁ hk₁ hm₁ hv
    apply simulates_bind (Traced.orderly_lift (Run.orderly_define name.lexeme v))
      (fun _ ↦ Traced.orderly_pure _)
      (simulates_define hm₁ (fits_kept hfit hw₁ hk₁) hname.lexeme hv)
    intro _ _ _ _ _ _ _ _ hm₂ _
    exact simulates_done hm₂ .normal
  | @block _ tok tok' ρ body body' hbody =>
    have hright : Run.exec (n + 1) (.block tok' body') m' = (do
        let e ← Run.newEnv m.env
        Run.inEnv e (Run.execAll n body') : Run Completion) m' := by
      rw [← hm.env]
      rfl
    rw [hright]
    apply simulates_newEnv ρ hm
    intro hm₁
    exact simulates_inEnv hm₁ (ih.execAll (hm₁.withEnv m.heap.nextId) (hfit.push ρ) hbody)
  | @ifOnly _ tok tok' test test' yes yes' htest hyes =>
    apply simulates_bind (Traced.orderly_eval n c test)
      (fun _ ↦ Traced.orderly_ite (Traced.orderly_exec n c yes) (Traced.orderly_pure _))
      (ih.eval hm hfit htest)
    intro W₁ v v' t₁ m₁ m₁' hw₁ hk₁ hm₁ hv
    rw [hv.truth]
    split
    · exact ih.exec hm₁ (fits_kept hfit hw₁ hk₁) hyes
    · exact simulates_done hm₁ .normal
  | @ifElse _ tok tok' test test' yes yes' no no' htest hyes hno =>
    apply simulates_bind (Traced.orderly_eval n c test)
      (fun _ ↦ Traced.orderly_ite (Traced.orderly_exec n c yes) (Traced.orderly_exec n c no))
      (ih.eval hm hfit htest)
    intro W₁ v v' t₁ m₁ m₁' hw₁ hk₁ hm₁ hv
    rw [hv.truth]
    split
    · exact ih.exec hm₁ (fits_kept hfit hw₁ hk₁) hyes
    · exact ih.exec hm₁ (fits_kept hfit hw₁ hk₁) hno
  | «while» tok tok' htest hbody => exact ih.repeatWhile hm hfit htest hbody
  | @function _ name name' ρ params params' body body' hname hfixed hparams hbody =>
    have hclosure : Closure.Like same W m.heap ⟨m.nextFunction, name, params, body, m.env⟩
        ⟨m'.nextFunction, name', params', body', m'.env⟩ :=
      ⟨hm.nextFunction, hm.env, hname.lexeme_eq, ρ, names, hfit, hparams, hbody⟩
    have hdeclared : name'.lexeme = names.headD 1 name.lexeme := hname.lexeme_eq.trans hfixed.symm
    have hnew : Simulates same (Value.Like same) W m.heap
        (Traced.newFunction (c.record name.lexeme true) name params body t m)
        (Run.newFunction name' params' body' m') :=
      simulates_done hm.newFunction (.function hclosure)
    apply simulates_bind (Traced.orderly_newFunction _ name params body)
      (fun f ↦ Traced.orderly_bind (Traced.orderly_lift (Run.orderly_define name.lexeme f)) fun _ ↦
        Traced.orderly_pure _) hnew
    intro W₁ f f' t₁ m₁ m₁' hw₁ hk₁ hm₁ hf
    apply simulates_bind (Traced.orderly_lift (Run.orderly_define name.lexeme f))
      (fun _ ↦ Traced.orderly_pure _)
      (simulates_define hm₁ (fits_kept hfit hw₁ hk₁) hdeclared hf)
    intro _ _ _ _ _ _ _ _ hm₂ _
    exact simulates_done hm₂ .normal
  | returnNil ht => exact simulates_done hm (.returned .nil ht)
  | «return» ht he =>
    apply simulates_bind (Traced.orderly_eval n c _) (fun _ ↦ Traced.orderly_pure _)
      (ih.eval hm hfit he)
    intro _ v v' _ _ _ _ _ hm₁ hv
    exact simulates_done hm₁ (.returned hv ht)
  | @branch _ tok tok' ht =>
    have hright : Run.exec (n + 1) (.branch tok') =
        Run.succeed (if tok.kind = .break then .broken tok' else .continued tok') := by
      rw [← ht.kind]
      rfl
    rw [hright]
    apply simulates_done hm
    split
    · exact .broken ht
    · exact .continued ht

-- What a loop goes on with after a round keeps order.
private theorem orderly_afterRound (n : Nat) (c : Context) (test : Expr Binding)
    (body : Stmt Binding) (completion : Completion) : Traced.Orderly (match completion with
      | .broken _ => pure .normal
      | .returned v t => pure (.returned v t)
      | .normal | .continued _ => Traced.repeatWhile n c test body) := by
  cases completion with
  | normal => exact Traced.orderly_repeatWhile n c test body
  | continued tok => exact Traced.orderly_repeatWhile n c test body
  | _ => exact Traced.orderly_pure _

-- What is done after the first of several statements keeps order.
private theorem orderly_afterFirst (n : Nat) (c : Context) (ss : List (Stmt Binding))
    (completion : Completion) : Traced.Orderly (match completion with
      | .normal => Traced.execAll n c ss
      | completion => pure completion) := by
  cases completion with
  | normal => exact Traced.orderly_execAll n c ss
  | _ => exact Traced.orderly_pure _

private theorem simulates_repeatWhile_succ (ih : SimulatesAt same n) {test test' : Expr Binding}
    {body body' : Stmt Binding} (hm : m.Similar same W m') (hfit : W.Fits m.heap m.env names)
    (htest : Expr.Like same names test test') (hbody : Stmt.Like same names body body') :
    Simulates same (Completion.Like same) W m.heap (Traced.repeatWhile (n + 1) c test body t m)
      (Run.repeatWhile (n + 1) test' body' m') := by
  have hround := orderly_afterRound n c test body
  apply simulates_bind (Traced.orderly_eval n c test)
    (fun _ ↦ Traced.orderly_ite (Traced.orderly_bind (Traced.orderly_exec n c body) hround)
      (Traced.orderly_pure _)) (ih.eval hm hfit htest)
  intro W₁ v v' t₁ m₁ m₁' hw₁ hk₁ hm₁ hv
  have hfit₁ := fits_kept hfit hw₁ hk₁
  rw [hv.truth]
  split
  · apply simulates_bind (Traced.orderly_exec n c body) hround (ih.exec hm₁ hfit₁ hbody)
    intro W₂ completion completion' t₂ m₂ m₂' hw₂ hk₂ hm₂ hc
    cases hc with
    | normal => exact ih.repeatWhile hm₂ (fits_kept hfit₁ hw₂ hk₂) htest hbody
    | returned hv ht => exact simulates_done hm₂ (.returned hv ht)
    | broken ht => exact simulates_done hm₂ .normal
    | continued ht => exact ih.repeatWhile hm₂ (fits_kept hfit₁ hw₂ hk₂) htest hbody
  · exact simulates_done hm₁ .normal

private theorem simulates_execAll_succ (ih : SimulatesAt same n) {ss ss' : List (Stmt Binding)}
    (hm : m.Similar same W m') (hfit : W.Fits m.heap m.env names)
    (hs : Stmt.AllLike same names ss ss') :
    Simulates same (Completion.Like same) W m.heap (Traced.execAll (n + 1) c ss t m)
      (Run.execAll (n + 1) ss' m') := by
  cases hs with
  | nil => exact simulates_done hm .normal
  | @cons _ s s' ss ss' hs hss =>
    apply simulates_bind (Traced.orderly_exec n c s) (orderly_afterFirst n (c.after s) ss)
      (ih.exec hm hfit hs)
    intro W₁ completion completion' t₁ m₁ m₁' hw₁ hk₁ hm₁ hc
    cases hc with
    | normal => exact ih.execAll hm₁ (fits_kept hfit hw₁ hk₁) hss
    | returned hv ht => exact simulates_done hm₁ (.returned hv ht)
    | broken ht => exact simulates_done hm₁ (.broken ht)
    | continued ht => exact simulates_done hm₁ (.continued ht)

end Succ

private theorem simulatesAt (same : Prop) (n : Nat) : SimulatesAt same n := by
  induction n with
  | zero => constructor <;> intros <;> exact simulates_failed ‹_› (.refl _)
  | succ n ih =>
    constructor
    · exact simulates_eval_succ ih
    · exact simulates_evalAll_succ ih
    · exact simulates_call_succ ih
    · exact simulates_exec_succ ih
    · exact simulates_repeatWhile_succ ih
    · exact simulates_execAll_succ ih

/-- Programs that are alike end alike, from machines that are similar at top level. -/
theorem simulates_interpretAll {W : World} {t : Trace} {m m' : Machine} (n : Nat)
    {p p' : Program Binding} (hm : m.Similar same W m') (htop : m.env = Machine.globals)
    (hp : Stmt.AllLike same [] p p') :
    Simulates same (fun _ _ _ _ ↦ True) W m.heap (Traced.interpretAll n p t m)
      (Run.interpretAll n p' m') := by
  induction p generalizing p' W t m m' with
  | nil =>
    cases hp
    exact simulates_done hm trivial
  | cons s ss ih =>
    have hfit : W.Fits m.heap m.env [] := htop
    cases hp with
    | cons hs hss =>
      apply simulates_bind (Traced.orderly_exec n [] s)
        (fun completion ↦ Traced.orderly_bind
          (Traced.orderly_lift (Run.orderly_endProgram completion))
          fun _ ↦ Traced.orderly_interpretAll n ss) ((simulatesAt same n).exec hm hfit hs)
      intro W₁ completion completion' t₁ m₁ m₁' hw₁ hk₁ hm₁ hc
      apply simulates_bind (Traced.orderly_lift (Run.orderly_endProgram completion))
        (fun _ ↦ Traced.orderly_interpretAll n ss) (simulates_endProgram hm₁ hc)
      intro W₂ _ _ t₂ m₂ m₂' hw₂ hk₂ hm₂ _
      exact ih hm₂ (hk₂.machine.env.trans (hk₁.machine.env.trans htop)) hss

/-- A machine on which nothing has run is similar to itself. -/
theorem Machine.similar_start (same : Prop) (clock : Option Int) (firstId : Nat) :
    (Machine.start clock firstId).Similar same (fun _ ↦ 1) (Machine.start clock firstId) := by
  refine ⟨rfl, Nat.zero_lt_one, rfl, fun _ ↦ rfl, fun e x ↦ ?_, rfl, .nil, rfl, rfl, rfl⟩
  rw [Equiv.Perm.one_apply, Machine.lookup_start]
  split
  · exact .some (.builtin _ fun h ↦ (nomatch h))
  · exact .none

end Lox
