import Lox.Proofs.Bindings
import Lox.Proofs.Machine.Moments

/-!
# Environments of a session

A session with a chronicle of all states that its machine goes through. Whatever the host does, and
however it ends, at each moment of the session all environments that can be reached lead out to the
global one, and no environment that exists is ever linked anew or loses a name
(`Documented.environments_lead_out`). So every search outwards comes to an end.
-/

namespace Lox

/-- What a host does in a session. -/
inductive Deed where
  | ask (a : Ask)
  /-- To run a tree whose uses of variables may be bound in any way. -/
  | run (t : Tree Binding)
  /-- To assign to a global variable, if it exists. -/
  | assign (name : Bytes) (v : Operand)
  | setClock (clock : Option Int)

namespace Hosted

/-- Does something of the host's. -/
def perform (s : Hosted) (fuel : Nat) : Deed → Hosted
  | .ask a => s.ask fuel a
  | .run t => s.run fuel t
  | .assign name v =>
    { s with machine := (s.machine.assignGlobal? name (v.value s)).getD s.machine }
  | .setClock clock => { s with machine := { s.machine with clock } }

/-- Does this and that, one after the other, each with some fuel. -/
def afterDeeds (s : Hosted) : List (Nat × Deed) → Hosted
  | [] => s
  | (fuel, d) :: script => (s.perform fuel d).afterDeeds script

end Hosted

/-- A session with a chronicle. -/
structure Documented where
  hosted : Hosted
  chronicle : Chronicle

namespace Documented

/-- A session in which nothing was done. The predeclared function is there. -/
def start (clock : Option Int) (firstId : Nat) : Documented :=
  ⟨.start clock firstId, Chronicle.note ⟨[], [.builtin Machine.clockFunction]⟩
    (.start clock firstId)⟩

/-- Runs a tree. -/
def run (s : Documented) (fuel : Nat) : Tree Binding → Documented
  | .program p =>
    let (o, c) := Chronicled.interpret fuel p s.chronicle s.hosted.machine
    ⟨{ s.hosted with machine := o.after }, c⟩
  | .expression e =>
    let (o, c) := Chronicled.evaluate fuel e s.chronicle s.hosted.machine
    ⟨s.hosted.keep o, c⟩

/-- A session in which the host changed the machine itself. -/
def changed (s : Documented) (hosted : Hosted) : Documented :=
  ⟨hosted, s.chronicle.note hosted.machine⟩

/-- Does what is asked without a tree. -/
def serve (s : Documented) (fuel : Nat) : Ask → Documented
  | .call callee args line =>
    let (o, c) := Chronicled.call fuel (callee.value s.hosted)
      (args.map (Operand.value s.hosted)) line s.chronicle s.hosted.machine
    ⟨s.hosted.keep o, c⟩
  | .define name v => s.changed (s.hosted.serve fuel (.define name v))
  | .install name arity action =>
    let (v, m) := s.hosted.machine.newBuiltin name arity action
    ⟨⟨m, v :: s.hosted.held⟩, s.chronicle.make v m⟩
  | _ => s

/-- Does something of the host's. -/
def perform (s : Documented) (fuel : Nat) : Deed → Documented
  | .ask a => a.tree?.elim (s.serve fuel a) (s.run fuel)
  | .run t => s.run fuel t
  | d => s.changed (s.hosted.perform fuel d)

/-- Does this and that, one after the other, each with some fuel. -/
def after (s : Documented) : List (Nat × Deed) → Documented
  | [] => s
  | (fuel, d) :: script => (s.perform fuel d).after script

/-! ## Leaving the chronicle out -/

private theorem hosted_run (s : Documented) (fuel : Nat) (t : Tree Binding) :
    (s.run fuel t).hosted = s.hosted.run fuel t := by
  cases t with
  | program p =>
    have h := Chronicled.interpret_erases fuel p s.chronicle s.hosted.machine
    simp only [run, Hosted.run, ← h]
  | expression e =>
    have h := Chronicled.evaluate_erases fuel e s.chronicle s.hosted.machine
    simp only [run, Hosted.run, ← h]

private theorem hosted_serve (s : Documented) (fuel : Nat) (a : Ask) :
    (s.serve fuel a).hosted = s.hosted.serve fuel a := by
  cases a with
  | call callee args line =>
    have h := Chronicled.call_erases fuel (callee.value s.hosted)
      (args.map (Operand.value s.hosted)) line s.chronicle s.hosted.machine
    simp only [serve, Hosted.serve, Hosted.step, ← h]
  | _ => rfl

/-- The chronicle does not influence a session. -/
theorem hosted_perform (s : Documented) (fuel : Nat) (d : Deed) :
    (s.perform fuel d).hosted = s.hosted.perform fuel d := by
  cases d with
  | ask a =>
    rw [perform, Hosted.perform, Hosted.ask_eq]
    cases a.tree? with
    | none => exact s.hosted_serve fuel a
    | some t => exact s.hosted_run fuel t
  | run t => exact s.hosted_run fuel t
  | assign name v => rfl
  | setClock clock => rfl

private theorem hosted_after (s : Documented) (script : List (Nat × Deed)) :
    (s.after script).hosted = s.hosted.afterDeeds script := by
  induction script generalizing s with
  | nil => rfl
  | cons entry script ih =>
    obtain ⟨fuel, d⟩ := entry
    rw [after, ih, hosted_perform]
    rfl

/-! ## Sessions go through sound moments -/

/-- The state that a session is in. -/
def now (s : Documented) : Moment := s.chronicle.now s.hosted.machine

/-- A session that went through sound moments only, and whose host has no functions but those that
were made. -/
structure Sound (first : Moment) (s : Documented) : Prop where
  chronicle : s.chronicle.Sound first s.hosted.machine
  held : s.now.KnowsAll s.hosted.held

/-- A session in which nothing was done is sound from its first moment on. -/
theorem sound_start (clock : Option Int) (firstId : Nat) :
    (start clock firstId).Sound (start clock firstId).now where
  chronicle := by
    refine ⟨rfl, rfl, List.isChain_singleton _, ?_⟩
    intro t ht
    cases List.mem_singleton.mp ht
    refine ⟨⟨Nat.zero_lt_one, rfl, ?_⟩, Nat.zero_lt_one, ?_, ?_, ?_, List.pairwise_singleton _ _⟩
    · intro e he hne
      exact absurd (Nat.lt_one_iff.mp he) hne
    · intro v hv f hf
      rw [List.mem_singleton.mp hv] at hf
      cases hf
    · intro e x v hv
      rw [Chronicle.now, Machine.lookup_start] at hv
      split at hv <;> cases hv
      exact fun _ ↦ List.mem_singleton_self _
    · intro v hv
      rw [List.mem_singleton.mp hv]
      exact ⟨Machine.clockId, Nat.lt_of_lt_of_le Nat.zero_lt_one (Nat.le_max_right _ _), rfl⟩
  held _ hv := nomatch hv

section Sound

variable {first : Moment} {s : Documented}

private theorem Sound.operand (h : s.Sound first) (x : Operand) : s.now.Knows (x.value s.hosted) :=
  Operand.value_of s.now.knows_ofLiteral h.chronicle.now.known h.held x

private theorem Sound.operands (h : s.Sound first) (args : List Operand) :
    s.now.KnowsAll (args.map (Operand.value s.hosted)) := by
  intro v hv
  obtain ⟨x, -, rfl⟩ := List.mem_map.mp hv
  exact h.operand x

-- What a step yields is held.
private theorem Sound.keep (h : s.Sound first) {out : Outcome Value × Chronicle}
    (hout : Chronicle.Leads first s.now Moment.Knows out) :
    Sound first ⟨s.hosted.keep out.1, out.2⟩ := by
  obtain ⟨o, c⟩ := out
  have hheld : (c.now o.after).KnowsAll s.hosted.held := h.held.later hout.later
  cases o with
  | done v m =>
    exact ⟨hout.sound, List.forall_mem_cons.mpr ⟨hout.value v m rfl, hheld⟩⟩
  | failed f m => exact ⟨hout.sound, hheld⟩

private theorem Sound.run (h : s.Sound first) (fuel : Nat) (t : Tree Binding) :
    (s.run fuel t).Sound first := by
  cases t with
  | program p =>
    have hout := Chronicled.keeps_interpret s.now fuel p first s.chronicle s.hosted.machine
      (.refl _) h.chronicle
    exact ⟨hout.sound, h.held.later hout.later⟩
  | expression e =>
    have hout := Chronicled.keeps_evaluate s.now fuel e first s.chronicle s.hosted.machine
      (.refl _) h.chronicle
    exact h.keep hout

-- The host changes the machine by one step, and gets no value by that.
private theorem Sound.changed (h : s.Sound first) {m : Machine}
    (hstep : s.now.Step (s.chronicle.now m)) : (s.changed ⟨m, s.hosted.held⟩).Sound first :=
  ⟨h.chronicle.note hstep, h.held.later hstep.later⟩

private theorem Sound.serve (h : s.Sound first) (fuel : Nat) (a : Ask) :
    (s.serve fuel a).Sound first := by
  cases a with
  | call callee args line =>
    exact h.keep (Chronicled.keeps_call fuel line (h.operand callee) (h.operands args) first
      s.chronicle s.hosted.machine (.refl _) h.chronicle)
  | define name v => exact h.changed (.define Machine.globals name (h.operand v))
  | install name arity action =>
    have hstep : s.now.Step
        ⟨{ s.hosted.machine with nextFunction := s.hosted.machine.nextFunction + 1 },
          .builtin ⟨s.hosted.machine.nextFunction, name, arity, action⟩ :: s.chronicle.made⟩ :=
      .make rfl fun _ hf ↦ nomatch hf
    refine ⟨h.chronicle.add hstep, List.forall_mem_cons.mpr ⟨?_, h.held.later hstep.later⟩⟩
    exact fun _ ↦ List.mem_cons_self
  | _ => exact h

/-- Whatever the host does, the session goes on through sound moments. -/
theorem Sound.perform (h : s.Sound first) (fuel : Nat) (d : Deed) :
    (s.perform fuel d).Sound first := by
  cases d with
  | ask a =>
    rw [Documented.perform]
    cases a.tree? with
    | none => exact h.serve fuel a
    | some t => exact h.run fuel t
  | run t => exact h.run fuel t
  | assign name v =>
    refine h.changed ?_
    rw [Machine.assignGlobal?, Heap.assign?]
    cases s.hosted.machine.heap.owner? Machine.globals name with
    | none => exact .move rfl rfl h.chronicle.now.current
    | some e => exact .define e name (h.operand v)
  | setClock clock => exact h.changed (.move rfl rfl h.chronicle.now.current)

/-- Whatever the host does, a sound session stays sound. -/
theorem Sound.after (h : s.Sound first) (script : List (Nat × Deed)) :
    (s.after script).Sound first := by
  induction script generalizing s with
  | nil => exact h
  | cons entry script ih => exact ih (h.perform entry.1 entry.2)

end Sound

end Documented

/-! ## Environments that can be reached -/

/-- The environments that can be reached at a moment: from the current environment and from the
global one, from the functions that were made, and from all functions that variables of environments
that are reached hold. -/
inductive Moment.Reaches (t : Moment) : EnvId → Prop where
  | current : t.Reaches t.machine.env
  | globals : t.Reaches Machine.globals
  | closure {f : Closure} (hf : .function f ∈ t.made) : t.Reaches f.env
  | enclosing {e p : EnvId} (he : t.Reaches e) (hp : t.machine.heap.enclosing? e = some p) :
    t.Reaches p
  | bound {e : EnvId} {x : Bytes} {f : Closure} (he : t.Reaches e)
    (hf : t.machine.heap.lookup e x = some (.function f)) : t.Reaches f.env

private theorem Moment.Sound.lt_nextId {t : Moment} (h : t.Sound) {e : EnvId} (he : t.Reaches e) :
    e < t.machine.heap.nextId := by
  induction he with
  | current => exact h.current
  | globals => exact h.rooted.global
  | closure hf => exact h.placed _ hf _ rfl
  | enclosing _ hp ih => exact Nat.lt_trans (h.rooted.descends _ _ hp) ih
  | bound _ hf => exact h.placed _ (h.known _ _ _ hf rfl) _ rfl

/-- A session with a chronicle is a session, and the chronicle has all states of the machine, each
one step after the one before it. In each of them every environment that can be reached leads out
to the global one, through all searches outwards and in finitely many steps. From each to a later
one no environment is removed or linked anew, and no name is removed from one. All functions that
the host has, and all that variables hold, are among those that were made. -/
theorem Documented.environments_lead_out (clock : Option Int) (firstId : Nat)
    (script : List (Nat × Deed)) :
    let s := (start clock firstId).after script
    s.hosted = (Hosted.start clock firstId).afterDeeds script ∧
    s.chronicle.moments.getLast? = some (start clock firstId).now ∧
    s.chronicle.moments.head? = some s.now ∧
    (s.chronicle.moments.IsChain fun t' t ↦ t.Step t') ∧
    (∀ t ∈ s.chronicle.moments, ∀ e, t.Reaches e →
      e < t.machine.heap.nextId ∧ t.machine.heap.LeadsOut e) ∧
    (s.chronicle.moments.Pairwise fun t' t ↦ t.machine.heap.Steady t'.machine.heap) ∧
    (∀ t ∈ s.chronicle.moments, ∀ e x f, t.machine.heap.lookup e x = some (.function f) →
      .function f ∈ t.made) ∧
    ∀ f, .function f ∈ s.hosted.held → .function f ∈ s.now.made := by
  intro s
  have h : s.Sound (start clock firstId).now := (sound_start clock firstId).after script
  refine ⟨hosted_after _ script, h.chronicle.earliest, h.chronicle.latest, h.chronicle.steps,
    fun t ht e he ↦ ?_, h.chronicle.later.imp fun hl ↦ hl.heap, fun t ht e x f hf ↦ ?_,
    fun f hf ↦ h.held _ hf rfl⟩
  · have hlt := (h.chronicle.moments t ht).lt_nextId he
    exact ⟨hlt, (h.chronicle.moments t ht).rooted.leadsOut hlt⟩
  · exact (h.chronicle.moments t ht).known e x _ hf rfl

-- The name of a function.
private def keptName : Token := ⟨.identifier, [103], .nil, 1⟩

/-- To run a block in which a function is declared. -/
def Deed.closure : Deed :=
  .run (.program [.block ⟨.leftBrace, [], .nil, 1⟩ [.function keptName [] []]])

/-- The environment of the block is left, but the function keeps it, and it leads out. -/
theorem Documented.environments_lead_out_closure :
    let s := (start none 0).after [(5, .closure)]
    s.now ∈ s.chronicle.moments ∧ s.now.Reaches 1 ∧ 1 < s.now.machine.heap.nextId ∧
      s.now.machine.heap.LeadsOut 1 := by
  intro s
  obtain ⟨-, -, hlatest, -, hleads, -⟩ := environments_lead_out none 0 [(5, .closure)]
  have hnow : s.now ∈ s.chronicle.moments := List.mem_of_head? hlatest
  have hmade : .function ⟨1, keptName, [], [], 1⟩ ∈ s.now.made := List.mem_cons_self
  have hreaches : s.now.Reaches 1 := .closure hmade
  exact ⟨hnow, hreaches, hleads s.now hnow 1 hreaches⟩

end Lox
