import Lox.Proofs.Machine.Chronicle
import Lox.Proofs.Rooted
import Mathlib.Data.List.Chain

/-!
# Moments of a run

From one moment of a run to the next a machine changes in one of four ways (`Moment.Step`): nothing
is made, a name gets a value, an environment is made, or a function is made. Each of them keeps what
holds of every moment (`Moment.Sound`): all environments are rooted in the global one, functions are
of environments that exist, variables hold no functions but those that were made, and each of these
has an identity of its own. The evaluator goes through such moments only, whatever it evaluates and
however that ends (`Chronicled.keeps_eval` and the theorems after it).
-/

namespace Lox

/-- The identity of a function, of the program or of the host. Other values have none. -/
def Value.id? : Value → Option Nat
  | .function f => some f.id
  | .builtin f => some f.id
  | _ => none

private theorem Value.IsData.id? {v : Value} (h : v.IsData) : v.id? = none := by
  cases v with
  | function f => exact h.elim
  | builtin f => exact h.elim
  | _ => rfl

namespace Moment

/-- A value that is no function, or a function that was made. -/
def Knows (t : Moment) (v : Value) : Prop := v.id?.isSome → v ∈ t.made

/-- The environment of a function exists. -/
def Places (t : Moment) (v : Value) : Prop := ∀ f, v = .function f → f.env < t.machine.heap.nextId

/-- The next moment after one. -/
inductive Step : Moment → Moment → Prop where
  /-- Nothing is made; another environment may become current. -/
  | move {m m' : Machine} {made : List Value} (hheap : m'.heap = m.heap)
    (hnext : m'.nextFunction = m.nextFunction) (henv : m'.env < m.heap.nextId) :
    Step ⟨m, made⟩ ⟨m', made⟩
  /-- A name gets a value. -/
  | define {m : Machine} {made : List Value} (e : EnvId) (x : Bytes) {v : Value}
    (hv : Knows ⟨m, made⟩ v) : Step ⟨m, made⟩ ⟨{ m with heap := m.heap.define e x v }, made⟩
  /-- An environment is made, enclosed by one that exists. -/
  | push {m : Machine} {made : List Value} {p : EnvId} (hp : p < m.heap.nextId) :
    Step ⟨m, made⟩ ⟨{ m with heap := m.heap.push (some p) }, made⟩
  /-- A function is made, of an environment that exists. -/
  | make {m : Machine} {made : List Value} {v : Value} (hid : v.id? = some m.nextFunction)
    (hplace : Places ⟨m, made⟩ v) :
    Step ⟨m, made⟩ ⟨{ m with nextFunction := m.nextFunction + 1 }, v :: made⟩

/-- What holds of every moment. -/
structure Sound (t : Moment) : Prop where
  rooted : t.machine.heap.Rooted
  current : t.machine.env < t.machine.heap.nextId
  placed : ∀ v ∈ t.made, t.Places v
  known : ∀ e x v, t.machine.heap.lookup e x = some v → t.Knows v
  /-- Functions have identities, and those that are given out later are none of these. -/
  fresh : ∀ v ∈ t.made, ∃ id < t.machine.nextFunction, v.id? = some id
  distinct : t.made.Pairwise fun v w ↦ v.id? ≠ w.id?

/-- A moment at a later time: all environments are linked as they were, names that had values have
values, and all functions are there that were made. -/
structure Later (t t' : Moment) : Prop where
  heap : t.machine.heap.Steady t'.machine.heap
  made : t.made <:+ t'.made

section Later

variable {t t' t₁ t₂ t₃ : Moment} {v : Value}

/-- A moment is as late as itself. -/
theorem Later.refl (t : Moment) : t.Later t := ⟨.refl _, List.suffix_refl _⟩

private theorem Later.trans (h : t₁.Later t₂) (h' : t₂.Later t₃) : t₁.Later t₃ :=
  ⟨h.heap.trans h'.heap, h.made.trans h'.made⟩

private theorem knows_of_isData (h : v.IsData) : t.Knows v := by
  intro hid
  rw [h.id?] at hid
  cases hid

/-- Literals are known at every moment. -/
theorem knows_ofLiteral (t : Moment) (v : Literal) : t.Knows (.ofLiteral v) := by
  cases v <;> exact knows_of_isData trivial

private theorem Knows.later (h : t.Knows v) (hl : t.Later t') : t'.Knows v :=
  fun hid ↦ hl.made.subset (h hid)

private theorem Places.later (h : t.Places v) (hl : t.Later t') : t'.Places v :=
  fun f hf ↦ Nat.lt_of_lt_of_le (h f hf) hl.heap.nextId

/-- The next moment is a later one. -/
theorem Step.later (h : t.Step t') : t.Later t' := by
  cases h with
  | move hheap => exact ⟨hheap ▸ .refl _, List.suffix_refl _⟩
  | define e x hv => exact ⟨.define _ e x _, List.suffix_refl _⟩
  | push hp => exact ⟨.push _ _, List.suffix_refl _⟩
  | make hid hplace => exact ⟨.refl _, List.suffix_cons _ _⟩

end Later

section Step

variable {t t' : Moment}

private theorem Sound.move {m m' : Machine} {made : List Value} (h : Sound ⟨m, made⟩)
    (hheap : m'.heap = m.heap) (hnext : m'.nextFunction = m.nextFunction)
    (henv : m'.env < m.heap.nextId) : Sound ⟨m', made⟩ where
  rooted := hheap ▸ h.rooted
  current := hheap ▸ henv
  placed v hv f hf := hheap ▸ h.placed v hv f hf
  known e x v hv := h.known e x v (hheap ▸ hv)
  fresh v hv := hnext ▸ h.fresh v hv
  distinct := h.distinct

private theorem Sound.define {m : Machine} {made : List Value} (h : Sound ⟨m, made⟩) (e : EnvId)
    (x : Bytes) {v : Value} (hv : Knows ⟨m, made⟩ v) :
    Sound ⟨{ m with heap := m.heap.define e x v }, made⟩ where
  rooted := h.rooted.define e x v
  current := by simpa using h.current
  placed w hw f hf := by simpa using h.placed w hw f hf
  known e' y w hw := by
    rw [Heap.lookup_define] at hw
    split at hw
    · cases hw
      exact hv
    · exact h.known e' y w hw
  fresh := h.fresh
  distinct := h.distinct

private theorem Sound.push {m : Machine} {made : List Value} (h : Sound ⟨m, made⟩) {p : EnvId}
    (hp : p < m.heap.nextId) : Sound ⟨{ m with heap := m.heap.push (some p) }, made⟩ where
  rooted := h.rooted.push hp
  current := by
    rw [Heap.nextId_push]
    exact Nat.lt_succ_of_lt h.current
  placed v hv := (h.placed v hv).later (Step.push hp).later
  known e x v hv := by
    rw [Heap.lookup_push] at hv
    exact h.known e x v hv
  fresh := h.fresh
  distinct := h.distinct

private theorem Sound.make {m : Machine} {made : List Value} (h : Sound ⟨m, made⟩) {v : Value}
    (hid : v.id? = some m.nextFunction) (hplace : Places ⟨m, made⟩ v) :
    Sound ⟨{ m with nextFunction := m.nextFunction + 1 }, v :: made⟩ where
  rooted := h.rooted
  current := h.current
  placed w hw := by
    rcases List.mem_cons.mp hw with rfl | hw
    · exact hplace
    · exact h.placed w hw
  known e x w hw := (h.known e x w hw).later (Step.make hid hplace).later
  fresh w hw := by
    rcases List.mem_cons.mp hw with rfl | hw
    · exact ⟨m.nextFunction, Nat.lt_succ_self _, hid⟩
    · obtain ⟨id, hlt, hw⟩ := h.fresh w hw
      exact ⟨id, Nat.lt_succ_of_lt hlt, hw⟩
  distinct := by
    refine List.pairwise_cons.mpr ⟨fun w hw heq ↦ ?_, h.distinct⟩
    obtain ⟨id, hlt, hw⟩ := h.fresh w hw
    rw [hid, hw, Option.some.injEq] at heq
    exact Nat.ne_of_gt hlt heq

/-- What holds of every moment holds of the next one. -/
theorem Sound.step (h : t.Sound) (hs : t.Step t') : t'.Sound := by
  cases hs with
  | move hheap hnext henv => exact h.move hheap hnext henv
  | define e x hv => exact h.define e x hv
  | push hp => exact h.push hp
  | make hid hplace => exact h.make hid hplace

end Step

end Moment

/-! ## Chronicles of sound moments -/

/-- A chronicle whose moments follow each other step by step, from the first one up to the state
that the machine is in, and are all sound. -/
structure Chronicle.Sound (first : Moment) (c : Chronicle) (m : Machine) : Prop where
  earliest : c.moments.getLast? = some first
  latest : c.moments.head? = some (c.now m)
  steps : c.moments.IsChain fun t' t ↦ t.Step t'
  moments : ∀ t ∈ c.moments, t.Sound

namespace Chronicle

variable {first : Moment} {c : Chronicle} {m m' : Machine}

/-- The state that a machine is in is sound, as all moments of a sound chronicle are. -/
theorem Sound.now (h : c.Sound first m) : (c.now m).Sound :=
  h.moments _ (List.mem_of_head? h.latest)

/-- The next step is added. -/
theorem Sound.add (h : c.Sound first m) {made : List Value} (hs : (c.now m).Step ⟨m', made⟩) :
    Chronicle.Sound first (note { c with made } m') m' := by
  refine ⟨?_, rfl, ?_, ?_⟩
  · rw [Chronicle.note, List.getLast?_cons, h.earliest]
    rfl
  · refine List.isChain_cons.mpr ⟨fun t ht ↦ ?_, h.steps⟩
    rw [h.latest] at ht
    cases ht
    exact hs
  · intro t ht
    rcases List.mem_cons.mp ht with rfl | ht
    · exact h.now.step hs
    · exact h.moments t ht

/-- A sound chronicle stays sound with a next moment. -/
theorem Sound.note (h : c.Sound first m) (hs : (c.now m).Step (c.now m')) :
    (c.note m').Sound first m' := h.add hs

/-- Every moment is at a later time than those before it. -/
theorem Sound.later (h : c.Sound first m) : c.moments.Pairwise fun t' t ↦ t.Later t' := by
  let R : Moment → Moment → Prop := fun t' t ↦ t.Later t'
  have : Trans R R R := ⟨fun hl hl' ↦ hl'.trans hl⟩
  have hchain : c.moments.IsChain R := h.steps.imp fun _ _ hs ↦ hs.later
  exact hchain.pairwise

/-- What a step comes to that keeps a chronicle sound: at a later time, and with a value of which
something holds. -/
structure Leads {α : Type} (first t : Moment) (good : Moment → α → Prop)
    (out : Outcome α × Chronicle) : Prop where
  sound : out.2.Sound first out.1.after
  later : t.Later (out.2.now out.1.after)
  value : ∀ a m, out.1 = .done a m → good (out.2.now m) a

end Chronicle

namespace Moment

/-- Nothing is asked of a value. -/
def Any {α : Type} (_ : Moment) (_ : α) : Prop := True

/-- All values of a list are known. -/
def KnowsAll (t : Moment) (vs : List Value) : Prop := ∀ v ∈ vs, t.Knows v

/-- The value that is returned, if one is, is known. -/
def Returns (t : Moment) (completion : Completion) : Prop :=
  ∀ v k, completion = .returned v k → t.Knows v

/-- An environment exists. -/
def Has (t : Moment) (e : EnvId) : Prop := e < t.machine.heap.nextId

variable {t t' : Moment}

/-- Values that are known stay known. -/
theorem KnowsAll.later {vs : List Value} (h : t.KnowsAll vs) (hl : t.Later t') : t'.KnowsAll vs :=
  fun v hv ↦ (h v hv).later hl

private theorem Has.later {e : EnvId} (h : t.Has e) (hl : t.Later t') : t'.Has e :=
  Nat.lt_of_lt_of_le h hl.heap.nextId

private theorem Returns.later {completion : Completion} (h : t.Returns completion)
    (hl : t.Later t') :
    t'.Returns completion := fun v k hv ↦ (h v k hv).later hl

private theorem returns_normal : t.Returns .normal := by
  rintro _ _ ⟨⟩

private theorem returns_returned {v : Value} (hv : t.Knows v) (k : Token) :
    t.Returns (.returned v k) := by
  rintro _ _ ⟨⟩
  exact hv

end Moment

/-! ## Single changes -/

namespace Run

variable {α : Type}

/-- From every sound moment after `t` a change goes to a next moment, with a value of which
something holds. -/
def Steps (t : Moment) (good : Moment → α → Prop) (r : Run α) : Prop :=
  ∀ u : Moment, t.Later u → u.Sound → u.Step ⟨(r u.machine).after, u.made⟩ ∧
    ∀ a m, r u.machine = .done a m → good ⟨m, u.made⟩ a

variable {t : Moment} {good : Moment → α → Prop}

/-- A change by which nothing is made and that stays in the current environment. -/
theorem steps_still {r : Run α} (hheap : ∀ m, (r m).after.heap = m.heap)
    (hnext : ∀ m, (r m).after.nextFunction = m.nextFunction) (henv : ∀ m, (r m).after.env = m.env)
    (hgood : ∀ u : Moment, t.Later u → u.Sound → ∀ a m, r u.machine = .done a m →
      good ⟨m, u.made⟩ a) : Steps t good r := by
  intro u hl hu
  refine ⟨.move (hheap _) (hnext _) ?_, hgood u hl hu⟩
  rw [henv]
  exact hu.current

private theorem steps_fail (f : Fault) : Steps t good (fail f : Run α) :=
  steps_still (fun _ ↦ rfl) (fun _ ↦ rfl) (fun _ ↦ rfl) fun _ _ _ ↦ nofun

private theorem steps_raise (k : Token) (cause : RuntimeError.Cause) :
    Steps t good (raise k cause : Run α) :=
  steps_still (fun _ ↦ rfl) (fun _ ↦ rfl) (fun _ ↦ rfl) fun _ _ _ ↦ nofun

private theorem steps_succeed {a : α} (ha : ∀ u, t.Later u → good u a) :
    Steps t good (succeed a) := by
  refine steps_still (fun _ ↦ rfl) (fun _ ↦ rfl) (fun _ ↦ rfl) ?_
  rintro u hl - _ _ ⟨⟩
  exact ha u hl

private theorem steps_value {v : Value} (hv : t.Knows v) : Steps t Moment.Knows (succeed v) :=
  steps_succeed fun _ hl ↦ hv.later hl

private theorem steps_look {f : Machine → α} (hf : ∀ u : Moment, u.Sound → good u (f u.machine)) :
    Steps t good (look f) := by
  refine steps_still (fun _ ↦ rfl) (fun _ ↦ rfl) (fun _ ↦ rfl) ?_
  rintro u - hu _ _ ⟨⟩
  exact hf u hu

private theorem steps_print (text : Bytes) : Steps t Moment.Any (print text) :=
  steps_still (fun _ ↦ rfl) (fun _ ↦ rfl) (fun _ ↦ rfl) fun _ _ _ _ _ _ ↦ trivial

private theorem steps_define (e : Machine → EnvId) (x : Bytes) {v : Value} (hv : t.Knows v) :
    Steps t Moment.Any (change fun m ↦ { m with heap := m.heap.define (e m) x v }) :=
  fun _ hl _ ↦ ⟨.define _ x (hv.later hl), fun _ _ _ ↦ trivial⟩

private theorem steps_newEnv {e : EnvId} (he : t.Has e) : Steps t Moment.Has (newEnv e) := by
  refine fun u hl _ ↦ ⟨.push (he.later hl), ?_⟩
  rintro _ _ ⟨⟩
  change u.machine.heap.nextId < (u.machine.heap.push (some e)).nextId
  rw [Heap.nextId_push]
  exact Nat.lt_succ_self _

private theorem steps_lookup (name : Token) (b : Binding) :
    Steps t Moment.Knows (lookup name b) := by
  intro u hl hu
  have hlooked := looked name b u.machine
  generalize lookup name b u.machine = o at hlooked
  cases hlooked with
  | found hv => exact steps_value (hu.known _ _ _ hv) u (.refl u) hu
  | undefined => exact steps_raise name _ u hl hu
  | stuck => exact steps_fail _ u hl hu

private theorem steps_assign (name : Token) (b : Binding) {v : Value} (hv : t.Knows v) :
    Steps t Moment.Any (assign name b v) := by
  intro u hl hu
  have hassigned := assigned name b v u.machine
  generalize assign name b v u.machine = o at hassigned
  refine ⟨?_, fun _ _ _ ↦ trivial⟩
  cases hassigned with
  | defined e => exact .define e _ (hv.later hl)
  | undefined => exact .move rfl rfl hu.current
  | stuck => exact .move rfl rfl hu.current

private theorem Applied.steps {kinds : List Kind} {op : Token} {r : Run Value}
    (h : Applied kinds op r) : Steps t Moment.Knows r := by
  cases h with
  | data hv => exact steps_value (Moment.knows_of_isData hv)
  | raised => exact steps_raise op _
  | stuck => exact steps_fail _

private theorem steps_perform (f : Builtin) {args : List Value} (hargs : t.KnowsAll args) :
    Steps t Moment.Knows (perform f args) := by
  intro u hl hu
  have hperformed := performed f args u.machine
  generalize perform f args u.machine = o at hperformed
  cases hperformed with
  | data hv => exact steps_value (Moment.knows_of_isData hv) u hl hu
  | arg hv => exact steps_value (hargs _ hv) u hl hu
  | failed e => exact steps_fail _ u hl hu
  | stuck => exact steps_fail _ u hl hu

private theorem steps_returnValue {completion : Completion} (h : t.Returns completion) :
    Steps t Moment.Knows (returnValue completion) := by
  cases completion with
  | normal => exact steps_value (Moment.knows_of_isData trivial)
  | returned v k => exact steps_value (h v k rfl)
  | broken k => exact steps_raise k _
  | continued k => exact steps_raise k _

private theorem steps_endProgram (completion : Completion) :
    Steps t Moment.Any (endProgram completion) := by
  cases completion with
  | normal => exact steps_succeed fun _ _ ↦ trivial
  | returned v k => exact steps_raise k _
  | broken k => exact steps_raise k _
  | continued k => exact steps_raise k _

end Run

/-! ## Leaving environments and calls -/

/-- What a step comes to when an environment or a call is left behind it: nothing is made, and there
is a value only if the step had one. -/
structure Outcome.Resumes {α : Type} (o o' : Outcome α) : Prop where
  heap : o'.after.heap = o.after.heap
  functions : o'.after.nextFunction = o.after.nextFunction
  value : ∀ a m, o' = .done a m → ∃ m', o = .done a m'

namespace Run

variable {α : Type}

private theorem resumes_inEnv (e : EnvId) (r : Run α) (m : Machine) :
    (r { m with env := e }).Resumes (inEnv e r m) ∧ (inEnv e r m).after.env = m.env := by
  unfold inEnv
  dsimp only
  cases r { m with env := e } with
  | done a m' =>
    refine ⟨⟨rfl, rfl, ?_⟩, rfl⟩
    rintro _ _ ⟨⟩
    exact ⟨m', rfl⟩
  | failed f m' => exact ⟨⟨rfl, rfl, nofun⟩, rfl⟩

private theorem resumes_inCall (callee : Bytes) (line : Int) (r : Run α) (m : Machine) :
    let inside := { m.setLine line with stack := ⟨some callee, 0⟩ :: (m.setLine line).stack }
    (r inside).Resumes (inCall callee line r m) ∧
      (inCall callee line r m).after.env = (r inside).after.env := by
  unfold inCall
  dsimp only
  cases r { m.setLine line with stack := ⟨some callee, 0⟩ :: (m.setLine line).stack } with
  | done a m' =>
    dsimp only
    cases m'.stack with
    | nil => exact ⟨⟨rfl, rfl, nofun⟩, rfl⟩
    | cons f rest =>
      refine ⟨⟨rfl, rfl, ?_⟩, rfl⟩
      rintro _ _ ⟨⟩
      exact ⟨m', rfl⟩
  | failed f m' =>
    dsimp only
    cases m'.stack <;> exact ⟨⟨rfl, rfl, nofun⟩, rfl⟩

private theorem resumes_located (paren : Token) (r : Run Value) (m : Machine) :
    (r m).Resumes (located paren r m) ∧ (located paren r m).after.env = (r m).after.env := by
  unfold located
  split
  · next e m' ho =>
    rw [ho]
    exact ⟨⟨rfl, rfl, fun _ _ h ↦ nomatch h⟩, rfl⟩
  · exact ⟨⟨rfl, rfl, fun _ m' ho ↦ ⟨m', ho⟩⟩, rfl⟩

end Run

/-! ## Evaluation -/

namespace Chronicled

variable {α β : Type} {t : Moment} {good : Moment → α → Prop} {good' : Moment → β → Prop}

/-- From every sound moment after `t` a step goes through sound moments only, and comes to a value
of which something holds. -/
def Keeps (t : Moment) (good : Moment → α → Prop) (r : Chronicled α) : Prop :=
  ∀ first c m, t.Later (c.now m) → c.Sound first m → Chronicle.Leads first (c.now m) good (r c m)

private theorem keeps_lift {r : Run α} (h : Run.Steps t good r) : Keeps t good (lift r) := by
  intro first c m hl hc
  obtain ⟨hstep, hgood⟩ := h (c.now m) hl hc.now
  exact ⟨hc.note hstep, hstep.later, hgood⟩

private theorem keeps_pure {a : α} (ha : ∀ u, t.Later u → good u a) : Keeps t good (pure a) := by
  refine fun first c m hl hc ↦ ⟨hc, .refl _, ?_⟩
  rintro _ _ ⟨⟩
  exact ha _ hl

private theorem keeps_value {v : Value} (hv : t.Knows v) : Keeps t Moment.Knows (pure v) :=
  keeps_pure fun _ hl ↦ hv.later hl

private theorem keeps_normal : Keeps t Moment.Returns (pure .normal) :=
  keeps_pure fun _ _ ↦ Moment.returns_normal

private theorem keeps_bind {r : Chronicled α} {f : α → Chronicled β} (h : Keeps t good r)
    (hf : ∀ a u, t.Later u → good u a → Keeps u good' (f a)) : Keeps t good' (r >>= f) := by
  intro first c m hl hc
  have hr := h first c m hl hc
  change Chronicle.Leads first (c.now m) good' (andThen r f c m)
  unfold andThen
  rcases hrc : r c m with ⟨o, c'⟩
  rw [hrc] at hr
  cases o with
  | done a m' =>
    have hfa :=
      hf a (c'.now m') (hl.trans hr.later) (hr.value a m' rfl) first c' m' (.refl _) hr.sound
    exact ⟨hfa.sound, hr.later.trans hfa.later, hfa.value⟩
  | failed e m' => exact ⟨hr.sound, hr.later, nofun⟩

private theorem keeps_ite {r r' : Chronicled α} {p : Prop} [Decidable p] (h : Keeps t good r)
    (h' : Keeps t good r') : Keeps t good (if p then r else r') := by
  split
  · exact h
  · exact h'

-- A step may end with one more change, by which an environment or a call is left.
private theorem leads_resumed {first u : Moment} {o o' : Outcome α} {c : Chronicle}
    (hmono : ∀ {u u' : Moment} {a : α}, u.Later u' → good u a → good u' a)
    (hr : Chronicle.Leads first u good (o, c)) (ho : o.Resumes o')
    (henv : o'.after.env < o.after.heap.nextId) :
    Chronicle.Leads first u good (o', c.note o'.after) := by
  have hstep : (c.now o.after).Step (c.now o'.after) := .move ho.heap ho.functions henv
  refine ⟨hr.sound.note hstep, hr.later.trans hstep.later, fun a m (hdone : o' = _) ↦ ?_⟩
  obtain ⟨m', hm'⟩ := ho.value a m hdone
  rw [hm', hdone] at hstep
  exact hmono hstep.later (hr.value a m' hm')

private theorem keeps_inEnv {r : Chronicled Completion} {e : EnvId} (he : t.Has e)
    (h : Keeps t Moment.Returns r) : Keeps t Moment.Returns (inEnv e r) := by
  intro first c m hl hc
  have hstep : (c.now m).Step (c.now { m with env := e }) := .move rfl rfl (he.later hl)
  have hr := h first (c.note { m with env := e }) { m with env := e } (hl.trans hstep.later)
    (hc.note hstep)
  obtain ⟨hresumes, henv⟩ :=
    Run.resumes_inEnv e (fun m' ↦ (r (c.note { m with env := e }) m').1) m
  have hinside :
      Chronicle.Leads first (c.now { m with env := e }) Moment.Returns (inEnv e r c m) := by
    refine leads_resumed (fun hl h ↦ h.later hl) hr hresumes ?_
    rw [henv]
    exact Nat.lt_of_lt_of_le hc.now.current hr.later.heap.nextId
  exact ⟨hinside.sound, hstep.later.trans hinside.later, hinside.value⟩

private theorem keeps_inCall {r : Chronicled Value} (callee : Bytes) (line : Int)
    (h : Keeps t Moment.Knows r) : Keeps t Moment.Knows (inCall callee line r) := by
  intro first c m hl hc
  let inside := { m.setLine line with stack := ⟨some callee, 0⟩ :: (m.setLine line).stack }
  have hline : (c.now m).Step (c.now (m.setLine line)) := .move rfl rfl hc.now.current
  have hcall : (c.now (m.setLine line)).Step (c.now inside) := .move rfl rfl hc.now.current
  have hsound : Chronicle.Sound first ((c.note (m.setLine line)).note inside) inside :=
    (hc.note hline).note hcall
  have hlater := hline.later.trans hcall.later
  have hr := h first ((c.note (m.setLine line)).note inside) inside (hl.trans hlater) hsound
  obtain ⟨hresumes, henv⟩ := Run.resumes_inCall callee line
    (fun m' ↦ (r ((c.note (m.setLine line)).note inside) m').1) m
  have hinside : Chronicle.Leads first (c.now inside) Moment.Knows (inCall callee line r c m) := by
    refine leads_resumed (fun hl h ↦ h.later hl) hr hresumes ?_
    rw [henv]
    exact hr.sound.now.current
  exact ⟨hinside.sound, hlater.trans hinside.later, hinside.value⟩

private theorem keeps_located {r : Chronicled Value} (paren : Token) (h : Keeps t Moment.Knows r) :
    Keeps t Moment.Knows (located paren r) := by
  intro first c m hl hc
  have hr := h first c m hl hc
  obtain ⟨hresumes, henv⟩ := Run.resumes_located paren (fun m' ↦ (r c m').1) m
  refine leads_resumed (fun hl h ↦ h.later hl) hr hresumes ?_
  rw [henv]
  exact hr.sound.now.current

/-- The values that calls come to are known, and nothing is asked of their errors. -/
def KnowsEnd (t : Moment) : Except Fault Value → Prop :=
  Procedure.EndsWith t.Knows fun _ ↦ True

private theorem keeps_attempt {r : Chronicled Value} (h : Keeps t Moment.Knows r) :
    Keeps t KnowsEnd (attempt r) := by
  intro first c m hl hc
  have hr := h first c m hl hc
  unfold attempt Run.attempt
  dsimp only
  rcases hrc : r c m with ⟨o, c'⟩
  rw [hrc] at hr
  cases o with
  | done v m' =>
    refine ⟨hr.sound, hr.later, ?_⟩
    rintro _ _ ⟨⟩
    exact hr.value v m' rfl
  | failed e m' =>
    dsimp only
    split
    · refine ⟨hr.sound, hr.later, ?_⟩
      rintro _ _ ⟨⟩
      exact trivial
    · exact ⟨hr.sound, hr.later, fun _ _ h ↦ nomatch h⟩

/-- A procedure goes through sound moments only if its calls do. -/
theorem keeps_serve {call : Value → List Value → Int → Chronicled Value}
    (hcall : ∀ t f args line, t.Knows f → t.KnowsAll args →
      Keeps t Moment.Knows (call f args line))
    (callee : Bytes) (p : Procedure) {d : Procedure.Hand}
    (hd : d.Holds t.Knows fun _ ↦ True) :
    Keeps t Moment.Knows (Run.serve lift attempt call callee p d) := by
  have hliteral := Moment.knows_ofLiteral
  induction p generalizing t d with
  | yield x => exact keeps_value (hd.value (hliteral t) x)
  | fail message => exact keeps_lift (Run.steps_fail _)
  | rethrow i => exact keeps_lift (Run.steps_fail _)
  | call f args line next ih =>
    have hf := hd.value (hliteral t) f
    have hargs := hd.values_map (hliteral t) args
    exact keeps_bind (keeps_attempt (hcall t _ _ line hf hargs)) fun result u hl hresult ↦
      ih _ ((hd.mono fun v hv ↦ hv.later hl).add hresult)
  | read name next ih =>
    have hglobal : Run.Steps t (fun u a ↦ ∀ v, a = some v → u.Knows v)
        (Run.look fun m ↦ m.heap.get? Machine.globals name) := by
      refine Run.steps_look fun u hu v hv ↦ ?_
      rw [Machine.globals, Heap.get?_zero] at hv
      exact hu.known _ _ v hv
    exact keeps_bind (keeps_lift hglobal) fun a u hl ha ↦
      ih _ ((hd.mono fun v hv ↦ hv.later hl).addValue ha)
  | define name x next ih =>
    have hx := hd.value (hliteral t) x
    exact keeps_bind (keeps_lift (Run.steps_define (fun _ ↦ Machine.globals) name hx))
      fun _ u hl _ ↦ ih (hd.mono fun v hv ↦ hv.later hl)

private theorem keeps_newFunction (name : Token) (params : List Token) (body : Program Binding) :
    Keeps t Moment.Knows (newFunction name params body) := by
  intro first c m hl hc
  let f : Value := .function ⟨m.nextFunction, name, params, body, m.env⟩
  have hplace : (c.now m).Places f := by
    intro g hg
    cases Value.function.inj hg
    exact hc.now.current
  have hstep : (c.now m).Step ⟨{ m with nextFunction := m.nextFunction + 1 }, f :: c.made⟩ :=
    .make rfl hplace
  refine ⟨hc.add hstep, hstep.later, ?_⟩
  rintro _ _ ⟨⟩
  exact fun _ ↦ List.mem_cons_self

private theorem keeps_bindParams (e : EnvId) (ps : List Token) {vs : List Value}
    (hvs : t.KnowsAll vs) : Keeps t Moment.Any (bindParams e ps vs) := by
  induction ps generalizing t vs with
  | nil => exact keeps_pure fun _ _ ↦ trivial
  | cons p ps ih =>
    cases vs with
    | nil => exact keeps_lift (Run.steps_fail _)
    | cons v vs =>
      obtain ⟨hv, hvs⟩ := List.forall_mem_cons.mp hvs
      exact keeps_bind (keeps_lift (Run.steps_define (fun _ ↦ e) p.lexeme hv)) fun _ u hl _ ↦
        ih (Moment.KnowsAll.later hvs hl)

-- Evaluation with some fuel goes through sound moments only.
private structure KeepsAt (n : Nat) : Prop where
  eval : ∀ t e, Keeps t Moment.Knows (eval n e)
  evalAll : ∀ t es, Keeps t Moment.KnowsAll (evalAll n es)
  call : ∀ t f args line, t.Knows f → t.KnowsAll args → Keeps t Moment.Knows (call n f args line)
  exec : ∀ t s, Keeps t Moment.Returns (exec n s)
  repeatWhile : ∀ t test body, Keeps t Moment.Returns (repeatWhile n test body)
  execAll : ∀ t ss, Keeps t Moment.Returns (execAll n ss)

section Succ

variable {n : Nat}

private theorem keeps_eval_succ (ih : KeepsAt n) (e : Expr Binding) :
    Keeps t Moment.Knows (eval (n + 1) e) := by
  cases e with
  | literal k v => exact keeps_value (Moment.knows_ofLiteral t v)
  | grouping k x => exact ih.eval t x
  | unary op x =>
    exact keeps_bind (ih.eval t x) fun v u _ _ ↦ keeps_lift (Run.applied_unary op v).steps
  | binary x op y =>
    exact keeps_bind (ih.eval t x) fun v u _ _ ↦ keeps_bind (ih.eval u y) fun w u' _ _ ↦
      keeps_lift (Run.applied_binary op v w).steps
  | logical x op y =>
    exact keeps_bind (ih.eval t x) fun v u _ hv ↦ keeps_ite (keeps_value hv) (ih.eval u y)
  | «variable» name b => exact keeps_lift (Run.steps_lookup name b)
  | assign name b x =>
    exact keeps_bind (ih.eval t x) fun v u _ hv ↦
      keeps_bind (keeps_lift (Run.steps_assign name b hv)) fun _ u' hl _ ↦ keeps_value (hv.later hl)
  | call f paren args =>
    exact keeps_bind (ih.eval t f) fun g u _ hg ↦ keeps_bind (ih.evalAll u args) fun vs u' hl hvs ↦
      keeps_located paren (ih.call u' g vs paren.line (hg.later hl) hvs)

private theorem keeps_evalAll_succ (ih : KeepsAt n) (es : List (Expr Binding)) :
    Keeps t Moment.KnowsAll (evalAll (n + 1) es) := by
  cases es with
  | nil => exact keeps_pure fun _ _ _ hv ↦ nomatch hv
  | cons e es =>
    exact keeps_bind (ih.eval t e) fun v u _ hv ↦ keeps_bind (ih.evalAll u es) fun vs u' hl hvs ↦
      keeps_pure fun _ hl' ↦ Moment.KnowsAll.later (List.forall_mem_cons.mpr ⟨hv.later hl, hvs⟩) hl'

-- The environment of a function that is called exists, as the function was made.
private theorem keeps_function (ih : KeepsAt n) (f : Closure) {args : List Value}
    (hf : t.Knows (.function f)) (hargs : t.KnowsAll args) :
    Keeps t Moment.Knows (do
      let e ← lift (Run.newEnv f.env)
      bindParams e f.params args
      let completion ← inEnv e (execAll n f.body)
      lift (Run.returnValue completion)) := by
  intro first c m hl hc
  have hhas : (c.now m).Has f.env := hc.now.placed _ ((hf.later hl) rfl) f rfl
  refine (?_ : Keeps (c.now m) Moment.Knows _) first c m (.refl _) hc
  exact keeps_bind (keeps_lift (Run.steps_newEnv hhas)) fun e u hl' he ↦
    keeps_bind (keeps_bindParams e f.params (hargs.later (hl.trans hl'))) fun _ u' hl'' _ ↦
      keeps_bind (keeps_inEnv (Moment.Has.later he hl'') (ih.execAll u' f.body))
        fun completion u'' _ hcompletion ↦ keeps_lift (Run.steps_returnValue hcompletion)

private theorem keeps_call_succ (ih : KeepsAt n) (f : Value) (args : List Value) (line : Int)
    (hf : t.Knows f) (hargs : t.KnowsAll args) :
    Keeps t Moment.Knows (call (n + 1) f args line) := by
  cases f with
  | function f =>
    exact keeps_ite (keeps_inCall f.name.lexeme line (keeps_function ih f hf hargs))
      (keeps_lift (Run.steps_fail _))
  | builtin f =>
    refine keeps_ite (keeps_inCall f.name line ?_) (keeps_lift (Run.steps_fail _))
    have hperform : Keeps t Moment.Knows (lift (Run.perform f args)) :=
      keeps_lift (Run.steps_perform f hargs)
    cases f.action with
    | procedure p =>
      have hcallers : Run.Steps t Moment.Any (Run.look fun m ↦ m.stack.tail) :=
        Run.steps_look fun _ _ ↦ trivial
      exact keeps_bind (keeps_lift hcallers) fun _ u hl _ ↦
        keeps_serve ih.call _ _ (.ofArgs (Moment.KnowsAll.later hargs hl))
    | _ => exact hperform
  | nil => exact keeps_lift (Run.steps_fail _)
  | bool b => exact keeps_lift (Run.steps_fail _)
  | number x => exact keeps_lift (Run.steps_fail _)
  | text s => exact keeps_lift (Run.steps_fail _)

private theorem keeps_define (x : Bytes) {v : Value} (hv : t.Knows v) :
    Keeps t Moment.Any (lift (Run.define x v)) := keeps_lift (Run.steps_define Machine.env x hv)

private theorem keeps_exec_succ (ih : KeepsAt n) (s : Stmt Binding) :
    Keeps t Moment.Returns (exec (n + 1) s) := by
  cases s with
  | expr e => exact keeps_bind (ih.eval t e) fun _ _ _ _ ↦ keeps_normal
  | print k e =>
    exact keeps_bind (ih.eval t e) fun v u _ _ ↦
      keeps_bind (keeps_lift (Run.steps_print v.display)) fun _ _ _ _ ↦ keeps_normal
  | var name init =>
    cases init with
    | none =>
      have hnil : t.Knows .nil := Moment.knows_of_isData trivial
      exact keeps_bind (keeps_define name.lexeme hnil) fun _ _ _ _ ↦ keeps_normal
    | some e =>
      exact keeps_bind (ih.eval t e) fun v u _ hv ↦
        keeps_bind (keeps_define name.lexeme hv) fun _ _ _ _ ↦ keeps_normal
  | block k body =>
    intro first c m hl hc
    have hhas : (c.now m).Has m.env := hc.now.current
    exact keeps_bind (keeps_lift (Run.steps_newEnv hhas)) (fun e u _ he ↦
      keeps_inEnv he (ih.execAll u body)) first c m (.refl _) hc
  | ifElse k test yes no =>
    refine keeps_bind (ih.eval t test) fun v u _ _ ↦ keeps_ite (ih.exec u yes) ?_
    cases no with
    | none => exact keeps_normal
    | some no => exact ih.exec u no
  | «while» k test body => exact ih.repeatWhile t test body
  | function name params body =>
    exact keeps_bind (keeps_newFunction name params body) fun f u _ hf ↦
      keeps_bind (keeps_define name.lexeme hf) fun _ _ _ _ ↦ keeps_normal
  | «return» k result =>
    cases result with
    | none =>
      have hnil (u : Moment) : u.Knows .nil := Moment.knows_of_isData trivial
      exact keeps_pure fun u _ ↦ Moment.returns_returned (hnil u) k
    | some e =>
      exact keeps_bind (ih.eval t e) fun v u _ hv ↦
        keeps_pure fun _ hl ↦ Moment.returns_returned (hv.later hl) k
  | branch k =>
    refine keeps_pure fun _ _ v k' h ↦ ?_
    split at h <;> cases h

private theorem keeps_repeatWhile_succ (ih : KeepsAt n) (test : Expr Binding)
    (body : Stmt Binding) : Keeps t Moment.Returns (repeatWhile (n + 1) test body) := by
  refine keeps_bind (ih.eval t test) fun v u _ _ ↦ keeps_ite ?_ keeps_normal
  refine keeps_bind (ih.exec u body) fun completion u' _ hcompletion ↦ ?_
  cases completion with
  | normal => exact ih.repeatWhile u' test body
  | returned v k => exact keeps_pure fun _ hl ↦ hcompletion.later hl
  | broken k => exact keeps_normal
  | continued k => exact ih.repeatWhile u' test body

private theorem keeps_execAll_succ (ih : KeepsAt n) (ss : List (Stmt Binding)) :
    Keeps t Moment.Returns (execAll (n + 1) ss) := by
  cases ss with
  | nil => exact keeps_normal
  | cons s ss =>
    refine keeps_bind (ih.exec t s) fun completion u _ hcompletion ↦ ?_
    cases completion with
    | normal => exact ih.execAll u ss
    | returned v k => exact keeps_pure fun _ hl ↦ hcompletion.later hl
    | broken k => exact keeps_pure fun _ hl ↦ hcompletion.later hl
    | continued k => exact keeps_pure fun _ hl ↦ hcompletion.later hl

end Succ

private theorem keepsAt (n : Nat) : KeepsAt n := by
  induction n with
  | zero => constructor <;> intros <;> exact keeps_lift (Run.steps_fail _)
  | succ n ih =>
    exact ⟨fun _ ↦ keeps_eval_succ ih, fun _ ↦ keeps_evalAll_succ ih, fun _ ↦ keeps_call_succ ih,
      fun _ ↦ keeps_exec_succ ih, fun _ ↦ keeps_repeatWhile_succ ih,
      fun _ ↦ keeps_execAll_succ ih⟩

/-- Evaluation goes through sound moments only. -/
theorem keeps_eval (t : Moment) (n : Nat) (e : Expr Binding) :
    Keeps t Moment.Knows (eval n e) := (keepsAt n).eval t e

/-- A call of known values goes through sound moments only. -/
theorem keeps_call (n : Nat) {f : Value} {args : List Value} (line : Int) (hf : t.Knows f)
    (hargs : t.KnowsAll args) : Keeps t Moment.Knows (call n f args line) :=
  (keepsAt n).call t f args line hf hargs

private theorem keeps_interpretAll (t : Moment) (n : Nat) (p : Program Binding) :
    Keeps t Moment.Any (interpretAll n p) := by
  induction p generalizing t with
  | nil => exact keeps_pure fun _ _ ↦ trivial
  | cons s ss ih =>
    exact keeps_bind ((keepsAt n).exec t s) fun completion u _ _ ↦
      keeps_bind (keeps_lift (Run.steps_endProgram completion)) fun _ u' _ _ ↦ ih u'

private theorem keeps_toTopLevel : Keeps t Moment.Any toTopLevel :=
  keeps_lift fun _ _ hu ↦ ⟨.move rfl rfl hu.rooted.global, fun _ _ _ ↦ trivial⟩

/-- A program goes through sound moments only. -/
theorem keeps_interpret (t : Moment) (n : Nat) (p : Program Binding) :
    Keeps t Moment.Any (interpret n p) :=
  keeps_bind keeps_toTopLevel fun _ u _ _ ↦ keeps_interpretAll u n p

/-- Evaluation at top level goes through sound moments only. -/
theorem keeps_evaluate (t : Moment) (n : Nat) (e : Expr Binding) :
    Keeps t Moment.Knows (evaluate n e) :=
  keeps_bind keeps_toTopLevel fun _ u _ _ ↦ keeps_eval u n e

end Chronicled
end Lox
