import Lox.Proofs.Machine.Rest
import Lox.Proofs.Machine.Table
import Lox.Proofs.Session

/-!
# Bindings of earlier inputs

A session in which all trees share one table. Each tree that is run gets identities for its uses of
variables that no use has yet, or has them already if it was run before, and what the resolver found
for it is added to the table. The functions that it leaves are run from their trees, and ask the
table anew at each call.

This comes to the same as giving each tree its bindings once and for all, since the entries of a
tree are never changed by what is run later (`Shared.later_inputs_keep_bindings`).
-/

namespace Lox

/-! ## Trees -/

/-- A program or an expression. -/
inductive Tree (β : Type) where
  | program (p : Program β)
  | expression (e : Expr β)

namespace Tree

variable {β : Type}

/-- What is known of the uses of variables in a tree. -/
def labels : Tree β → List β
  | .program p => Stmt.labelsAll p
  | .expression e => e.labels

/-- A tree with identities for its uses of variables, from `n` on. -/
def numbered (n : NodeId) : Tree β → Tree NodeId
  | .program p => .program (Stmt.numberedAll n p)
  | .expression e => .expression (e.numbered n)

end Tree

/-! ## What is asked -/

/-- What a host asks. A tree that it gives may be one that it gave before: then it comes with the
identity of the first use in it. -/
inductive Ask where
  /-- To run a program from its source, if it has no static errors. -/
  | file (lenient : Bool) (src : Bytes)
  /-- To evaluate an expression from its source, if it has no static errors. -/
  | expression (src : Bytes)
  | program (lenient : Bool) (p : Program Unit) (again : Option NodeId)
  | evaluate (e : Expr Unit) (again : Option NodeId)
  | call (callee : Operand) (args : List Operand) (line : Int)
  | define (name : Bytes) (v : Operand)
  /-- To make a function of the host, which it then has at hand. -/
  | install (name : Bytes) (arity : Int) (action : Builtin.Action)

namespace Ask

/-- The tree that is run, if one is, with its uses of variables bound by the resolver. -/
def tree? : Ask → Option (Tree Binding)
  | .file lenient src =>
    if (parseProgram src).errors.isEmpty ∧
        ((parseProgram src).tree.resolve lenient).errors.isEmpty then
      some (.program ((parseProgram src).tree.resolve lenient).tree)
    else none
  | .expression src =>
    match (parseExpr src).errors, (parseExpr src).tree with
    | [], some e => if e.resolve.errors.isEmpty then some (.expression e.resolve.tree) else none
    | _, _ => none
  | .program lenient p _ => some (.program (p.resolve lenient).tree)
  | .evaluate e _ => some (.expression e.resolve.tree)
  | _ => none

/-- The identity of the first use in the tree, if the tree was given before. -/
def again : Ask → Option NodeId
  | .program _ _ again => again
  | .evaluate _ again => again
  | _ => none

end Ask

namespace Hosted

/-- Runs a tree. -/
def run (s : Hosted) (fuel : Nat) : Tree Binding → Hosted
  | .program p => { s with machine := (Run.interpret fuel p s.machine).after }
  | .expression e => s.keep (Run.evaluate fuel e s.machine)

/-- Does what is asked without a tree. -/
def serve (s : Hosted) (fuel : Nat) : Ask → Hosted
  | .call callee args line => s.step fuel (.call callee args line)
  | .define name v => s.step fuel (.define name v)
  | .install name arity action => s.step fuel (.install name arity action)
  | _ => s

/-- Does what is asked. -/
def ask (s : Hosted) (fuel : Nat) : Ask → Hosted
  | .file lenient src => { s with machine := (s.machine.runSource fuel lenient src).2 }
  | .expression src =>
    match s.machine.evalSource fuel src with
    | (.ok v, m) => ⟨m, v :: s.held⟩
    | (.error _, m) => ⟨m, s.held⟩
  | .program lenient p _ => s.run fuel (.program (p.resolve lenient).tree)
  | .evaluate e _ => s.run fuel (.expression e.resolve.tree)
  | a => s.serve fuel a

/-- Does what is asked, one after the other, each with some fuel. -/
def afterAsks (s : Hosted) : List (Nat × Ask) → Hosted
  | [] => s
  | (fuel, a) :: script => (s.ask fuel a).afterAsks script

/-- What is asked is to run a tree, or something else, or nothing is done. -/
theorem ask_eq (s : Hosted) (fuel : Nat) (a : Ask) :
    s.ask fuel a = a.tree?.elim (s.serve fuel a) (s.run fuel) := by
  cases a with
  | file lenient src =>
    unfold ask Ask.tree? Machine.runSource
    dsimp only
    by_cases hp : (parseProgram src).errors.isEmpty
    · by_cases hr : ((parseProgram src).tree.resolve lenient).errors.isEmpty
      · simp only [hp, hr, if_true, and_self, Outcome.snd_result]
        rfl
      · simp only [hp, hr, if_true, if_false, and_false, Bool.false_eq_true]
        rfl
    · simp only [hp, if_false, false_and, Bool.false_eq_true]
      rfl
  | expression src =>
    unfold ask Ask.tree? Machine.evalSource
    dsimp only
    cases (parseExpr src).errors with
    | cons err errors => rfl
    | nil =>
      cases (parseExpr src).tree with
      | none => rfl
      | some e =>
        by_cases hr : e.resolve.errors.isEmpty
        · simp only [hr, if_true, Option.elim_some, run]
          cases Run.evaluate fuel e.resolve.tree s.machine <;> rfl
        · simp only [hr, if_false, Bool.false_eq_true]
          rfl
  | _ => rfl

end Hosted

/-! ## Trees in a table -/

/-- A tree that was run: the identity of the first use in it, and the bindings of all of them. -/
structure Input where
  first : NodeId
  bindings : List Binding
  deriving DecidableEq

namespace Directory

variable {k k' : Directory} {x : Input}

/-- The table has the bindings of a tree for its uses. -/
structure Has (k : Directory) (x : Input) : Prop where
  bound : x.first + x.bindings.length ≤ k.next
  entries : ∀ i b, x.bindings[i]? = some b → k.table.lookup (x.first + i) = b.depth?

/-- There are no entries for uses that do not exist. -/
def Sealed (k : Directory) : Prop := ∀ id, k.next ≤ id → k.table.lookup id = none

/-- Adds the bindings of a tree to the table. -/
def enter (k : Directory) (x : Input) : Directory :=
  ⟨k.table.add (.ofBindings x.first x.bindings), max k.next (x.first + x.bindings.length)⟩

private theorem Has.grown (h : k.Has x) (hk : k.Grown k') : k'.Has x := by
  refine ⟨Nat.le_trans h.bound hk.next, fun i b hi ↦ ?_⟩
  have hlt : i < x.bindings.length := (List.getElem?_eq_some_iff.mp hi).1
  rw [hk.table _ (Nat.lt_of_lt_of_le (Nat.add_lt_add_left hlt _) h.bound)]
  exact h.entries i b hi

/-- The uses of a tree, asked one after the other, have the bindings that the resolver found. -/
theorem Has.map_binding (h : k.Has x) :
    (List.range' x.first x.bindings.length).map k.table.binding = x.bindings := by
  refine List.ext_getElem (by simp) fun i hi hi' ↦ ?_
  rw [List.getElem_map, List.getElem_range', Nat.one_mul]
  exact Table.binding_eq (h.entries i _ (List.getElem?_eq_getElem hi'))

/-- The uses of a tree have an entry, or none, as the resolver found. -/
theorem Has.map_lookup (h : k.Has x) :
    (List.range' x.first x.bindings.length).map (fun id ↦ k.table.lookup id) =
      x.bindings.map Binding.depth? := by
  refine List.ext_getElem (by simp) fun i hi hi' ↦ ?_
  rw [List.getElem_map, List.getElem_range', Nat.one_mul, List.getElem_map]
  rw [List.length_map] at hi'
  exact h.entries i _ (List.getElem?_eq_getElem hi')

private theorem Has.covers (h : k.Has x) : k.Covers (List.range' x.first x.bindings.length) := by
  intro id hid
  obtain ⟨i, hi, rfl⟩ := List.mem_range'.mp hid
  rw [Nat.one_mul]
  exact Nat.lt_of_lt_of_le (Nat.add_lt_add_left hi _) h.bound

private theorem lookup_enter (k : Directory) (x : Input) (id : Nat) :
    (k.enter x).table.lookup id =
      ((if x.first ≤ id then x.bindings[id - x.first]?.bind Binding.depth? else none).or
        (k.table.lookup id)) := by
  rw [enter, Table.lookup_add, Table.lookup_ofBindings]

private theorem Sealed.enter (hk : k.Sealed) (x : Input) : (k.enter x).Sealed := by
  intro id hid
  obtain ⟨hnext, hlen⟩ := Nat.max_le.mp hid
  have hout : x.bindings.length ≤ id - x.first := Nat.le_sub_of_add_le' hlen
  rw [lookup_enter, hk id hnext, List.getElem?_eq_none hout]
  split <;> rfl

/-- Trees whose uses have new identities, or the ones that they had before, change no entry. -/
theorem grown_enter (hx : k.Has x ∨ x.first = k.next) : k.Grown (k.enter x) := by
  refine ⟨Nat.le_max_left _ _, fun id hid ↦ ?_⟩
  rw [lookup_enter]
  split
  case isFalse => rfl
  case isTrue hle =>
    rcases hx with hx | hx
    · -- an entry that is made again is the one that is there
      cases hb : x.bindings[id - x.first]? with
      | none => rfl
      | some b =>
        have hentry := hx.entries _ b hb
        rw [Nat.add_sub_cancel' hle] at hentry
        rw [hentry]
        exact Option.or_self
    · exact absurd (hx ▸ hle) (Nat.not_le.mpr hid)

/-- The entries of a tree are there once it is entered. -/
theorem has_enter (hk : k.Sealed) (hx : k.Has x ∨ x.first = k.next) : (k.enter x).Has x := by
  rcases hx with hx | hx
  · exact hx.grown (grown_enter (.inl hx))
  · refine ⟨Nat.le_max_right _ _, fun i b hi ↦ ?_⟩
    rw [lookup_enter, if_pos (Nat.le_add_right _ _), Nat.add_sub_cancel_left, hi,
      hk _ (hx ▸ Nat.le_add_right _ _)]
    exact Option.or_none

end Directory

/-! ## Sessions with one table -/

/-- A session in which all trees share one table. -/
structure Shared where
  hosted : Hosted
  directory : Directory
  code : Code
  /-- The trees that were run, the latest first. -/
  inputs : List Input

namespace Shared

/-- A session in which nothing was asked. -/
def start (clock : Option Int) (firstId : Nat) : Shared := ⟨.start clock firstId, ⟨[], 0⟩, [], []⟩

/-- A tree with the identity of the first use in it: the one it had if it was run before, or else
the first that no use has. -/
def place (s : Shared) (again : Option NodeId) (bs : List Binding) : Input :=
  match again.filter fun n ↦ (⟨n, bs⟩ : Input) ∈ s.inputs with
  | some n => ⟨n, bs⟩
  | none => ⟨s.directory.next, bs⟩

/-- Adds a tree to the table. -/
def enter (s : Shared) (x : Input) : Shared :=
  { s with directory := s.directory.enter x, inputs := x :: s.inputs }

/-- Runs a tree by the table. -/
def run (s : Shared) (fuel : Nat) : Tree NodeId → Shared
  | .program p =>
    let (o, code) := Tabled.interpret s.directory.table fuel p s.code s.hosted.machine
    { s with hosted := { s.hosted with machine := o.after }, code }
  | .expression e =>
    let (o, code) := Tabled.evaluate s.directory.table fuel e s.code s.hosted.machine
    { s with hosted := s.hosted.keep o, code }

/-- Does what is asked without a tree; functions are run by the table. -/
def serve (s : Shared) (fuel : Nat) : Ask → Shared
  | .call callee args line =>
    let (o, code) := Tabled.call s.directory.table fuel (callee.value s.hosted)
      (args.map (Operand.value s.hosted)) line s.code s.hosted.machine
    { s with hosted := s.hosted.keep o, code }
  | a => { s with hosted := s.hosted.serve fuel a }

/-- Does what is asked. The bindings of a tree are added to the table before it is run. -/
def ask (s : Shared) (fuel : Nat) (a : Ask) : Shared :=
  match a.tree? with
  | some t =>
    let x := s.place a.again t.labels
    (s.enter x).run fuel (t.numbered x.first)
  | none => s.serve fuel a

/-- Does what is asked, one after the other, each with some fuel. -/
def after (s : Shared) : List (Nat × Ask) → Shared
  | [] => s
  | (fuel, a) :: script => (s.ask fuel a).after script

private theorem after_append (s : Shared) (pre post : List (Nat × Ask)) :
    s.after (pre ++ post) = (s.after pre).after post := by
  induction pre generalizing s with
  | nil => rfl
  | cons entry pre ih => exact ih _

/-- The table has the bindings of all trees that were run, and of the functions there are is kept
what they were declared with. -/
structure Sound (s : Shared) : Prop where
  inputs : ∀ x ∈ s.inputs, s.directory.Has x
  sealed : s.directory.Sealed
  ready : s.directory.Ready s.code s.hosted.machine
  held : s.directory.AllGood s.code s.hosted.held

private theorem sound_start (clock : Option Int) (firstId : Nat) : (start clock firstId).Sound where
  inputs _ hx := nomatch hx
  sealed _ _ := rfl
  ready := by
    refine ⟨fun e x v hv ↦ ?_, fun _ _ h ↦ nomatch h⟩
    change (Machine.start clock firstId).heap.lookup e x = some v at hv
    rw [Machine.lookup_start] at hv
    split at hv <;> cases hv
    exact trivial
  held _ hv := nomatch hv

/-- A session that comes after another one. -/
structure Later (s s' : Shared) : Prop where
  directory : s.directory.Grown s'.directory
  code : s.code.Later s'.code

private theorem Later.trans {s₁ s₂ s₃ : Shared} (h : s₁.Later s₂) (h' : s₂.Later s₃) :
    s₁.Later s₃ :=
  ⟨h.directory.trans h'.directory, h.code.trans h'.code⟩

private theorem Later.refl (s : Shared) : s.Later s := ⟨.refl _, .refl _⟩

/-- A tree that was run before has its entries, and another one gets new identities. -/
theorem Sound.place {s : Shared} (h : s.Sound) (again : Option NodeId) (bs : List Binding) :
    s.directory.Has (s.place again bs) ∨ (s.place again bs).first = s.directory.next := by
  unfold Shared.place
  split
  case h_1 n hn =>
    obtain ⟨-, hmem⟩ := Option.filter_eq_some_iff.mp hn
    exact .inl (h.inputs _ (of_decide_eq_true hmem))
  case h_2 => exact .inr rfl

private theorem bindings_place (s : Shared) (again : Option NodeId) (bs : List Binding) :
    (s.place again bs).bindings = bs := by
  unfold place
  split <;> rfl

private theorem Sound.enter {s : Shared} (h : s.Sound) {x : Input}
    (hx : s.directory.Has x ∨ x.first = s.directory.next) : (s.enter x).Sound where
  inputs y hy := by
    rcases List.mem_cons.mp hy with rfl | hy
    · exact Directory.has_enter h.sealed hx
    · exact (h.inputs y hy).grown (Directory.grown_enter hx)
  sealed := h.sealed.enter x
  ready := h.ready.grown (Directory.grown_enter hx)
  held v hv := (h.held v hv).grown (Directory.grown_enter hx)

/-- What a session comes to that does by the table what is done without it. -/
structure Performs (s s' : Shared) (hosted : Hosted) : Prop where
  sound : s'.Sound
  hosted : s'.hosted = hosted
  later : s.Later s'
  inputs : s'.inputs = s.inputs

/-- The functions that a machine leaves are known, and what the host holds stays known. -/
theorem Sound.machine {α : Type} {s : Shared} (h : s.Sound) {good : Code → α → Prop}
    {o' : Outcome α × Code} {o : Outcome α} (ho : s.directory.Answers s.code good o' o) :
    Performs s { s with hosted := { s.hosted with machine := o'.1.after }, code := o'.2 }
      { s.hosted with machine := o.after } := by
  obtain ⟨o₁, code⟩ := o'
  obtain ⟨rfl, hready, hlater, -⟩ := ho
  exact ⟨⟨h.inputs, h.sealed, hready, fun v hv ↦ (h.held v hv).later hlater⟩, rfl,
    ⟨.refl _, hlater⟩, rfl⟩

/-- What a step yields is known, and is held. -/
theorem Sound.keep {s : Shared} (h : s.Sound) {o' : Outcome Value × Code} {o : Outcome Value}
    (ho : s.directory.Answers s.code s.directory.Good o' o) :
    Performs s { s with hosted := s.hosted.keep o'.1, code := o'.2 } (s.hosted.keep o) := by
  obtain ⟨o₁, code⟩ := o'
  obtain ⟨rfl, hready, hlater, hgood⟩ := ho
  have hheld : s.directory.AllGood code s.hosted.held := fun v hv ↦ (h.held v hv).later hlater
  cases o₁ with
  | done v m =>
    have hv : s.directory.Good code v := hgood v m rfl
    exact ⟨⟨h.inputs, h.sealed, hready, List.forall_mem_cons.mpr ⟨hv, hheld⟩⟩, rfl,
      ⟨.refl _, hlater⟩, rfl⟩
  | failed f m => exact ⟨⟨h.inputs, h.sealed, hready, hheld⟩, rfl, ⟨.refl _, hlater⟩, rfl⟩

private theorem Sound.operand {s : Shared} (h : s.Sound) (x : Operand) :
    s.directory.Good s.code (x.value s.hosted) :=
  Operand.value_of Directory.good_ofLiteral h.ready.holds h.held x

private theorem Sound.operands {s : Shared} (h : s.Sound) (args : List Operand) :
    s.directory.AllGood s.code (args.map (Operand.value s.hosted)) := by
  intro v hv
  obtain ⟨x, -, rfl⟩ := List.mem_map.mp hv
  exact h.operand x

/-- If the table has the bindings of a tree, then running it by the table comes to what running it
with its bindings comes to. -/
theorem Sound.run {s : Shared} (h : s.Sound) (fuel : Nat) {x : Input} {t : Tree Binding}
    (ht : x.bindings = t.labels) (hx : s.directory.Has x) :
    Performs s (s.run fuel (t.numbered x.first)) (s.hosted.run fuel t) := by
  obtain ⟨first, _⟩ := x
  subst ht
  cases t with
  | program p =>
    have hcov : s.directory.Covers (Stmt.labelsAll (Stmt.numberedAll first p)) := by
      rw [Stmt.labelsAll_numbered]
      exact hx.covers
    have hrun := Directory.follows_interpret fuel hcov s.hosted.machine h.ready
    rw [Stmt.mapUses_numberedAll _ hx.map_binding] at hrun
    exact h.machine hrun
  | expression e =>
    have hcov : s.directory.Covers (e.numbered first).labels := by
      rw [Expr.labels_numbered]
      exact hx.covers
    have hrun := Directory.follows_evaluate fuel hcov s.hosted.machine h.ready
    rw [Expr.mapUses_numbered _ hx.map_binding] at hrun
    exact h.keep hrun

/-- What is asked without a tree is done by the table as it is done without it. -/
theorem Sound.serve {s : Shared} (h : s.Sound) (fuel : Nat) (a : Ask) :
    Performs s (s.serve fuel a) (s.hosted.serve fuel a) := by
  cases a with
  | call callee args line =>
    exact h.keep (Directory.follows_call fuel (h.operand callee) (h.operands args) line
      s.hosted.machine h.ready)
  | define name v =>
    refine ⟨⟨h.inputs, h.sealed, ⟨?_, h.ready.fresh⟩, h.held⟩, rfl, ⟨.refl _, .refl _⟩, rfl⟩
    exact (Run.carries_define (fun _ ↦ Machine.globals) name (h.operand v) _ h.ready.holds).1
  | install name arity action =>
    have hready : s.directory.Ready s.code
        { s.hosted.machine with nextFunction := s.hosted.machine.nextFunction + 1 } :=
      ⟨h.ready.holds, fun id body hid ↦ Nat.lt_succ_of_lt (h.ready.fresh id body hid)⟩
    have hheld : s.directory.AllGood s.code (.builtin
        ⟨s.hosted.machine.nextFunction, name, arity, action⟩ :: s.hosted.held) :=
      List.forall_mem_cons.mpr ⟨trivial, h.held⟩
    exact ⟨⟨h.inputs, h.sealed, hready, hheld⟩, rfl, ⟨.refl _, .refl _⟩, rfl⟩
  | _ => exact ⟨h, rfl, .refl s, rfl⟩

/-- The trees that come with what is asked, the latest first. -/
def trees (script : List (Nat × Ask)) : List (Tree Binding) :=
  (script.filterMap fun entry ↦ entry.2.tree?).reverse

/-- What a session comes to that does what is done without the table, keeps all entries, and runs
these trees. -/
structure Answers (s s' : Shared) (hosted : Hosted) (trees : List (Tree Binding)) : Prop where
  sound : s'.Sound
  hosted : s'.hosted = hosted
  later : s.Later s'
  inputs : s'.inputs.map Input.bindings = trees.map Tree.labels ++ s.inputs.map Input.bindings

/-- What is asked is done as without the table, and no entry changes. -/
theorem Sound.ask {s : Shared} (h : s.Sound) (fuel : Nat) (a : Ask) :
    Answers s (s.ask fuel a) (s.hosted.ask fuel a) a.tree?.toList := by
  rw [Hosted.ask_eq, Shared.ask]
  cases a.tree? with
  | none =>
    obtain ⟨hsound, hhosted, hlater, hinputs⟩ := h.serve fuel a
    exact ⟨hsound, hhosted, hlater, congrArg _ hinputs⟩
  | some t =>
    have hplace := h.place a.again t.labels
    have hlabels := bindings_place s a.again t.labels
    have hhas := Directory.has_enter h.sealed hplace
    obtain ⟨hsound, hhosted, hlater, hinputs⟩ := (h.enter hplace).run fuel hlabels hhas
    have hentered : s.Later (s.enter (s.place a.again t.labels)) :=
      ⟨Directory.grown_enter hplace, .refl _⟩
    refine ⟨hsound, hhosted, hentered.trans hlater, (congrArg _ hinputs).trans ?_⟩
    rw [Shared.enter, List.map_cons, hlabels]
    rfl

/-- A whole session does what is done without the table, and no entry changes. -/
theorem Sound.after {s : Shared} (h : s.Sound) (script : List (Nat × Ask)) :
    Answers s (s.after script) (s.hosted.afterAsks script) (trees script) := by
  induction script generalizing s with
  | nil => exact ⟨h, rfl, .refl s, rfl⟩
  | cons entry script ih =>
    obtain ⟨hsound, hhosted, hlater, hinputs⟩ := h.ask entry.1 entry.2
    obtain ⟨hsound', hhosted', hlater', hinputs'⟩ := ih hsound
    refine ⟨hsound', hhosted'.trans ?_, hlater.trans hlater', hinputs'.trans ?_⟩
    · rw [hhosted]
      rfl
    · rw [hinputs, trees, trees, List.filterMap_cons]
      cases entry.2.tree? <;> simp

end Shared

/-- A function that is held by the host or by a variable. -/
def Hosted.HasFunction (s : Hosted) (f : Closure) : Prop :=
  .function f ∈ s.held ∨ ∃ e x, s.machine.heap.lookup e x = some (.function f)

private theorem Shared.Sound.knows {s : Shared} (h : s.Sound) {f : Closure}
    (hf : s.hosted.HasFunction f) : s.directory.Knows s.code f := by
  rcases hf with hf | ⟨e, x, hf⟩
  · exact h.held _ hf
  · exact h.ready.holds e x _ hf

/-- A session whose trees share one table comes to the same as one in which each tree has its own
bindings. Whatever is asked after the first part of it, each use of a variable in a tree that was
run in this part has the entry, or has none, as the resolver found for it. A function that is there
after this part is kept with the tree it was declared with, and by the table that tree has the
bindings ever after that the function got at its declaration. -/
theorem Shared.later_inputs_keep_bindings (clock : Option Int) (firstId : Nat)
    (pre post : List (Nat × Ask)) :
    let before := (start clock firstId).after pre
    let s := before.after post
    s.hosted = (Hosted.start clock firstId).afterAsks (pre ++ post) ∧
    before.inputs.map Input.bindings = (trees pre).map Tree.labels ∧
    (∀ x ∈ before.inputs,
      (List.range' x.first x.bindings.length).map (fun id ↦ s.directory.table.lookup id) =
        x.bindings.map Binding.depth?) ∧
    ∀ f, before.hosted.HasFunction f → ∃ body, before.code.lookup f.id = some body ∧
      s.code.lookup f.id = some body ∧
      Stmt.mapUsesList s.directory.table.binding body = f.body := by
  intro before s
  have hsession := (sound_start clock firstId).after (pre ++ post)
  rw [after_append] at hsession
  have hbefore := (sound_start clock firstId).after pre
  have hlater := (hbefore.sound.after post).later
  refine ⟨hsession.hosted, hbefore.inputs.trans (List.append_nil _), fun x hx ↦ ?_, fun f hf ↦ ?_⟩
  · exact ((hbefore.sound.inputs x hx).grown hlater.directory).map_lookup
  · have hknows := hbefore.sound.knows hf
    have hknows' := (hknows.later hlater.code).grown hlater.directory
    obtain ⟨body, hbody, -, -⟩ := hknows
    obtain ⟨body', hbody', heq, -⟩ := hknows'
    -- it is one tree, as what is kept of a function never changes
    rw [hlater.code _ _ hbody] at hbody'
    cases hbody'
    exact ⟨body, hbody, hlater.code _ _ hbody, heq.symm⟩

/-- To run the program that leaves a function `h`, which reads a local variable. -/
def Ask.closures (again : Option NodeId) : Ask :=
  .program false (parseTokens closureProgram).tree again

/-- The session after this program. -/
def Shared.closures : Shared := (start none 0).after [(20, .closures none)]

private theorem inputs_closures :
    Shared.closures.inputs = [⟨0, [.scope 1, .scope 0, .global]⟩] := by decide +kernel

private theorem typeName_closures :
    (Shared.closures.hosted.machine.heap.lookup 0 [104]).map Value.typeName = some "function" := by
  decide +kernel

/-- The program is run again from another tree, and from the same one, and then the function is
called from a source. The variables that it and the function around it read have the entries that
they had, and the global one has none. -/
theorem Shared.later_inputs_keep_bindings_closures :
    let s := closures.after [(20, .closures none), (20, .closures (some 0)),
      (20, .expression (Bytes.ofString "h()"))]
    (⟨0, [.scope 1, .scope 0, .global]⟩ ∈ closures.inputs ∧
      (List.range' 0 3).map (fun id ↦ s.directory.table.lookup id) = [some 1, some 0, none]) ∧
    ∃ f, closures.hosted.HasFunction f ∧ ∃ body, s.code.lookup f.id = some body ∧
      Stmt.mapUsesList s.directory.table.binding body = f.body := by
  intro s
  obtain ⟨-, -, hentries, hbodies⟩ := later_inputs_keep_bindings none 0 [(20, .closures none)]
    [(20, .closures none), (20, .closures (some 0)), (20, .expression (Bytes.ofString "h()"))]
  have hinput : ⟨0, [.scope 1, .scope 0, .global]⟩ ∈ closures.inputs := by
    rw [inputs_closures]
    exact List.mem_singleton_self _
  refine ⟨⟨hinput, hentries _ hinput⟩, ?_⟩
  obtain ⟨v, hv, htype⟩ := Option.map_eq_some_iff.mp typeName_closures
  cases v with
  | function f =>
    have hf : closures.hosted.HasFunction f := .inr ⟨0, [104], hv⟩
    obtain ⟨body, -, hbody, hbindings⟩ := hbodies f hf
    exact ⟨f, hf, body, hbody, hbindings⟩
  | _ => simp [Value.typeName] at htype

end Lox
