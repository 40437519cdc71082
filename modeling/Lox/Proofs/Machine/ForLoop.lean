import Lox.Parser.Stmt
import Lox.Proofs.Machine.Control
import Lox.Proofs.Machine.Fuel
import Lox.Proofs.Scope.Rename

/-!
# Loops with three clauses

A `for` loop is read as blocks and a `while` loop. Here its rounds are written out: the condition is
tested, the body is executed, and the increment is evaluated before the next test. The statement
that is read does just that (`ForLoop.statement_ends_iff`), but not after a `continue`: it leaves
the block that the body shares with the increment, so that the increment is skipped. Where no
`continue` leaves the body, or where there is no increment, the loop is the one of C
(`ForLoop.read_ends_iff`).
-/

namespace Lox

/-- The parts of a `for` loop, with a `β` for each use of a variable. -/
structure ForLoop (β : Type) where
  init : Option (Stmt β)
  test : Option (Expr β)
  increment : Option (Expr β)
  body : Stmt β

namespace Run

variable {α : Type}

/-- Does a step in a new scope. -/
def inScope (r : Run α) : Run α := fun m ↦
  (do
    let e ← newEnv m.env
    inEnv e r : Run α) m

private theorem within_inScope {r r' : Run α} (h : Within r r') : Within (inScope r) (inScope r') :=
  fun m ↦ within_bind (.refl (newEnv m.env)) (fun e ↦ within_inEnv h e) m

/-- The second of two statements is executed if the first one comes to its end. -/
def inTurn (first second : Run Completion) : Run Completion := do
  match ← first with
  | .normal => second
  | completion => succeed completion

private theorem within_inTurn {r r' s s' : Run Completion} (h : Within r r') (h' : Within s s') :
    Within (inTurn r s) (inTurn r' s') := by
  refine within_bind h fun c ↦ ?_
  cases c with
  | normal => exact h'
  | returned v t => exact .refl _
  | broken t => exact .refl _
  | continued t => exact .refl _

private theorem execAll_pair (n : Nat) (s s' : Stmt Binding) :
    execAll (n + 3) [s, s'] = inTurn (exec (n + 2) s) (exec (n + 1) s') := by
  have hlast : execAll (n + 2) [s'] = exec (n + 1) s' := by
    funext m
    change andThen (exec (n + 1) s') _ m = _
    unfold andThen
    cases exec (n + 1) s' m with
    | done c m' => cases c <;> rfl
    | failed f m' => rfl
  rw [execAll, hlast]
  rfl

end Run

namespace ForLoop

open Run

/-- The condition of a loop; a missing one is true. -/
def testValue (l : ForLoop Binding) (n : Nat) : Run Value :=
  match l.test with
  | none => succeed (.bool true)
  | some e => eval n e

/-- What comes after the body, which ended in some way: the increment, if the body came to its end.
If the body was left by `continue`, the increment is evaluated only if `steps` says so. -/
def afterBody (steps : Bool) (increment : Expr Binding) (n : Nat) : Completion → Run Completion
  | .normal => exec (n + 1) (.expr increment)
  | .continued t => if steps then exec (n + 1) (.expr increment) else succeed (.continued t)
  | completion => succeed completion

/-- One round of a loop. A body with an increment has a scope with it, where nothing is declared. -/
def round (steps : Bool) (l : ForLoop Binding) (n : Nat) : Run Completion :=
  match l.increment with
  | none => exec n l.body
  | some e => inScope do
    let completion ← exec n l.body
    afterBody steps e n completion

/-- The rounds of a loop, at most `k` of them: as long as the condition is true and the loop is left
neither by `break` nor by `return`. -/
def rounds (steps : Bool) (l : ForLoop Binding) (n : Nat) : Nat → Run Completion
  | 0 => fail .outOfFuel
  | k + 1 => do
    let v ← l.testValue n
    if v.truth then
      match ← l.round steps n with
      | .broken _ => succeed .normal
      | .returned v t => succeed (.returned v t)
      | .normal | .continued _ => rounds steps l n k
    else succeed .normal

/-- A whole loop. The initializer is executed once, in a scope around the rounds. -/
def run (steps : Bool) (l : ForLoop Binding) (n : Nat) : Run Completion :=
  match l.init with
  | none => l.rounds steps n n
  | some s => inScope (inTurn (exec n s) (l.rounds steps n n))

/-! ## The statement that is read -/

/-- What is repeated: the body, with the increment behind it. -/
def repeated {β : Type} (keyword : Token) (increment : Option (Expr β)) (body : Stmt β) : Stmt β :=
  match increment with
  | none => body
  | some e => .block keyword [body, .expr e]

/-- The condition that is tested, written out if it is missing. -/
def condition {β : Type} (keyword : Token) (test : Option (Expr β)) : Expr β :=
  test.getD (.literal ⟨.true, Bytes.ofString "true", .nil, keyword.line⟩ (.bool true))

/-- The statement that a loop stands for. -/
def statement {β : Type} (keyword : Token) (l : ForLoop β) : Stmt β :=
  match l.init with
  | none => .while keyword (condition keyword l.test) (repeated keyword l.increment l.body)
  | some s =>
    .block keyword
      [s, .while keyword (condition keyword l.test) (repeated keyword l.increment l.body)]

private theorem statement_eq (keyword : Token) (l : ForLoop Unit) :
    l.statement keyword = Parser.forLoop keyword l.init l.test l.increment l.body := by
  obtain ⟨init, test, increment, body⟩ := l
  cases init <;> cases increment <;> rfl

section Ends

variable {keyword : Token} {l : ForLoop Binding} {n n' : Nat}

private theorem testValue_within (h : n ≤ n') : Within (l.testValue n) (l.testValue n') := by
  unfold testValue
  cases l.test with
  | none => exact .refl _
  | some e => exact eval_within h e

private theorem eval_condition (n : Nat) :
    eval (n + 1) (condition keyword l.test) = l.testValue (n + 1) := by
  unfold condition testValue
  cases l.test <;> rfl

-- With an increment, a round is a statement and another one in a scope of its own.
private theorem round_eq {e : Expr Binding} (he : l.increment = some e) (n : Nat) :
    l.round false n = inScope (inTurn (exec n l.body) (exec (n + 1) (.expr e))) := by
  have hafter : afterBody false e n = fun c ↦ match c with
      | .normal => exec (n + 1) (.expr e)
      | completion => succeed completion := by
    funext c
    cases c <;> rfl
  simp only [round, he, inTurn, hafter]

private theorem exec_repeated (e : Expr Binding) (s : Stmt Binding) (n : Nat) :
    exec (n + 4) (repeated keyword (some e) s) =
      inScope (inTurn (exec (n + 2) s) (exec (n + 1) (.expr e))) := by
  rw [← execAll_pair]
  rfl

private theorem round_within (h : n ≤ n') : Within (l.round false n) (l.round false n') := by
  cases he : l.increment with
  | none =>
    unfold round
    rw [he]
    exact exec_within h l.body
  | some e =>
    rw [round_eq he, round_eq he]
    exact within_inScope (within_inTurn (exec_within h _) (exec_within (by omega) _))

private theorem repeated_within (n : Nat) :
    Within (exec n (repeated keyword l.increment l.body)) (l.round false (n + 4)) := by
  refine (exec_within (Nat.le_add_right n 4) _).trans ?_
  cases he : l.increment with
  | none =>
    unfold round repeated
    rw [he]
    exact .refl _
  | some e =>
    rw [round_eq he, exec_repeated]
    exact within_inScope (within_inTurn (exec_within (by omega) _) (exec_within (by omega) _))

private theorem within_repeated (n : Nat) :
    Within (l.round false n) (exec (n + 4) (repeated keyword l.increment l.body)) := by
  cases he : l.increment with
  | none =>
    unfold round repeated
    rw [he]
    exact exec_within (Nat.le_add_right n 4) _
  | some e =>
    rw [round_eq he, exec_repeated]
    exact within_inScope (within_inTurn (exec_within (by omega) _) (.refl _))

private theorem rounds_within (h : n ≤ n') {k k' : Nat} (hk : k ≤ k') :
    Within (l.rounds false n k) (l.rounds false n' k') := by
  induction k generalizing k' with
  | zero => exact within_outOfFuel _
  | succ k ih =>
    obtain ⟨k', rfl⟩ : ∃ j, k' = j + 1 := ⟨k' - 1, by omega⟩
    have hnext := ih (Nat.le_of_succ_le_succ hk)
    refine within_bind (testValue_within h) fun v ↦ within_ite ?_ (.refl _)
    refine within_bind (round_within h) fun c ↦ ?_
    cases c with
    | normal => exact hnext
    | returned v t => exact .refl _
    | broken t => exact .refl _
    | continued t => exact hnext

-- Repeating the statement is going through the rounds.
private theorem repeatWhile_within {k : Nat} (h : k + 4 ≤ n) :
    Within (repeatWhile k (condition keyword l.test) (repeated keyword l.increment l.body))
      (l.rounds false n k) := by
  induction k with
  | zero => exact within_outOfFuel _
  | succ k ih =>
    have htest : Within (eval k (condition keyword l.test)) (l.testValue n) := by
      refine (eval_within (Nat.le_succ k) _).trans ?_
      rw [eval_condition]
      exact testValue_within (by omega)
    have hround : Within (exec k (repeated keyword l.increment l.body)) (l.round false n) :=
      (repeated_within k).trans (round_within (by omega))
    refine within_bind htest fun v ↦ within_ite ?_ (.refl _)
    refine within_bind hround fun c ↦ ?_
    cases c with
    | normal => exact ih (by omega)
    | returned v t => exact .refl _
    | broken t => exact .refl _
    | continued t => exact ih (by omega)

private theorem within_repeatWhile (n k : Nat) :
    Within (l.rounds false n k) (repeatWhile (n + 4 + k) (condition keyword l.test)
      (repeated keyword l.increment l.body)) := by
  induction k with
  | zero => exact within_outOfFuel _
  | succ k ih =>
    have htest : Within (l.testValue n) (eval (n + 4 + k) (condition keyword l.test)) := by
      rw [show n + 4 + k = n + 3 + k + 1 by omega, eval_condition]
      exact testValue_within (by omega)
    have hround : Within (l.round false n)
        (exec (n + 4 + k) (repeated keyword l.increment l.body)) :=
      (within_repeated n).trans (exec_within (by omega) _)
    refine within_bind htest fun v ↦ within_ite ?_ (.refl _)
    refine within_bind hround fun c ↦ ?_
    cases c with
    | normal => exact ih
    | returned v t => exact .refl _
    | broken t => exact .refl _
    | continued t => exact ih

private theorem exec_statement {s : Stmt Binding} (hs : l.init = some s) (n : Nat) :
    exec (n + 4) (l.statement keyword) = inScope (inTurn (exec (n + 2) s)
      (repeatWhile n (condition keyword l.test) (repeated keyword l.increment l.body))) := by
  rw [statement, hs]
  change inScope (execAll (n + 3) _) = _
  rw [execAll_pair]
  rfl

private theorem statement_within (n : Nat) :
    Within (exec n (l.statement keyword)) (l.run false (n + 4)) := by
  have hrounds {k : Nat} (hk : k ≤ n) :
      Within (repeatWhile k (condition keyword l.test) (repeated keyword l.increment l.body))
        (l.rounds false (n + 4) (n + 4)) :=
    (repeatWhile_within (by omega)).trans (rounds_within (Nat.le_refl _) (by omega))
  cases hs : l.init with
  | none =>
    rw [run, statement, hs]
    cases n with
    | zero => exact within_outOfFuel _
    | succ n => exact hrounds (Nat.le_succ n)
  | some s =>
    refine (exec_within (Nat.le_add_right n 4) _).trans ?_
    rw [exec_statement hs, run, hs]
    exact within_inScope (within_inTurn (exec_within (by omega) s) (hrounds (Nat.le_refl n)))

private theorem within_statement (n : Nat) :
    Within (l.run false n) (exec (n + 4 + n + 4) (l.statement keyword)) := by
  have hrounds : Within (l.rounds false n n) (repeatWhile (n + 4 + n) (condition keyword l.test)
      (repeated keyword l.increment l.body)) := within_repeatWhile n n
  cases hs : l.init with
  | none =>
    refine Within.trans ?_ (exec_within (n := n + 4 + n + 1) (by omega) _)
    rw [run, statement, hs]
    exact hrounds
  | some s =>
    rw [exec_statement hs, run, hs]
    exact within_inScope (within_inTurn (exec_within (by omega) s) hrounds)

/-- The statement that a loop stands for ends as the loop does whose increment is skipped after a
`continue`. -/
theorem statement_ends_iff (keyword : Token) (l : ForLoop Binding) (m : Machine)
    (o : Outcome Completion) :
    Ends (exec · (l.statement keyword)) m o ↔ Ends (l.run false) m o :=
  ⟨.mono fun n ↦ ⟨n + 4, statement_within n⟩, .mono fun n ↦ ⟨n + 4 + n + 4, within_statement n⟩⟩

end Ends

/-! ## Loops as in C -/

/-- No `continue` leaves the body of a loop. -/
def NeverContinues (l : ForLoop Binding) : Prop :=
  ∀ n m t m', exec n l.body m ≠ .done (.continued t) m'

/-- It is enough that no keyword can leave the body. -/
theorem neverContinues_of_branches {l : ForLoop Binding} (h : l.body.branches = []) :
    l.NeverContinues := by
  intro n m t m' hc
  have hmem : t ∈ l.body.branches := leaves_exec n l.body m _ m' hc
  rw [h] at hmem
  cases hmem

-- What is done after a `continue` matters only if there is one, and an increment.
private theorem run_true_eq {l : ForLoop Binding} (h : l.increment = none ∨ l.NeverContinues) :
    l.run true = l.run false := by
  have hround : l.round true = l.round false := by
    funext n
    unfold round
    cases he : l.increment with
    | none => rfl
    | some e =>
      have hnever : l.NeverContinues := h.resolve_left (by simp [he])
      refine congrArg inScope (funext fun m ↦ ?_)
      change andThen _ _ m = andThen _ _ m
      unfold andThen
      cases hc : exec n l.body m with
      | failed f m' => rfl
      | done c m' =>
        cases c with
        -- the two differ in this case only
        | continued t => exact absurd hc (hnever n m t m')
        | normal => rfl
        | returned v t => rfl
        | broken t => rfl
  have hrounds (n k : Nat) : l.rounds true n k = l.rounds false n k := by
    induction k with
    | zero => rfl
    | succ k ih => rw [rounds, rounds, hround, ih]
  funext n
  rw [run, run, hrounds]

/-- The parts of a loop without what is known of their uses of variables. -/
def unbound (l : ForLoop Binding) : ForLoop Unit :=
  ⟨l.init.map Stmt.unbound, l.test.map Expr.unbound, l.increment.map Expr.unbound, l.body.unbound⟩

section Read

variable {s : Stmt Binding} {keyword : Token}

private theorem block_of_unbound {s₁ s₂ : Stmt Unit} (h : s.unbound = .block keyword [s₁, s₂]) :
    ∃ s₁' s₂', s = .block keyword [s₁', s₂'] ∧ s₁'.unbound = s₁ ∧ s₂'.unbound = s₂ := by
  cases s with
  | block t body =>
    obtain ⟨rfl, hbody⟩ := Stmt.block.inj h
    rcases body with _ | ⟨s₁', _ | ⟨s₂', _ | ⟨s₃', rest⟩⟩⟩ <;>
      simp only [Stmt.mapUsesList, List.cons.injEq, reduceCtorEq, and_false, and_true] at hbody
    exact ⟨s₁', s₂', rfl, hbody.1, hbody.2⟩
  | var name init => cases init <;> cases h
  | ifElse t test yes no => cases no <;> cases h
  | «return» t result => cases result <;> cases h
  | _ => cases h

private theorem while_of_unbound {test : Expr Unit} {body : Stmt Unit}
    (h : s.unbound = .while keyword test body) :
    ∃ test' body', s = .while keyword test' body' ∧ test'.unbound = test ∧
      body'.unbound = body := by
  cases s with
  | «while» t test' body' =>
    obtain ⟨rfl, htest, hbody⟩ := Stmt.while.inj h
    exact ⟨test', body', rfl, htest, hbody⟩
  | var name init => cases init <;> cases h
  | ifElse t test yes no => cases no <;> cases h
  | «return» t result => cases result <;> cases h
  | _ => cases h

private theorem expr_of_unbound {e : Expr Unit} (h : s.unbound = .expr e) :
    ∃ e', s = .expr e' ∧ e'.unbound = e := by
  cases s with
  | expr e' => exact ⟨e', rfl, Stmt.expr.inj h⟩
  | var name init => cases init <;> cases h
  | ifElse t test yes no => cases no <;> cases h
  | «return» t result => cases result <;> cases h
  | _ => cases h

private theorem print_of_unbound {e : Expr Unit} (h : s.unbound = .print keyword e) :
    ∃ e', s = .print keyword e' ∧ e'.unbound = e := by
  cases s with
  | print t e' =>
    obtain ⟨rfl, he⟩ := Stmt.print.inj h
    exact ⟨e', rfl, he⟩
  | var name init => cases init <;> cases h
  | ifElse t test yes no => cases no <;> cases h
  | «return» t result => cases result <;> cases h
  | _ => cases h

private theorem literal_of_unbound {e : Expr Binding} {t : Token} {v : Literal}
    (h : e.unbound = .literal t v) : e = .literal t v := by
  cases e with
  | literal t' v' =>
    obtain ⟨rfl, rfl⟩ := Expr.literal.inj h
    rfl
  | _ => cases h

private theorem test_of_unbound {e : Expr Binding} {test : Option (Expr Unit)}
    (h : e.unbound = condition keyword test) :
    ∃ test' : Option (Expr Binding),
      test'.map Expr.unbound = test ∧ e = condition keyword test' := by
  cases test with
  | none => exact ⟨none, rfl, literal_of_unbound h⟩
  | some test => exact ⟨some e, congrArg some h, rfl⟩

private theorem body_of_unbound {increment : Option (Expr Unit)} {body : Stmt Unit}
    (h : s.unbound = repeated keyword increment body) :
    ∃ (increment' : Option (Expr Binding)) (body' : Stmt Binding),
      increment'.map Expr.unbound = increment ∧ body'.unbound = body ∧
      s = repeated keyword increment' body' := by
  cases increment with
  | none => exact ⟨none, s, rfl, h, rfl⟩
  | some e =>
    obtain ⟨body', s', rfl, hbody, hs'⟩ := block_of_unbound h
    obtain ⟨e', rfl, he⟩ := expr_of_unbound hs'
    exact ⟨some e', body', congrArg some he, hbody, rfl⟩

-- What has the form of a loop consists of the parts of one.
private theorem exists_statement {l : ForLoop Unit} (h : s.unbound = l.statement keyword) :
    ∃ l' : ForLoop Binding, l'.unbound = l ∧ s = l'.statement keyword := by
  obtain ⟨init, test, increment, body⟩ := l
  have hloop {s : Stmt Binding}
      (h : s.unbound = .while keyword (condition keyword test) (repeated keyword increment body)) :
      ∃ test' increment' body', test'.map Expr.unbound = test ∧
        increment'.map Expr.unbound = increment ∧ Stmt.unbound body' = body ∧
        s = .while keyword (condition keyword test') (repeated keyword increment' body') := by
    obtain ⟨e, s', rfl, he, hs'⟩ := while_of_unbound h
    obtain ⟨test', htest, rfl⟩ := test_of_unbound he
    obtain ⟨increment', body', hincrement, hbody, rfl⟩ := body_of_unbound hs'
    exact ⟨test', increment', body', htest, hincrement, hbody, rfl⟩
  cases init with
  | none =>
    obtain ⟨test', increment', body', rfl, rfl, rfl, rfl⟩ := hloop h
    exact ⟨⟨none, test', increment', body'⟩, rfl, rfl⟩
  | some s₀ =>
    obtain ⟨s₁, s₂, rfl, rfl, hs₂⟩ := block_of_unbound h
    obtain ⟨test', increment', body', rfl, rfl, rfl, rfl⟩ := hloop hs₂
    exact ⟨⟨some s₁, test', increment', body'⟩, rfl, rfl⟩

end Read

/-- A loop that is read and has its names bound in some way ends, in every state, as its parts say.
The increment is skipped after a `continue`. If there is no increment, or if no `continue` leaves
the body, this is the loop whose increment is evaluated before every test but the first. -/
theorem read_ends_iff {keyword : Token} {init : Option (Stmt Unit)}
    {test increment : Option (Expr Unit)} {body : Stmt Unit} {s : Stmt Binding}
    (hs : s.unbound = Parser.forLoop keyword init test increment body) :
    ∃ l : ForLoop Binding, l.unbound = ⟨init, test, increment, body⟩ ∧ ∀ m o,
      (Ends (exec · s) m o ↔ Ends (l.run false) m o) ∧
      (increment = none ∨ l.NeverContinues → (Ends (exec · s) m o ↔ Ends (l.run true) m o)) := by
  rw [← statement_eq keyword ⟨init, test, increment, body⟩] at hs
  obtain ⟨l, hl, rfl⟩ := exists_statement hs
  refine ⟨l, hl, fun m o ↦ ⟨statement_ends_iff keyword l m o, fun h ↦ ?_⟩⟩
  have hincrement : l.increment.map Expr.unbound = increment := congrArg ForLoop.increment hl
  have hnone : l.increment = none ∨ l.NeverContinues :=
    h.imp_left fun hnone ↦ Option.map_eq_none_iff.mp (hincrement.trans hnone)
  rw [run_true_eq hnone]
  exact statement_ends_iff keyword l m o

-- A token on the first line.
private def symbol (k : Kind) (text : String) : Token := ⟨k, Bytes.ofString text, .nil, 1⟩

/-- The keyword of the loops below. -/
def keywordFor : Token := symbol .for "for"

private def i : Token := symbol .identifier "i"

private def falsehood : Expr Binding := .literal (symbol .false "false") (.bool false)

/-- The loop `for (var i = true; i; i = false) print i;`, which goes one round. -/
def oneRound : ForLoop Binding where
  init := some (.var i (some (.literal (symbol .true "true") (.bool true))))
  test := some (.variable i (.scope 0))
  increment := some (.assign i (.scope 1) falsehood)
  body := .print (symbol .print "print") (.variable i (.scope 1))

/-- The loop has all clauses and a body that no `continue` leaves. As it is read it is the loop of
C, and it prints once. -/
theorem read_ends_iff_oneRound :
    (∃ l : ForLoop Binding, l.unbound = oneRound.unbound ∧ l.NeverContinues ∧
      ∀ m o, Ends (exec · (oneRound.statement keywordFor)) m o ↔ Ends (l.run true) m o) ∧
    ∃ o, Ends (exec · (oneRound.statement keywordFor)) (Machine.start none 0) o ∧
      o.after.output = Bytes.ofString "true\n" := by
  refine ⟨?_, _, ends_of_isDone (n := 20) ?_, ?_⟩
  · have hread : (oneRound.statement keywordFor).unbound = Parser.forLoop keywordFor
        oneRound.unbound.init oneRound.unbound.test oneRound.unbound.increment
        oneRound.unbound.body := rfl
    obtain ⟨l, hl, hends⟩ := read_ends_iff hread
    obtain ⟨e, hbody, -⟩ := print_of_unbound (congrArg ForLoop.body hl)
    have hnever : l.NeverContinues := neverContinues_of_branches (by rw [hbody]; rfl)
    exact ⟨l, hl, hnever, fun m o ↦ (hends m o).2 (.inr hnever)⟩
  all_goals decide +kernel

/-! ## A loop that goes one round too far -/

private def a : Token := symbol .identifier "a"

private def b : Token := symbol .identifier "b"

/-- A loop over the global variables `a` and `b`, of which both are true at the start. Its condition
is `a` and its increment makes `a` false. The body makes `b` false and is left by `continue` if `b`
is true, and prints `b` otherwise. -/
def skipping : ForLoop Binding where
  init := none
  test := some (.variable a .global)
  increment := some (.assign a .global falsehood)
  body := .block (symbol .leftBrace "\x7b")
    [.ifElse (symbol .if "if") (.variable b .global)
      (.block (symbol .leftBrace "\x7b")
        [.expr (.assign b .global falsehood), .branch (symbol .continue "continue")]) none,
     .print (symbol .print "print") (.variable b .global)]

/-- A machine at top level with the global variables `a` and `b`, both of them true. -/
def bothTrue : Machine :=
  { Machine.start none 0 with
    heap := ⟨#[⟨[(a.lexeme, .bool true), (b.lexeme, .bool true)], none⟩]⟩ }.atTopLevel

/-- The statement that is read for the loop prints once. The loop as it is in C prints nothing:
after the `continue` its increment makes the condition false. -/
theorem continue_skips_increment :
    (skipping.statement keywordFor).unbound = Parser.forLoop keywordFor skipping.unbound.init
      skipping.unbound.test skipping.unbound.increment skipping.unbound.body ∧
    (∃ o, Ends (exec · (skipping.statement keywordFor)) bothTrue o ∧
      o.after.output = Bytes.ofString "false\n") ∧
    ∃ o, Ends (skipping.run true) bothTrue o ∧ o.after.output = [] := by
  refine ⟨rfl, ⟨_, ends_of_isDone (n := 20) ?_, ?_⟩, _, ends_of_isDone (n := 20) ?_, ?_⟩
  all_goals decide +kernel

end ForLoop
end Lox
