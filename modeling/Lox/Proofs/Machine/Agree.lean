import Lox.Proofs.Machine.Similar
import Lox.Proofs.Machine.Sound

/-!
# Programs that agree

On a sound machine every use of a local variable reaches the environment of the scope that declares
it, and if no variable is read that is not ready, then there is a value. So nothing shows the names
of local variables, and programs that are alike agree in all they do (`Terms.interpret_agrees`).
-/

namespace Lox

/-- At this point the resolver finds the name in a scope that is open, and so many steps outwards
from the current environment is the one that was made for this scope. -/
structure Point.Reaches (p : Point) (name : Bytes) (d : Nat) (o : Opened) : Prop where
  opened : p.context[d]? = some o
  found : p.context.scopes.find name = .scope d
  declares : o.scope.declares name = true
  ancestor : p.machine.heap.ancestor? d p.machine.env = some o.env
  local_env : o.env ≠ Machine.globals

namespace Terms

variable {k : Terms} {p : Point}

/-- At a good point, the environment of a name that is found in a scope is reached. -/
theorem GoodPoint.reaches (hp : k.GoodPoint p) {name : Bytes} {d : Nat}
    (hb : .scope d = p.context.scopes.find name) : ∃ o, p.Reaches name d o := by
  obtain ⟨o, ho, hdecl⟩ := Context.find_eq_scope hb.symm
  obtain ⟨hanc, hne, -⟩ := hp.scopes.ancestor? ho
  exact ⟨o, ho, hb.symm, hdecl, hanc, hne⟩

/-- If no variable is read that is not ready, then a local variable that is read has a value. -/
theorem GoodPoint.bound (hp : k.GoodPoint p) (hstrict : k.strict) {name : Token} {d : Nat}
    (he : p.expr = .variable name (.scope d)) {o : Opened} (ho : p.Reaches name.lexeme d o) :
    ∃ v, p.machine.heap.lookup o.env name.lexeme = some v := by
  have hfit := hp.expr
  rw [he] at hfit
  have hs : p.context.scopes[d]? = some o.scope := by
    rw [Context.scopes, List.getElem?_map, ho.opened]
    rfl
  have hready := hfit.2 hstrict d o.scope ho.found hs
  exact Option.isSome_iff_exists.mp ((hp.scopes.ancestor? ho.opened).2.2 name.lexeme hready)

/-- On a sound machine a local variable that is read has a value, if none is read that is not
ready. -/
theorem GoodPoint.isBound (hp : k.GoodPoint p) (hstrict : k.strict) : p.Bound := by
  intro name d he
  have hfit := hp.expr
  rw [he] at hfit
  obtain ⟨o, ho⟩ := hp.reaches hfit.1
  obtain ⟨v, hv⟩ := hp.bound hstrict he ho
  exact ⟨o.env, v, ho.ancestor, hv⟩

/-- Programs that are alike agree, from machines that are similar once the first is at top level.
The first leaves a sound machine, and fails only in a way that is foreseen. -/
theorem interpret_agrees {same : Prop} (hstrict : k.strict) {t : Trace} {W : World} {m m' : Machine}
    (n : Nat) {prog prog' : Program Binding} (hsound : k.Sound t m)
    (hsim : m.atTopLevel.Similar same W m') (hfit : Stmt.AllFit k.strict [] prog)
    (hlike : Stmt.AllLike same [] prog prog') :
    ∃ W' t', Outcome.Similar same (fun _ _ _ _ ↦ True) W' (Run.interpret n prog m)
        (Run.interpretAll n prog' m') ∧
      k.Sound t' (Run.interpret n prog m).after ∧
      ∀ f m₁, Run.interpret n prog m = .failed f m₁ → k.Foresees f := by
  have hy := sound_interpret n hsound hfit
  have herase := Traced.interpret_erases n prog t m
  obtain ⟨W', -, hend⟩ := simulates_interpretAll n hsim rfl hlike (t := t) fun p hp ↦
    (hy.sound.points p hp).isBound hstrict
  refine ⟨W', (Traced.interpret n prog t m).2, ?_, ?_, ?_⟩
  · rw [← herase]
    exact hend
  · rw [← herase]
    exact hy.sound
  · rw [← herase]
    exact hy.fault

end Terms

/-- A program ends at top level, where it began. -/
theorem Run.interpret_after (n : Nat) (p : Program Binding) (m : Machine) :
    (Run.interpret n p m).after.env = Machine.globals ∧
      ∃ line, (Run.interpret n p m).after.stack = [⟨none, line⟩] := by
  have hk := (Traced.orderly_interpretAll n p .empty m.atTopLevel).machine
  have herase : (Traced.interpretAll n p .empty m.atTopLevel).1 = Run.interpret n p m :=
    Traced.interpret_erases n p .empty m
  rw [herase] at hk
  refine ⟨hk.env, ?_⟩
  rcases hk.stack with hs | ⟨line, hs⟩
  · exact ⟨0, hs⟩
  · exact ⟨line, hs⟩

end Lox
