import Lox.Value.Heap
import Mathlib.Data.List.Basic

/-!
# Laws of environments

What each operation on a heap of environments does to the two observations that the evaluator makes
of it: the value of a name in one environment (`Heap.lookup`) and the environment around one
(`Heap.enclosing?`). The heaps of a run form a chain in the order `Heap.Later`: environments are
added, never removed or linked anew, and a name that has a value keeps having one.
-/

namespace Lox

/-- Setting a name changes what is found under this name and nothing else. -/
theorem Bindings.lookup_set (b : Bindings) (x y : Bytes) (v : Value) :
    (Bindings.set x v b).lookup y = if y = x then some v else b.lookup y := by
  induction b with
  | nil =>
    by_cases hy : y = x
    · simp [Bindings.set, hy]
    · have hb : (y == x) = false := beq_eq_false_iff_ne.mpr hy
      simp [Bindings.set, List.lookup_cons, hy, hb]
  | cons entry rest ih =>
    obtain ⟨z, w⟩ := entry
    by_cases hz : z = x
    · subst hz
      by_cases hy : y = z
      · simp [Bindings.set, hy]
      · have hb : (y == z) = false := beq_eq_false_iff_ne.mpr hy
        simp [Bindings.set, List.lookup_cons, hy, hb]
    · simp only [Bindings.set, hz, if_false, List.lookup_cons, ih]
      by_cases hy : y = z
      · subst hy
        simp [hz]
      · have hb : (y == z) = false := beq_eq_false_iff_ne.mpr hy
        simp [hb]

namespace Heap

/-- Defining a name in an existing environment changes this one name there. -/
theorem lookup_define (h : Heap) (e e' : EnvId) (x y : Bytes) (v : Value) :
    (h.define e x v).lookup e' y =
      if e' = e ∧ y = x ∧ e < h.nextId then some v else h.lookup e' y := by
  simp only [lookup, define, nextId, Array.getElem?_modify]
  by_cases he : e = e'
  · subst he
    by_cases hb : e < h.envs.size
    · by_cases hy : y = x <;> simp [hb, Bindings.lookup_set, hy]
    · simp [hb]
  · have hne : ¬ e' = e := fun hc ↦ he hc.symm
    simp [he, hne]

/-- Defining a name moves no environment. -/
@[simp] theorem enclosing?_define (h : Heap) (e e' : EnvId) (x : Bytes) (v : Value) :
    (h.define e x v).enclosing? e' = h.enclosing? e' := by
  simp only [enclosing?, define, Array.getElem?_modify]
  by_cases he : e = e'
  · subst he
    cases h.envs[e]? <;> simp
  · simp [he]

/-- Defining a name makes no environment. -/
@[simp] theorem nextId_define (h : Heap) (e : EnvId) (x : Bytes) (v : Value) :
    (h.define e x v).nextId = h.nextId := by
  simp [nextId, define]

/-- A new environment has no names, and the others keep theirs. -/
@[simp] theorem lookup_push (h : Heap) (p : Option EnvId) (e : EnvId) (x : Bytes) :
    (h.push p).lookup e x = h.lookup e x := by
  simp only [lookup, push, Array.getElem?_push]
  by_cases he : e = h.envs.size
  · subst he
    simp
  · simp [he]

/-- A new environment is enclosed by the given one, and the others stay where they are. -/
theorem enclosing?_push (h : Heap) (p : Option EnvId) (e : EnvId) :
    (h.push p).enclosing? e = if e = h.nextId then p else h.enclosing? e := by
  simp only [enclosing?, push, nextId, Array.getElem?_push]
  by_cases he : e = h.envs.size <;> simp [he]

/-- One environment is added. -/
@[simp] theorem nextId_push (h : Heap) (p : Option EnvId) : (h.push p).nextId = h.nextId + 1 := by
  simp [nextId, push]

/-- There is nothing at an address that was not given out. -/
theorem enclosing?_eq_none (h : Heap) (e : EnvId) (he : h.nextId ≤ e) : h.enclosing? e = none := by
  have hn : h.envs[e]? = none := Array.getElem?_eq_none he
  simp [enclosing?, hn]

/-- There are no names in environments that do not exist. -/
theorem lookup_eq_none (h : Heap) (e : EnvId) (x : Bytes) (he : h.nextId ≤ e) :
    h.lookup e x = none := by
  have hn : h.envs[e]? = none := Array.getElem?_eq_none he
  simp [lookup, hn]

/-- Only environments that exist have an environment around them. -/
theorem lt_nextId_of_enclosing? {h : Heap} {e p : EnvId} (hp : h.enclosing? e = some p) :
    e < h.nextId := by
  by_contra hge
  rw [enclosing?_eq_none h e (Nat.le_of_not_lt hge)] at hp
  cases hp

/-- The first environment has none around it that a search outwards would go to. -/
@[simp] theorem chain_zero (h : Heap) : h.chain 0 = [0] := by
  rw [chain]
  cases h.enclosing? 0 <;> simp

/-- A search from the global environment finds what is there. -/
theorem get?_zero (h : Heap) (x : Bytes) : h.get? 0 x = h.lookup 0 x := by
  simp only [get?, chain_zero, List.findSome?_cons, List.findSome?_nil]
  cases h.lookup 0 x <;> rfl

/-- A search from the global environment ends there. -/
theorem owner?_zero (h : Heap) (x : Bytes) :
    h.owner? 0 x = if (h.lookup 0 x).isSome then some 0 else none := by
  simp only [owner?, chain_zero, List.find?_cons, List.find?_nil]
  cases (h.lookup 0 x).isSome <;> rfl

/-- Heaps with the same environments around each one have the same around those. -/
theorem ancestor?_congr {h h' : Heap} (hh : ∀ e, h'.enclosing? e = h.enclosing? e) (d : Nat)
    (e : EnvId) : h'.ancestor? d e = h.ancestor? d e := by
  induction d generalizing e with
  | zero => rfl
  | succ d ih =>
    rw [ancestor?, ancestor?, hh]
    congr 1
    funext p
    exact ih p

/-- A heap at a later time. -/
structure Later (h h' : Heap) : Prop where
  /-- No environment is removed. -/
  nextId : h.nextId ≤ h'.nextId
  /-- The environment around another one stays the same. -/
  enclosing : ∀ e p, h.enclosing? e = some p → h'.enclosing? e = some p
  /-- A name with a value has one ever after. -/
  bound : ∀ e x, (h.lookup e x).isSome → (h'.lookup e x).isSome

namespace Later

/-- A heap is as late as itself. -/
theorem refl (h : Heap) : Later h h := ⟨Nat.le_refl _, fun _ _ hp ↦ hp, fun _ _ hx ↦ hx⟩

/-- What comes later than something later is later. -/
theorem trans {h₁ h₂ h₃ : Heap} (h : Later h₁ h₂) (h' : Later h₂ h₃) : Later h₁ h₃ :=
  ⟨Nat.le_trans h.nextId h'.nextId, fun e p hp ↦ h'.enclosing e p (h.enclosing e p hp),
    fun e x hx ↦ h'.bound e x (h.bound e x hx)⟩

/-- A heap in which a name is defined is later. -/
theorem define (h : Heap) (e : EnvId) (x : Bytes) (v : Value) : Later h (h.define e x v) where
  nextId := by simp
  enclosing e' p hp := by simpa using hp
  bound e' y hy := by
    rw [lookup_define]
    split
    · rfl
    · exact hy

/-- A heap to which an environment is added is later. -/
theorem push (h : Heap) (p : Option EnvId) : Later h (h.push p) where
  nextId := by simp
  enclosing e q hq := by
    have hlt := lt_nextId_of_enclosing? hq
    rw [enclosing?_push, if_neg (Nat.ne_of_lt hlt)]
    exact hq
  bound e y hy := by simpa using hy

/-- The environments around one stay the same. -/
theorem ancestor? {h h' : Heap} (hl : h.Later h') {d : Nat} {e p : EnvId}
    (hp : h.ancestor? d e = some p) : h'.ancestor? d e = some p := by
  induction d generalizing e with
  | zero => exact hp
  | succ d ih =>
    obtain ⟨q, hq, hrest⟩ := Option.bind_eq_some_iff.mp hp
    exact Option.bind_eq_some_iff.mpr ⟨q, hl.enclosing e q hq, ih hrest⟩

end Later
end Heap
end Lox
