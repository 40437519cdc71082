import Lox.Proofs.Machine.Order

/-!
# Forests of environments

Environments are made one in another and then written to, so that together they form a forest
(`Heap.Forest`), in which every way outwards ends (`Heap.Forest.descends`). A search outwards finds
what is nearest (`Heap.Nearest`), and a write is seen just from those environments for which the
environment written to is the nearest one (`Heap.Written`): others bind the name before it.
-/

namespace Lox.Heap

/-- The value of a name in the environment a number of steps outwards. -/
def getAt? (h : Heap) (e : EnvId) (depth : Nat) (name : Bytes) : Option Value :=
  (h.ancestor? depth e).bind (h.lookup · name)

/-- Binds a name in the environment a number of steps outwards, if there are so many. -/
def assignAt? (h : Heap) (e : EnvId) (depth : Nat) (name : Bytes) (v : Value) : Option Heap :=
  (h.ancestor? depth e).map (h.define · name v)

/-- The heap after an assignment; there may be no binding to change. -/
def assigned (h : Heap) (e : EnvId) (name : Bytes) (v : Value) : Heap :=
  (h.assign? e name v).getD h

/-- Heaps that are built from nothing by operations on environments that exist. -/
inductive Forest : Heap → Prop where
  | empty : Forest .empty
  | root {h : Heap} (hf : Forest h) : Forest (h.push none)
  | child {h : Heap} {p : EnvId} (hf : Forest h) (hp : p < h.nextId) : Forest (h.push (some p))
  | define {h : Heap} {e : EnvId} (x : Bytes) (v : Value) (hf : Forest h) (he : e < h.nextId) :
    Forest (h.define e x v)
  | assign {h : Heap} {e : EnvId} (x : Bytes) (v : Value) (hf : Forest h) (he : e < h.nextId) :
    Forest (h.assigned e x v)
  | assignAt {h h' : Heap} {e : EnvId} {d : Nat} {x : Bytes} {v : Value} (hf : Forest h)
    (he : e < h.nextId) (ha : h.assignAt? e d x v = some h') : Forest h'

/-- The nearest binding of a name, searching outwards from `e`, is in `t`, `d` steps away. -/
structure Nearest (h : Heap) (e : EnvId) (x : Bytes) (d : Nat) (t : EnvId) : Prop where
  outwards : h.ancestor? d e = some t
  bound : (h.lookup t x).isSome
  least : ∀ d' < d, h.getAt? e d' x = none

/-- `h'` is `h` after `v` was written to the name `x` in the environment `t`. -/
structure Written (h h' : Heap) (t : EnvId) (x : Bytes) (v : Value) : Prop where
  /-- The binding has the value. -/
  cell : h'.lookup t x = some v
  /-- No other binding is new, gone or changed. -/
  others : ∀ e y, ¬ (e = t ∧ y = x) → h'.lookup e y = h.lookup e y
  /-- No environment is new, and each is enclosed by the one it was enclosed by. -/
  nextId : h'.nextId = h.nextId
  enclosing : ∀ e, h'.enclosing? e = h.enclosing? e
  /-- The value is found from where the binding is the nearest one. -/
  seen : ∀ e d, h'.Nearest e x d t → h'.get? e x = some v
  /-- From elsewhere the same is found as before. -/
  unseen : ∀ e, (∀ d, ¬ h'.Nearest e x d t) → h'.get? e x = h.get? e x
  /-- The same is found under all other names. -/
  names : ∀ e y, y ≠ x → h'.get? e y = h.get? e y

/-! ## Ways outwards -/

/-- Every environment is older than those it encloses. -/
def Descends (h : Heap) : Prop := ∀ e p, h.enclosing? e = some p → p < e

section Chain

variable {h h' : Heap} {e t : EnvId} {x : Bytes} {d : Nat}

private theorem Descends.define (hd : h.Descends) (t : EnvId) (x : Bytes) (v : Value) :
    (h.define t x v).Descends := by
  intro e p hp
  rw [enclosing?_define] at hp
  exact hd e p hp

private theorem Descends.push (hd : h.Descends) {p? : Option EnvId} (hp : ∀ p ∈ p?, p < h.nextId) :
    (h.push p?).Descends := by
  intro e p he
  rw [enclosing?_push] at he
  split at he
  · next heq =>
    rw [heq]
    exact hp p he
  · exact hd e p he

private theorem Forest.descends (hf : h.Forest) : h.Descends := by
  induction hf with
  | empty => exact nofun
  | root _ ih => exact ih.push nofun
  | child _ hp ih => exact ih.push fun p' hp' ↦ by cases hp'; exact hp
  | define x v _ _ ih => exact ih.define _ x v
  | @assign h e x v _ _ ih =>
    unfold assigned assign?
    cases h.owner? e x with
    | none => exact ih
    | some t => exact ih.define t x v
  | assignAt _ _ ha ih =>
    obtain ⟨t, -, rfl⟩ := Option.map_eq_some_iff.mp ha
    exact ih.define t _ _

/-- An environment outwards is no younger. -/
theorem Descends.ancestor?_le (hd : h.Descends) (ha : h.ancestor? d e = some t) : t ≤ e := by
  induction d generalizing e with
  | zero =>
    cases ha
    exact Nat.le_refl t
  | succ d ih =>
    obtain ⟨p, hp, hrest⟩ := Option.bind_eq_some_iff.mp ha
    exact Nat.le_trans (ih hrest) (Nat.le_of_lt (hd e p hp))

/-- The search outwards goes through all environments outwards, one step after the other. -/
theorem Descends.getElem?_chain (hd : h.Descends) (e : EnvId) (d : Nat) :
    (h.chain e)[d]? = h.ancestor? d e := by
  induction d generalizing e with
  | zero =>
    rw [chain]
    rfl
  | succ d ih =>
    rw [chain, List.getElem?_cons_succ, ancestor?]
    cases hp : h.enclosing? e with
    | none => rfl
    | some p =>
      simp only [hd e p hp, if_true]
      exact ih p

private theorem chain_congr (hh : ∀ e, h'.enclosing? e = h.enclosing? e) (e : EnvId) :
    h'.chain e = h.chain e := by
  induction e using Nat.strongRecOn with
  | ind e ih =>
    rw [chain, chain, hh]
    cases h.enclosing? e with
    | none => rfl
    | some p =>
      dsimp only
      split
      · next hp => rw [ih p hp]
      · rfl

/-! ## Reading -/

private theorem findSome?_eq_bind {α β : Type} (f : α → Option β) (l : List α) :
    l.findSome? f = (l.find? fun a ↦ (f a).isSome).bind f := by
  induction l with
  | nil => rfl
  | cons a l ih =>
    cases ha : f a with
    | none => simp [ha, ih]
    | some b => simp [ha]

/-- What is found is the value in the environment that is found to bind the name. -/
theorem get?_eq_bind (h : Heap) (e : EnvId) (x : Bytes) :
    h.get? e x = (h.owner? e x).bind (h.lookup · x) :=
  findSome?_eq_bind _ _

private theorem Descends.getAt?_eq (hd : h.Descends) (e : EnvId) (d : Nat) (x : Bytes) :
    h.getAt? e d x = (h.chain e)[d]?.bind (h.lookup · x) := by
  rw [getAt?, hd.getElem?_chain]

/-- The environment that a search finds is the one with the nearest binding. -/
theorem Descends.owner?_eq_some_iff (hd : h.Descends) :
    h.owner? e x = some t ↔ ∃ d, h.Nearest e x d t := by
  rw [owner?, List.find?_eq_some_iff_getElem]
  constructor
  · rintro ⟨hbound, d, hlt, hget, hleast⟩
    refine ⟨d, ?_, hbound, fun d' hd' ↦ ?_⟩
    · rw [← hd.getElem?_chain, List.getElem?_eq_getElem hlt, hget]
    · have hnone := hleast d' hd'
      rw [hd.getAt?_eq, List.getElem?_eq_getElem (Nat.lt_trans hd' hlt)]
      simpa using hnone
  · rintro ⟨d, hout, hbound, hleast⟩
    rw [← hd.getElem?_chain] at hout
    obtain ⟨hlt, hget⟩ := List.getElem?_eq_some_iff.mp hout
    refine ⟨hbound, d, hlt, hget, fun d' hd' ↦ ?_⟩
    have hnone := hleast d' hd'
    rw [hd.getAt?_eq, List.getElem?_eq_getElem (Nat.lt_trans hd' hlt)] at hnone
    simpa using hnone

/-- A search finds nothing if there is no binding at any depth. -/
theorem Descends.get?_eq_none_iff (hd : h.Descends) :
    h.get? e x = none ↔ ∀ d, h.getAt? e d x = none := by
  rw [get?, List.findSome?_eq_none_iff]
  constructor
  · intro hnone d
    rw [hd.getAt?_eq]
    cases ht : (h.chain e)[d]? with
    | none => rfl
    | some t => exact hnone t (List.mem_of_getElem? ht)
  · intro hnone t ht
    obtain ⟨d, hd'⟩ := List.mem_iff_getElem?.mp ht
    have hget := hnone d
    rw [hd.getAt?_eq, hd'] at hget
    exact hget

private theorem Nearest.getAt? (hn : h.Nearest e x d t) : h.getAt? e d x = h.lookup t x := by
  rw [Heap.getAt?, hn.outwards]
  rfl

/-- A search finds the value of the nearest binding. -/
theorem Descends.get?_of_nearest (hd : h.Descends) (hn : h.Nearest e x d t) :
    h.get? e x = h.lookup t x := by
  rw [get?_eq_bind, hd.owner?_eq_some_iff.mpr ⟨d, hn⟩]
  rfl

/-! ## Writing -/

/-- An assignment changes the nearest binding. -/
theorem Descends.assigned_of_nearest (hd : h.Descends) (hn : h.Nearest e x d t) (v : Value) :
    h.assigned e x v = h.define t x v := by
  rw [assigned, assign?, hd.owner?_eq_some_iff.mpr ⟨d, hn⟩]
  rfl

private theorem isSome_assign? (h : Heap) (e : EnvId) (x : Bytes) (v : Value) :
    (h.assign? e x v).isSome = (h.get? e x).isSome := by
  rw [assign?, get?_eq_bind]
  cases ho : h.owner? e x with
  | none => rfl
  | some t =>
    have hbound := List.find?_some ho
    rw [Option.map_some, Option.bind_some, hbound]
    rfl

-- A search that does not find the environment written to finds what it found before.
private theorem findSome?_define {t : EnvId} (ht : t < h.nextId) (v : Value) {l : List EnvId}
    (hl : (l.find? fun e ↦ ((h.define t x v).lookup e x).isSome) ≠ some t) :
    l.findSome? ((h.define t x v).lookup · x) = l.findSome? (h.lookup · x) := by
  induction l with
  | nil => rfl
  | cons a l ih =>
    have ha : a ≠ t := by
      intro heq
      apply hl
      rw [List.find?_cons_of_pos] <;> simp [heq, lookup_define, ht]
    have hsame : (h.define t x v).lookup a x = h.lookup a x := by simp [lookup_define, ha]
    rw [List.findSome?_cons, List.findSome?_cons, hsame]
    cases hx : h.lookup a x with
    | some w => rfl
    | none =>
      apply ih
      rwa [List.find?_cons_of_neg] at hl
      simp [hsame, hx]

/-- What writing to an environment does to all that can be seen. -/
theorem Descends.written (hd : h.Descends) (ht : t < h.nextId) (x : Bytes) (v : Value) :
    h.Written (h.define t x v) t x v where
  cell := by simp [lookup_define, ht]
  others e y hne := by
    rw [lookup_define, if_neg]
    exact fun hc ↦ hne ⟨hc.1, hc.2.1⟩
  nextId := nextId_define h t x v
  enclosing e := enclosing?_define h t e x v
  seen e d hn := by
    rw [(hd.define t x v).get?_of_nearest hn]
    simp [lookup_define, ht]
  unseen e hn := by
    have howner : (h.define t x v).owner? e x ≠ some t := fun ho ↦ by
      obtain ⟨d, hnear⟩ := (hd.define t x v).owner?_eq_some_iff.mp ho
      exact hn d hnear
    have hchain := chain_congr (fun e ↦ enclosing?_define h t e x v) e
    rw [owner?, hchain] at howner
    rw [get?, get?, hchain]
    exact findSome?_define ht v howner
  names e y hy := by
    have hchain := chain_congr (fun e ↦ enclosing?_define h t e x v) e
    have hsame : ∀ a, (h.define t x v).lookup a y = h.lookup a y := fun a ↦ by
      simp [lookup_define, hy]
    rw [get?, get?, hchain]
    simp only [hsame]

/-- In every forest a search outwards finds the nearest binding, and nothing if there is none. An
assignment succeeds just if the search does, and changes the binding that it finds. Every write
changes one binding and is seen from where this is the nearest one. -/
theorem forest_operations (hf : h.Forest) (he : e < h.nextId) (x : Bytes) (v : Value) :
    (∀ d t, h.Nearest e x d t → h.get? e x = h.getAt? e d x) ∧
    (h.get? e x = none ↔ ∀ d, h.getAt? e d x = none) ∧
    ((h.assign? e x v).isSome ↔ (h.get? e x).isSome) ∧
    (∀ d t, h.Nearest e x d t → h.Written (h.assigned e x v) t x v) ∧
    (h.get? e x = none → h.assigned e x v = h) ∧
    h.Written (h.define e x v) e x v ∧
    ∀ d h', h.assignAt? e d x v = some h' → ∃ t, h.ancestor? d e = some t ∧ h.Written h' t x v := by
  have hd := hf.descends
  have hexists : ∀ {d t}, h.ancestor? d e = some t → t < h.nextId := fun ha ↦
    Nat.lt_of_le_of_lt (hd.ancestor?_le ha) he
  refine ⟨?_, hd.get?_eq_none_iff, by rw [isSome_assign?], ?_, ?_, hd.written he x v, ?_⟩
  · intro d t hn
    rw [hd.get?_of_nearest hn, hn.getAt?]
  · intro d t hn
    rw [hd.assigned_of_nearest hn]
    exact hd.written (hexists hn.outwards) x v
  · intro hnone
    have hassign : h.assign? e x v = none := by
      rw [← Option.not_isSome_iff_eq_none, isSome_assign?, hnone]
      simp
    rw [assigned, hassign]
    rfl
  · intro d h' ha
    obtain ⟨t, ht, rfl⟩ := Option.map_eq_some_iff.mp ha
    exact ⟨t, ht, hd.written (hexists ht) x v⟩

end Chain

/-! ## Two branches -/

/-- Environments 1 and 2 in environment 0, and 3 in 1; the name `a` is bound in 0 and in 1. -/
def branches : Heap :=
  ((((Heap.empty.push none).push (some 0)).push (some 0)).push (some 1)).define 0 [97] .nil
    |>.define 1 [97] (.bool true)

private theorem forest_branches : branches.Forest :=
  .define _ _ (.define _ _ (.child (.child (.child (.root .empty) (by decide)) (by decide))
    (by decide)) (by decide)) (by decide)

/-- What is written to the outermost environment from the one branch is seen from the other one, and
not from where it was written. -/
theorem forest_operations_branches :
    branches.Forest ∧ 3 < branches.nextId ∧
    ∃ h, branches.assignAt? 3 2 [97] (.bool false) = some h ∧ h.Nearest 2 [97] 1 0 ∧
      h.get? 2 [97] = some (.bool false) ∧ branches.Nearest 3 [97] 1 1 ∧
      h.get? 3 [97] = some (.bool true) := by
  have hlt : 3 < branches.nextId := by decide
  obtain ⟨hfound, -, -, -, -, -, hwrite⟩ :=
    forest_operations forest_branches hlt [97] (.bool false)
  obtain ⟨t, ht, hw⟩ := hwrite 2 (branches.define 0 [97] (.bool false)) rfl
  cases ht
  have hother : (branches.define 0 [97] (.bool false)).Nearest 2 [97] 1 0 := by
    refine ⟨rfl, rfl, fun d hd ↦ ?_⟩
    cases Nat.lt_one_iff.mp hd
    rfl
  have hnear : branches.Nearest 3 [97] 1 1 := by
    refine ⟨rfl, rfl, fun d hd ↦ ?_⟩
    cases Nat.lt_one_iff.mp hd
    rfl
  have hshadowed : ∀ d, ¬ (branches.define 0 [97] (.bool false)).Nearest 3 [97] d 0 := by
    intro d hn
    match d with
    | 0 => cases hn.outwards
    | 1 => cases hn.outwards
    | 2 => cases hn.least 1 (by decide)
    | d + 3 => cases hn.outwards
  refine ⟨forest_branches, hlt, _, rfl, hother, hw.seen 2 1 hother, hnear, ?_⟩
  rw [hw.unseen 3 hshadowed, hfound 1 1 hnear]
  rfl

end Lox.Heap

namespace Lox.Run

/-- The evaluator reads a local variable a number of steps outwards. -/
theorem lookup_scope_eq_getAt? (name : Token) (d : Nat) (m : Machine) :
    lookup name (.scope d) m =
      match m.heap.ancestor? d m.env, m.heap.getAt? m.env d name.lexeme with
      | none, _ => .failed .stuck m
      | some _, some v => .done v m
      | some _, none => raise name (.undefinedVariable name.lexeme) m := by
  rw [lookup_scope, Heap.getAt?]
  cases m.heap.ancestor? d m.env with
  | none => rfl
  | some e => cases h : m.heap.lookup e name.lexeme <;> simp [h]

/-- The evaluator writes a local variable a number of steps outwards. -/
theorem assign_scope_eq_assignAt? (name : Token) (d : Nat) (v : Value) (m : Machine) :
    assign name (.scope d) v m =
      match m.heap.assignAt? m.env d name.lexeme v with
      | none => .failed .stuck m
      | some heap => .done () { m with heap } := by
  rw [assign_scope, Heap.assignAt?]
  cases m.heap.ancestor? d m.env <;> rfl

end Lox.Run
