import Lox.Proofs.Forest

/-!
# Environments around the global one

In the heap of an interpreter all ways outwards lead to the global environment (`Heap.Rooted`). The
loops that search outwards are told here without a bound, by what they come to in finitely many
steps (`Heap.Outwards`, `Heap.Search`): where the ways end, they come to just what `Heap.chain` and
`Heap.owner?` say (`Heap.Rooted.leadsOut`).
-/

namespace Lox.Heap

/-- The global environment is the only one that none encloses, and every other one is younger than
the one that encloses it. -/
structure Rooted (h : Heap) : Prop where
  global : Machine.globals < h.nextId
  outermost : h.enclosing? Machine.globals = none
  inner : ∀ e < h.nextId, e ≠ Machine.globals → ∃ p < e, h.enclosing? e = some p

/-- The environments from one outwards are these, and they come to an end. -/
inductive Outwards (h : Heap) : EnvId → List EnvId → Prop where
  | last {e : EnvId} (hn : h.enclosing? e = none) : Outwards h e [e]
  | step {e p : EnvId} {path : List EnvId} (hp : h.enclosing? e = some p)
    (hpath : Outwards h p path) : Outwards h e (e :: path)

/-- A search outwards for an environment that binds a name, from one environment or from beyond the
last, comes to an end with this result. -/
inductive Search (h : Heap) (x : Bytes) : Option EnvId → Option EnvId → Prop where
  | nowhere : Search h x none none
  | here {e : EnvId} (hx : (h.lookup e x).isSome) : Search h x (some e) (some e)
  | outwards {e : EnvId} {found : Option EnvId} (hx : h.lookup e x = none)
    (hrest : Search h x (h.enclosing? e) found) : Search h x (some e) found

/-- From an environment there is a way outwards that ends in the global environment without passing
any environment twice, and all that is done along it comes to an end. -/
structure LeadsOut (h : Heap) (e : EnvId) : Prop where
  outwards : h.Outwards e (h.chain e)
  nodup : (h.chain e).Nodup
  ends : (h.chain e).getLast? = some Machine.globals
  ancestor : ∀ d, h.ancestor? d e = (h.chain e)[d]?
  search : ∀ x found, h.Search x (some e) found ↔ found = h.owner? e x
  /-- A value is read where the search ends, and written there. -/
  get : ∀ x, h.get? e x = (h.owner? e x).bind (h.lookup · x)
  assign : ∀ x v, h.assign? e x v = (h.owner? e x).map (h.define · x v)

/-- A heap at a later time, in which no environment that existed is linked anew. -/
structure Steady (h h' : Heap) : Prop extends Later h h' where
  unenclosed : ∀ e < h.nextId, h.enclosing? e = none → h'.enclosing? e = none

section Ways

variable {h : Heap} {e : EnvId} {path : List EnvId} {x : Bytes}

private theorem Descends.outwards_chain (hd : h.Descends) (e : EnvId) :
    h.Outwards e (h.chain e) := by
  induction e using Nat.strongRecOn with
  | ind e ih =>
    rw [chain]
    cases hp : h.enclosing? e with
    | none => exact .last hp
    | some p =>
      simp only [hd e p hp, if_true]
      exact .step hp (ih p (hd e p hp))

/-- On the way outwards from an environment there are only older ones. -/
theorem Outwards.le (hw : h.Outwards e path) (hd : h.Descends) : ∀ t ∈ path, t ≤ e := by
  induction hw with
  | last hn =>
    intro t ht
    exact Nat.le_of_eq (List.mem_singleton.mp ht)
  | step hp _ ih =>
    intro t ht
    rcases List.mem_cons.mp ht with rfl | ht
    · exact Nat.le_refl t
    · exact Nat.le_of_lt (Nat.lt_of_le_of_lt (ih t ht) (hd _ _ hp))

private theorem Outwards.nodup (hw : h.Outwards e path) (hd : h.Descends) : path.Nodup := by
  induction hw with
  | last hn => exact List.pairwise_singleton _ _
  | step hp hpath ih =>
    refine List.nodup_cons.mpr ⟨fun hmem ↦ ?_, ih⟩
    exact absurd (hpath.le hd _ hmem) (Nat.not_le.mpr (hd _ _ hp))

/-- The way outwards ends where there is nothing further out. -/
theorem Outwards.exists_last (hw : h.Outwards e path) :
    ∃ t, path.getLast? = some t ∧ h.enclosing? t = none := by
  induction hw with
  | @last e hn => exact ⟨e, rfl, hn⟩
  | @step e p path hp hpath ih =>
    obtain ⟨t, ht, hn⟩ := ih
    refine ⟨t, ?_, hn⟩
    rw [List.getLast?_cons, ht]
    rfl

/-- A search goes along the way outwards. -/
theorem Outwards.search (hw : h.Outwards e path) (x : Bytes) :
    h.Search x (some e) (path.find? fun t ↦ (h.lookup t x).isSome) := by
  induction hw with
  | @last e hn =>
    cases hx : h.lookup e x with
    | none =>
      rw [List.find?_cons_of_neg (by simp [hx])]
      exact .outwards hx (hn ▸ .nowhere)
    | some v =>
      rw [List.find?_cons_of_pos (by simp [hx])]
      exact .here (by simp [hx])
  | @step e p path hp hpath ih =>
    cases hx : h.lookup e x with
    | none =>
      rw [List.find?_cons_of_neg (by simp [hx])]
      exact .outwards hx (hp ▸ ih)
    | some v =>
      rw [List.find?_cons_of_pos (by simp [hx])]
      exact .here (by simp [hx])

/-- A search has one result. -/
theorem Search.unique {start found found' : Option EnvId} (hs : h.Search x start found)
    (hs' : h.Search x start found') : found = found' := by
  induction hs with
  | nowhere =>
    cases hs'
    rfl
  | here hx =>
    cases hs' with
    | here => rfl
    | outwards hx' => simp [hx'] at hx
  | outwards hx _ ih =>
    cases hs' with
    | here hx' => simp [hx] at hx'
    | outwards _ hrest => exact ih hrest

end Ways

namespace Rooted

variable {h : Heap}

/-- In a heap with a root, environments lie within older ones. -/
theorem descends (hr : h.Rooted) : h.Descends := by
  intro e p hp
  have hne : e ≠ Machine.globals := by
    rintro rfl
    rw [hr.outermost] at hp
    cases hp
  obtain ⟨q, hlt, hq⟩ := hr.inner e (lt_nextId_of_enclosing? hp) hne
  rw [hp] at hq
  cases hq
  exact hlt

/-- All that is done along a way outwards comes to an end, in the global environment at last. -/
theorem leadsOut (hr : h.Rooted) {e : EnvId} (he : e < h.nextId) : h.LeadsOut e := by
  have hd := hr.descends
  have hw := hd.outwards_chain e
  refine ⟨hw, hw.nodup hd, ?_, fun d ↦ (hd.getElem?_chain e d).symm, fun x found ↦ ?_,
    h.get?_eq_bind e, fun _ _ ↦ rfl⟩
  · obtain ⟨t, ht, hn⟩ := hw.exists_last
    have hle : t ≤ e := hw.le hd t (List.mem_of_getLast? ht)
    by_cases hne : t = Machine.globals
    · rw [ht, hne]
    · obtain ⟨p, -, hp⟩ := hr.inner t (Nat.lt_of_le_of_lt hle he) hne
      rw [hn] at hp
      cases hp
  · constructor
    · exact fun hs ↦ hs.unique (hw.search x)
    · rintro rfl
      exact hw.search x

/-- A definition leaves the root. -/
theorem define (hr : h.Rooted) (e : EnvId) (x : Bytes) (v : Value) : (h.define e x v).Rooted where
  global := by simpa using hr.global
  outermost := by simpa using hr.outermost
  inner e' he' hne := by
    rw [nextId_define] at he'
    simpa using hr.inner e' he' hne

/-- A new environment is enclosed by one that exists. -/
theorem push (hr : h.Rooted) {p : EnvId} (hp : p < h.nextId) : (h.push (some p)).Rooted where
  global := by
    rw [nextId_push]
    exact Nat.lt_succ_of_lt hr.global
  outermost := by
    rw [enclosing?_push, if_neg (Nat.ne_of_lt hr.global)]
    exact hr.outermost
  inner e he hne := by
    rw [enclosing?_push]
    rw [nextId_push] at he
    by_cases heq : e = h.nextId
    · exact ⟨p, heq ▸ hp, if_pos heq⟩
    · rw [if_neg heq]
      exact hr.inner e (Nat.lt_of_le_of_ne (Nat.le_of_lt_succ he) heq) hne

end Rooted

namespace Steady

/-- No environment is linked anew in a heap that stays as it is. -/
theorem refl (h : Heap) : Steady h h := ⟨.refl h, fun _ _ hn ↦ hn⟩

/-- Steadiness is transitive. -/
theorem trans {h₁ h₂ h₃ : Heap} (hs : Steady h₁ h₂) (hs' : Steady h₂ h₃) : Steady h₁ h₃ := by
  refine ⟨hs.toLater.trans hs'.toLater, fun e he hn ↦ ?_⟩
  exact hs'.unenclosed e (Nat.lt_of_lt_of_le he hs.nextId) (hs.unenclosed e he hn)

/-- A definition links no environment anew. -/
theorem define (h : Heap) (e : EnvId) (x : Bytes) (v : Value) : Steady h (h.define e x v) :=
  ⟨.define h e x v, fun e' _ hn ↦ by rwa [enclosing?_define]⟩

/-- With an environment added, no older one is linked anew. -/
theorem push (h : Heap) (p : Option EnvId) : Steady h (h.push p) :=
  ⟨.push h p, fun e he hn ↦ by rwa [enclosing?_push, if_neg (Nat.ne_of_lt he)]⟩

end Steady
end Lox.Heap
