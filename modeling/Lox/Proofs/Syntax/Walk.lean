import Lox.Proofs.Syntax.Address
import Lox.Syntax.Traversal
import Mathlib.Data.List.Basic

/-!
# Traversals with addresses

A traversal again, in which each step says where in the program it is. Without the addresses it is
the traversal (`Program.Part.map_visit_walk`). With them it can be said what a traversal meets:
every node that is in no node turned down, once, and in the order of the source, and it leaves those
that it did not turn down behind all that is in them (`Program.traversal_walk`).
-/

namespace Lox

namespace Address

variable {a b c : Address}

/-- One part is in an earlier child of a part around both than another is. -/
def Earlier (c a : Address) : Prop := ∃ b i j, i < j ∧ i :: b <:+ c ∧ j :: b <:+ a

private theorem Earlier.before (h : Earlier c a) : Before c a := by
  obtain ⟨b, i, j, hlt, hc, ha⟩ := h
  exact .earlier hlt hc ha

/-- What is in an earlier child is not around what is in a later one. -/
theorem Earlier.not_suffix (h : Earlier c a) : ¬ c <:+ a := by
  obtain ⟨b, i, j, hlt, hc, ha⟩ := h
  exact fun hca ↦ Nat.ne_of_lt hlt (cons_inj_of_suffix (hc.trans hca) ha)

/-- The order of a traversal is that of the ways from the whole program. -/
theorem Before.lt (h : Before c a) : c.reverse < a.reverse := by
  cases h with
  | around h =>
    obtain ⟨⟨t, rfl⟩, hne⟩ := h
    rw [List.reverse_append]
    have hnil : t.reverse ≠ [] := by
      rintro hnil
      rw [List.reverse_eq_nil_iff.mp hnil] at hne
      exact hne rfl
    obtain ⟨i, t', ht⟩ := List.exists_cons_of_ne_nil hnil
    have hlt : c.reverse ++ [] < c.reverse ++ t.reverse := by
      rw [ht]
      exact List.append_left_lt (List.nil_lt_cons i t')
    rwa [List.append_nil] at hlt
  | @earlier b _ _ i j hlt hc ha =>
    obtain ⟨t, rfl⟩ := hc
    obtain ⟨t', rfl⟩ := ha
    rw [List.reverse_append, List.reverse_append, List.reverse_cons, List.reverse_cons,
      List.append_assoc, List.append_assoc]
    exact List.append_left_lt (List.cons_lt_cons_iff.mpr (.inl hlt))

/-- What is on the way from a part to another is in the child in which the other is. -/
theorem suffix_cons_of_encloses {r : Address} {i : Nat} (h : r.Encloses c) (hc : c <:+ a)
    (ha : i :: r <:+ a) : i :: r <:+ c := by
  refine List.suffix_of_suffix_length_le ha hc ?_
  exact Nat.lt_of_le_of_ne h.1.length_le fun hlen ↦ h.2 (h.1.eq_of_length hlen)

/-- What is in a part is in one of its children. -/
theorem exists_suffix_of_encloses (h : c.Encloses a) : ∃ i, i :: c <:+ a := by
  obtain ⟨⟨t, rfl⟩, hne⟩ := h
  rcases List.eq_nil_or_concat t with rfl | ⟨t, i, rfl⟩
  · exact absurd rfl hne
  · exact ⟨i, t, by simp⟩

/-- Of two parts, only one comes before the other. -/
theorem Before.asymm (h : Before c a) : ¬ Before a c := fun h' ↦ List.lt_asymm h.lt h'.lt

end Address

/-! ## Steps with addresses -/

/-- A step of a traversal, with the address of the node that it enters or leaves. -/
inductive Event (β : Type) where
  | enter (a : Address) (node : Node β)
  | leave (a : Address)

namespace Event

variable {β : Type}

/-- Where a step is. -/
def address : Event β → Address
  | .enter a _ => a
  | .leave a => a

/-- The step without its address. -/
def visit : Event β → Visit β
  | .enter _ node => .enter node
  | .leave _ => .leave

/-- One step comes before another: nodes are entered in the order of the source, and a node is left
behind all that is in it, before the next one is entered. -/
def Precedes : Event β → Event β → Prop
  | .enter c _, .enter a _ => c.Before a
  | .enter c _, .leave a => c.Before a ∨ a <:+ c
  | .leave c, .enter a _ => c.Earlier a
  | .leave c, .leave a => c.Earlier a ∨ a.Encloses c

private theorem precedes_of_earlier {x y : Event β} (h : x.address.Earlier y.address) :
    x.Precedes y := by
  cases x <;> cases y
  · exact h.before
  · exact .inl h.before
  · exact h
  · exact .inl h

private theorem Precedes.asymm {x y : Event β} (h : x.Precedes y) : ¬ y.Precedes x := by
  intro h'
  cases x with
  | enter c node =>
    cases y with
    | enter a node' => exact Address.Before.asymm h h'
    | leave a =>
      rcases h with h | h
      · exact h.asymm (Address.Earlier.before h')
      · exact Address.Earlier.not_suffix h' h
  | leave c =>
    cases y with
    | enter a node =>
      rcases h' with h' | h'
      · exact h'.asymm (Address.Earlier.before h)
      · exact Address.Earlier.not_suffix h h'
    | leave a =>
      rcases h with h | h <;> rcases h' with h' | h'
      · exact h.before.asymm h'.before
      · exact h.not_suffix h'.1
      · exact h'.not_suffix h.1
      · exact (Address.Before.around h).asymm (.around h')

/-- Enters a node, and goes through what is in it if it is wanted. -/
def around (wanted : Address → Node β → Bool) (a : Address) (node : Node β)
    (inner : List (Event β)) : List (Event β) :=
  if wanted a node then .enter a node :: (inner ++ [.leave a]) else [.enter a node]

/-- The steps fit into each other like brackets: nodes that are not turned down are left at the
level at which they are entered, and the others are not left. -/
inductive Balanced (wanted : Address → Node β → Bool) : List (Event β) → Prop where
  | nil : Balanced wanted []
  | turnedDown {a : Address} {node : Node β} (h : wanted a node = false) :
    Balanced wanted [.enter a node]
  | node {a : Address} {node : Node β} {inner : List (Event β)} (h : wanted a node = true)
    (hinner : Balanced wanted inner) : Balanced wanted (.enter a node :: (inner ++ [.leave a]))
  | append {xs ys : List (Event β)} (hx : Balanced wanted xs) (hy : Balanced wanted ys) :
    Balanced wanted (xs ++ ys)

private theorem Balanced.flatMap {α : Type} {wanted : Address → Node β → Bool}
    {f : α → List (Event β)} {xs : List α} (h : ∀ x ∈ xs, Balanced wanted (f x)) :
    Balanced wanted (xs.flatMap f) := by
  induction xs with
  | nil => exact .nil
  | cons x xs ih =>
    exact .append (h x List.mem_cons_self) (ih fun y hy ↦ h y (List.mem_cons_of_mem x hy))

end Event

namespace Program

variable {β : Type}

/-- The node that a part is. The whole program and the parameters of functions are none. -/
def Part.node? : Part β → Option (Node β)
  | .stmt s => some (.stmt s)
  | .expr e => some (.expr e)
  | _ => none

/-- The node of a program at an address. -/
def node? (p : Program β) (a : Address) : Option (Node β) := (p.part? a).bind Part.node?

section Children

variable {p : Program β} {r : Address} {part : Part β}

private theorem node?_eq (hpart : p.part? r = some part) : p.node? r = part.node? := by
  rw [node?, hpart]
  rfl

/-- A child of the part at an address has an address, too. -/
theorem part?_child (hpart : p.part? r = some part) {i : Nat} {c : Part β}
    (hc : part.children[i]? = some c) : p.part? (i :: r) = some c := by
  rw [part?, hpart]
  exact hc

end Children

namespace Part

/-- The traversal of the part at an address, by a visitor that may turn down nodes for what they are
or for where they are. -/
def walk (wanted : Address → Node β → Bool) (a : Address) (part : Part β) : List (Event β) :=
  let inner := part.children.attach.zipIdx.flatMap fun x ↦ walk wanted (x.2 :: a) x.1.1
  part.node?.elim inner fun node ↦ Event.around wanted a node inner
termination_by part
decreasing_by exact sizeOf_lt_of_mem_children x.1.2

/-- The traversals of what a part directly consists of. -/
def walkInner (wanted : Address → Node β → Bool) (a : Address) (part : Part β) : List (Event β) :=
  part.children.zipIdx.flatMap fun x ↦ walk wanted (x.2 :: a) x.1

/-- A traversal enters the node that a part is, if it is one, and goes through its children. -/
theorem walk_eq (wanted : Address → Node β → Bool) (a : Address) (part : Part β) :
    part.walk wanted a = part.node?.elim (part.walkInner wanted a) fun node ↦
      Event.around wanted a node (part.walkInner wanted a) := by
  have hinner : (part.children.attach.zipIdx.flatMap fun x ↦ walk wanted (x.2 :: a) x.1.1) =
      part.walkInner wanted a := by
    rw [walkInner]
    conv_rhs => rw [← List.attach_map_subtype_val part.children, List.zipIdx_map, List.flatMap_map]
    rfl
  rw [walk]
  exact congrArg
    (fun inner ↦ part.node?.elim inner fun node ↦ Event.around wanted a node inner) hinner

/-! ## Leaving the addresses out -/

/-- The traversal of a part without addresses. -/
def visits (wanted : Node β → Bool) : Part β → List (Visit β)
  | .program p => Visit.ofStmts wanted p
  | .stmt s => Visit.ofStmt wanted s
  | .expr e => Visit.ofExpr wanted e
  | .param _ => []

private theorem visits_exprs (wanted : Node β → Bool) (es : List (Expr β)) :
    Visit.ofExprs wanted es = (es.map expr).flatMap (visits wanted) := by
  induction es with
  | nil => rfl
  | cons e es ih => exact congrArg (_ ++ ·) ih

private theorem visits_stmts (wanted : Node β → Bool) (ss : List (Stmt β)) :
    Visit.ofStmts wanted ss = (ss.map stmt).flatMap (visits wanted) := by
  induction ss with
  | nil => rfl
  | cons s ss ih => exact congrArg (_ ++ ·) ih

/-- A traversal goes through what a part directly consists of, from left to right. -/
theorem visits_eq (wanted : Node β → Bool) (part : Part β) :
    part.visits wanted = part.node?.elim (part.children.flatMap (visits wanted)) fun node ↦
      Visit.around wanted node (part.children.flatMap (visits wanted)) := by
  cases part with
  | program p => exact visits_stmts wanted p
  | param t => rfl
  | expr e =>
    cases e <;> simp [visits, node?, children, Visit.ofExpr, visits_exprs]
  | stmt s =>
    cases s with
    | var name init => cases init <;> simp [visits, node?, children, Visit.ofStmt]
    | ifElse t test yes no => cases no <;> simp [visits, node?, children, Visit.ofStmt]
    | «return» t result => cases result <;> simp [visits, node?, children, Visit.ofStmt]
    | function name params body =>
      have hparams : (params.map param).flatMap (visits wanted) = [] := by
        simp [List.flatMap_map, visits]
      simp [visits, node?, children, Visit.ofStmt, visits_stmts, hparams]
    | _ => simp [visits, node?, children, Visit.ofStmt, visits_stmts]

private theorem fst_mem_of_mem_zipIdx {cs : List (Part β)} {k : Nat} {x : Part β × Nat}
    (h : x ∈ cs.zipIdx k) : x.1 ∈ cs := by
  rw [List.fst_eq_of_mem_zipIdx h]
  exact List.getElem_mem _

/-- Without addresses, the traversal of a part is its traversal. -/
theorem map_visit_walk (wanted : Node β → Bool) (a : Address) (part : Part β) :
    (part.walk (fun _ ↦ wanted) a).map Event.visit = part.visits wanted := by
  induction part using induction generalizing a with
  | h part ih =>
    have hinner : (part.walkInner (fun _ ↦ wanted) a).map Event.visit =
        part.children.flatMap (visits wanted) := by
      rw [walkInner, List.map_flatMap]
      conv_rhs => rw [← List.zipIdx_map_fst 0 part.children, List.flatMap_map]
      exact List.flatMap_congr fun x hx ↦ ih x.1 (fst_mem_of_mem_zipIdx hx) (x.2 :: a)
    rw [walk_eq, visits_eq, ← hinner]
    cases part.node? with
    | none => rfl
    | some node =>
      simp only [Option.elim_some, Event.around, Visit.around]
      split
      · simp [Event.visit]
      · rfl

/-! ## What a traversal meets -/

section Steps

variable {wanted : Address → Node β → Bool} {r a : Address} {part : Part β} {node : Node β}

private theorem mem_walkInner {x : Event β} : x ∈ part.walkInner wanted r ↔
    ∃ i c, part.children[i]? = some c ∧ x ∈ walk wanted (i :: r) c := by
  simp only [walkInner, List.mem_flatMap, Prod.exists, List.mem_zipIdx_iff_getElem?]
  exact exists_comm

/-- What a part directly consists of is traversed unless the part is turned down. -/
theorem enter_mem_walk : .enter a node ∈ part.walk wanted r ↔
    (a = r ∧ part.node? = some node) ∨
      (∀ m, part.node? = some m → wanted r m = true) ∧ .enter a node ∈ part.walkInner wanted r := by
  rw [walk_eq]
  cases part.node? with
  | none => simp
  | some m =>
    cases hw : wanted r m <;> simp [Event.around, hw, eq_comm (a := m)]

private theorem leave_mem_walk : .leave a ∈ part.walk wanted r ↔
    (∀ m, part.node? = some m → wanted r m = true) ∧
      (a = r ∧ part.node?.isSome ∨ .leave a ∈ part.walkInner wanted r) := by
  rw [walk_eq]
  cases part.node? with
  | none => simp
  | some m =>
    cases hw : wanted r m <;> simp [Event.around, hw, or_comm]

/-- All steps of a traversal are in the part. -/
theorem suffix_of_mem_walk {x : Event β} (hx : x ∈ part.walk wanted r) : r <:+ x.address := by
  induction part using induction generalizing r with
  | h part ih =>
    have hinner : x ∈ part.walkInner wanted r → r <:+ x.address := by
      intro hx
      obtain ⟨i, c, hc, hx⟩ := mem_walkInner.mp hx
      exact (List.suffix_cons i r).trans (ih c (List.mem_of_getElem? hc) hx)
    cases x with
    | enter a node =>
      rcases enter_mem_walk.mp hx with ⟨rfl, -⟩ | ⟨-, hx⟩
      · exact List.suffix_refl _
      · exact hinner hx
    | leave a =>
      rcases (leave_mem_walk.mp hx).2 with ⟨rfl, -⟩ | hx
      · exact List.suffix_refl _
      · exact hinner hx

private theorem encloses_of_mem_walkInner {x : Event β} (hx : x ∈ part.walkInner wanted r) :
    r.Encloses x.address := by
  obtain ⟨i, c, -, hx⟩ := mem_walkInner.mp hx
  exact Address.encloses_of_suffix_cons (suffix_of_mem_walk hx)

/-- Exactly the nodes that are not turned down are left. -/
theorem leave_mem_walk_iff : .leave a ∈ part.walk wanted r ↔
    ∃ node, .enter a node ∈ part.walk wanted r ∧ wanted a node = true := by
  induction part using induction generalizing r with
  | h part ih =>
    have hinner : .leave a ∈ part.walkInner wanted r ↔
        ∃ node, .enter a node ∈ part.walkInner wanted r ∧ wanted a node = true := by
      constructor
      · intro h
        obtain ⟨i, c, hc, h⟩ := mem_walkInner.mp h
        obtain ⟨node, hnode, hw⟩ := (ih c (List.mem_of_getElem? hc)).mp h
        exact ⟨node, mem_walkInner.mpr ⟨i, c, hc, hnode⟩, hw⟩
      · rintro ⟨node, h, hw⟩
        obtain ⟨i, c, hc, h⟩ := mem_walkInner.mp h
        exact mem_walkInner.mpr ⟨i, c, hc, (ih c (List.mem_of_getElem? hc)).mpr ⟨node, h, hw⟩⟩
    rw [leave_mem_walk]
    constructor
    · rintro ⟨hown, ⟨rfl, hnode⟩ | h⟩
      · obtain ⟨node, hnode⟩ := Option.isSome_iff_exists.mp hnode
        exact ⟨node, enter_mem_walk.mpr (.inl ⟨rfl, hnode⟩), hown node hnode⟩
      · obtain ⟨node, h, hw⟩ := hinner.mp h
        exact ⟨node, enter_mem_walk.mpr (.inr ⟨hown, h⟩), hw⟩
    · rintro ⟨node, h, hw⟩
      rcases enter_mem_walk.mp h with ⟨rfl, hnode⟩ | ⟨hown, h⟩
      · refine ⟨fun m hm ↦ ?_, .inl ⟨rfl, Option.isSome_iff_exists.mpr ⟨node, hnode⟩⟩⟩
        rwa [Option.some.inj (hm.symm.trans hnode)]
      · exact ⟨hown, .inr (hinner.mpr ⟨node, h, hw⟩)⟩

/-- The nodes that are entered are those that are in no node turned down. -/
theorem enter_mem_walk_iff {p : Program β} (hpart : p.part? r = some part) :
    .enter a node ∈ part.walk wanted r ↔ r <:+ a ∧ p.node? a = some node ∧
      ∀ (c : Address) (m : Node β), r <:+ c → c.Encloses a → p.node? c = some m →
        wanted c m = true := by
  induction part using induction generalizing r with
  | h part ih =>
    have hnode := node?_eq hpart
    rw [enter_mem_walk]
    constructor
    · rintro (⟨rfl, h⟩ | ⟨hown, h⟩)
      · exact ⟨List.suffix_refl a, hnode.trans h, fun c m hc hca _ ↦
          absurd (hca.1.eq_of_length (Nat.le_antisymm hca.1.length_le hc.length_le)) hca.2⟩
      · obtain ⟨i, c, hc, h⟩ := mem_walkInner.mp h
        obtain ⟨ha, hnode', hwanted⟩ := (ih c (List.mem_of_getElem? hc) (part?_child hpart hc)).mp h
        refine ⟨(List.suffix_cons i r).trans ha, hnode', fun c m hrc hca hm ↦ ?_⟩
        by_cases heq : c = r
        · subst heq
          exact hown m (hnode.symm.trans hm)
        · exact hwanted c m (Address.suffix_cons_of_encloses ⟨hrc, Ne.symm heq⟩ hca.1 ha) hca hm
    · rintro ⟨ha, hnode', hwanted⟩
      by_cases heq : a = r
      · exact .inl ⟨heq, hnode.symm.trans (heq ▸ hnode')⟩
      · -- The node is in the child on the way to it, and there is such a child as there is the
        -- node.
        have hra : r.Encloses a := ⟨ha, Ne.symm heq⟩
        obtain ⟨i, hi⟩ := Address.exists_suffix_of_encloses hra
        obtain ⟨part', hpart', -⟩ := Option.bind_eq_some_iff.mp hnode'
        obtain ⟨c, hc⟩ := Option.isSome_iff_exists.mp
          (isSome_part?_of_suffix hi (Option.isSome_iff_exists.mpr ⟨part', hpart'⟩))
        obtain ⟨_, hpart'', hc'⟩ := part?_cons hc
        obtain rfl := Option.some.inj (hpart''.symm.trans hpart)
        refine .inr ⟨fun m hm ↦ hwanted r m (List.suffix_refl r) hra (hnode.trans hm),
          mem_walkInner.mpr ⟨i, c, hc', (ih c (List.mem_of_getElem? hc') hc).mpr ⟨hi, hnode', ?_⟩⟩⟩
        exact fun c m hrc ↦ hwanted c m ((List.suffix_cons i r).trans hrc)

/-- The steps of a traversal come in their order. -/
theorem pairwise_walk (wanted : Address → Node β → Bool) (r : Address) (part : Part β) :
    (part.walk wanted r).Pairwise Event.Precedes := by
  induction part using induction generalizing r with
  | h part ih =>
    have hinner : (part.walkInner wanted r).Pairwise Event.Precedes := by
      refine List.pairwise_flatMap.mpr ⟨fun x hx ↦ ih x.1 (fst_mem_of_mem_zipIdx hx) _, ?_⟩
      refine List.pairwise_iff_getElem.mpr fun i j hi hj hlt x hx y hy ↦ ?_
      rw [List.getElem_zipIdx, Nat.zero_add] at hx hy
      exact Event.precedes_of_earlier
        ⟨r, i, j, hlt, suffix_of_mem_walk hx, suffix_of_mem_walk hy⟩
    rw [walk_eq]
    cases part.node? with
    | none => exact hinner
    | some node =>
      simp only [Option.elim_some, Event.around]
      split
      · refine List.pairwise_cons.mpr ⟨fun x hx ↦ ?_, List.pairwise_append.mpr
          ⟨hinner, List.pairwise_singleton _ _, fun x hx y hy ↦ ?_⟩⟩
        · rcases List.mem_append.mp hx with hx | hx
          · have hbefore := Address.Before.around (encloses_of_mem_walkInner hx)
            cases x with
            | enter a node => exact hbefore
            | leave a => exact .inl hbefore
          · rw [List.mem_singleton.mp hx]
            exact .inr (List.suffix_refl r)
        · rw [List.mem_singleton.mp hy]
          have hencloses := encloses_of_mem_walkInner hx
          cases x with
          | enter a node => exact .inr hencloses.1
          | leave a => exact .inr hencloses
      · exact List.pairwise_singleton _ _

private theorem balanced_walk (wanted : Address → Node β → Bool) (r : Address) (part : Part β) :
    Event.Balanced wanted (part.walk wanted r) := by
  induction part using induction generalizing r with
  | h part ih =>
    have hinner : Event.Balanced wanted (part.walkInner wanted r) :=
      .flatMap fun x hx ↦ ih x.1 (fst_mem_of_mem_zipIdx hx) _
    rw [walk_eq]
    cases part.node? with
    | none => exact hinner
    | some node =>
      simp only [Option.elim_some, Event.around]
      split
      · exact .node ‹_› hinner
      · exact .turnedDown (Bool.eq_false_iff.mpr ‹_›)

end Steps

end Part

/-- What a traversal of the part of a program at an address goes through. -/
structure Traversal (p : Program β) (wanted : Address → Node β → Bool) (r : Address)
    (events : List (Event β)) : Prop where
  /-- The nodes that are entered are those of the part that are in no node turned down. -/
  entered : ∀ a node, .enter a node ∈ events ↔ r <:+ a ∧ p.node? a = some node ∧
    ∀ (c : Address) (m : Node β), r <:+ c → c.Encloses a → p.node? c = some m → wanted c m = true
  /-- Those of them that are not turned down are left. -/
  left : ∀ a, .leave a ∈ events ↔ ∃ node, .enter a node ∈ events ∧ wanted a node = true
  /-- They are entered in the order of the source, and left behind all that is in them and ahead of
  what follows. -/
  ordered : ∀ (i j : Nat) (x y : Event β), events[i]? = some x → events[j]? = some y →
    (i < j ↔ x.Precedes y)
  /-- Nothing happens twice. -/
  once : events.Nodup
  /-- The steps fit into each other. -/
  balanced : Event.Balanced wanted events

/-- The traversal of a part goes through what it should. -/
theorem traversal_walk (wanted : Address → Node β → Bool) {p : Program β} {r : Address}
    {part : Part β} (hpart : p.part? r = some part) :
    Traversal p wanted r (part.walk wanted r) where
  entered _ _ := Part.enter_mem_walk_iff hpart
  left _ := Part.leave_mem_walk_iff
  ordered i j x y hx hy := by
    have hpairwise := List.pairwise_iff_getElem.mp (part.pairwise_walk wanted r)
    obtain ⟨hi, rfl⟩ := List.getElem?_eq_some_iff.mp hx
    obtain ⟨hj, rfl⟩ := List.getElem?_eq_some_iff.mp hy
    refine ⟨hpairwise i j hi hj, fun h ↦ ?_⟩
    rcases Nat.lt_trichotomy i j with hlt | rfl | hlt
    · exact hlt
    · exact absurd h h.asymm
    · exact absurd (hpairwise j i hj hi hlt) h.asymm
  once := (part.pairwise_walk wanted r).imp fun h heq ↦ (heq ▸ h).asymm (heq ▸ h)
  balanced := part.balanced_walk wanted r

end Program
end Lox
