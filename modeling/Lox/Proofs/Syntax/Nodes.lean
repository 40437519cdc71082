import Lox.Syntax.Basic
import Mathlib.Data.List.Range

/-!
# Identities of nodes

What a tree knows of its uses of variables can be kept apart from it: each use gets an identity, and
a table says what is known of it. Identities are given out in order, an assignment before the uses
in its value, so that no two uses of a tree have the same one (`Expr.labels_numbered`). Looking them
up gives the tree back (`Expr.mapUses_numbered`), and does so in every table that has the same
entries for them (`Expr.mapUses_congr`).
-/

namespace Lox

/-- The identity of a use of a variable. -/
abbrev NodeId := Nat

mutual

/-- What is known of the uses of variables in an expression. -/
def Expr.labels {β : Type} : Expr β → List β
  | .literal _ _ => []
  | .grouping _ x => x.labels
  | .unary _ x => x.labels
  | .binary x _ y => x.labels ++ y.labels
  | .logical x _ y => x.labels ++ y.labels
  | .variable _ u => [u]
  | .assign _ u x => u :: x.labels
  | .call c _ args => c.labels ++ Expr.labelsAll args

/-- What is known of the uses of variables in several expressions. -/
def Expr.labelsAll {β : Type} : List (Expr β) → List β
  | [] => []
  | x :: xs => x.labels ++ Expr.labelsAll xs

end

mutual

/-- What is known of the uses of variables in a statement. -/
def Stmt.labels {β : Type} : Stmt β → List β
  | .expr e => e.labels
  | .print _ e => e.labels
  | .var _ none => []
  | .var _ (some e) => e.labels
  | .block _ body => Stmt.labelsAll body
  | .ifElse _ test yes none => test.labels ++ yes.labels
  | .ifElse _ test yes (some no) => test.labels ++ (yes.labels ++ no.labels)
  | .while _ test body => test.labels ++ body.labels
  | .function _ _ body => Stmt.labelsAll body
  | .return _ none => []
  | .return _ (some e) => e.labels
  | .branch _ => []

/-- What is known of the uses of variables in several statements. -/
def Stmt.labelsAll {β : Type} : List (Stmt β) → List β
  | [] => []
  | s :: ss => s.labels ++ Stmt.labelsAll ss

end

mutual

/-- An expression with identities for its uses of variables, from `n` on. -/
def Expr.numbered {β : Type} (n : NodeId) : Expr β → Expr NodeId
  | .literal t v => .literal t v
  | .grouping t x => .grouping t (x.numbered n)
  | .unary t x => .unary t (x.numbered n)
  | .binary x t y => .binary (x.numbered n) t (y.numbered (n + x.labels.length))
  | .logical x t y => .logical (x.numbered n) t (y.numbered (n + x.labels.length))
  | .variable t _ => .variable t n
  | .assign t _ x => .assign t n (x.numbered (n + 1))
  | .call c t args => .call (c.numbered n) t (Expr.numberedAll (n + c.labels.length) args)

/-- Several expressions with identities for their uses of variables, from `n` on. -/
def Expr.numberedAll {β : Type} (n : NodeId) : List (Expr β) → List (Expr NodeId)
  | [] => []
  | x :: xs => x.numbered n :: Expr.numberedAll (n + x.labels.length) xs

end

mutual

/-- A statement with identities for its uses of variables, from `n` on. -/
def Stmt.numbered {β : Type} (n : NodeId) : Stmt β → Stmt NodeId
  | .expr e => .expr (e.numbered n)
  | .print t e => .print t (e.numbered n)
  | .var t none => .var t none
  | .var t (some e) => .var t (some (e.numbered n))
  | .block t body => .block t (Stmt.numberedAll n body)
  | .ifElse t test yes none =>
    .ifElse t (test.numbered n) (yes.numbered (n + test.labels.length)) none
  | .ifElse t test yes (some no) =>
    .ifElse t (test.numbered n) (yes.numbered (n + test.labels.length))
      (some (no.numbered (n + test.labels.length + yes.labels.length)))
  | .while t test body => .while t (test.numbered n) (body.numbered (n + test.labels.length))
  | .function t ps body => .function t ps (Stmt.numberedAll n body)
  | .return t none => .return t none
  | .return t (some e) => .return t (some (e.numbered n))
  | .branch t => .branch t

/-- Several statements with identities for their uses of variables, from `n` on. -/
def Stmt.numberedAll {β : Type} (n : NodeId) : List (Stmt β) → List (Stmt NodeId)
  | [] => []
  | s :: ss => s.numbered n :: Stmt.numberedAll (n + s.labels.length) ss

end

section Numbered

variable {β : Type}

mutual

/-- The uses of an expression have the identities from `n` on, each its own. -/
theorem Expr.labels_numbered (n : NodeId) :
    (e : Expr β) → (e.numbered n).labels = List.range' n e.labels.length
  | .literal _ _ => rfl
  | .grouping _ x => x.labels_numbered n
  | .unary _ x => x.labels_numbered n
  | .binary x _ y | .logical x _ y => by
    simp only [Expr.numbered, Expr.labels, x.labels_numbered, y.labels_numbered,
      List.length_append, List.range'_append_1]
  | .variable _ _ => rfl
  | .assign _ _ x => by
    simp only [Expr.numbered, Expr.labels, x.labels_numbered, List.length_cons, List.range'_succ]
  | .call c _ args => by
    simp only [Expr.numbered, Expr.labels, c.labels_numbered, Expr.labelsAll_numbered _ args,
      List.length_append, List.range'_append_1]

private theorem Expr.labelsAll_numbered (n : NodeId) : (es : List (Expr β)) →
    Expr.labelsAll (Expr.numberedAll n es) = List.range' n (Expr.labelsAll es).length
  | [] => rfl
  | e :: es => by
    simp only [Expr.numberedAll, Expr.labelsAll, e.labels_numbered, Expr.labelsAll_numbered _ es,
      List.length_append, List.range'_append_1]

end

mutual

/-- The uses of a statement have the identities from `n` on, each its own. -/
theorem Stmt.labels_numbered (n : NodeId) :
    (s : Stmt β) → (s.numbered n).labels = List.range' n s.labels.length
  | .expr e => e.labels_numbered n
  | .print _ e => e.labels_numbered n
  | .var _ none => rfl
  | .var _ (some e) => e.labels_numbered n
  | .block _ body => Stmt.labelsAll_numbered n body
  | .ifElse _ test yes none => by
    simp only [Stmt.numbered, Stmt.labels, test.labels_numbered, yes.labels_numbered,
      List.length_append, List.range'_append_1]
  | .ifElse _ test yes (some no) => by
    simp only [Stmt.numbered, Stmt.labels, test.labels_numbered, yes.labels_numbered,
      no.labels_numbered, List.length_append, List.range'_append_1]
  | .while _ test body => by
    simp only [Stmt.numbered, Stmt.labels, test.labels_numbered, body.labels_numbered,
      List.length_append, List.range'_append_1]
  | .function _ _ body => Stmt.labelsAll_numbered n body
  | .return _ none => rfl
  | .return _ (some e) => e.labels_numbered n
  | .branch _ => rfl

/-- The identities in numbered statements are those from `n` on, in order. -/
theorem Stmt.labelsAll_numbered (n : NodeId) : (ss : List (Stmt β)) →
    Stmt.labelsAll (Stmt.numberedAll n ss) = List.range' n (Stmt.labelsAll ss).length
  | [] => rfl
  | s :: ss => by
    simp only [Stmt.numberedAll, Stmt.labelsAll, s.labels_numbered, Stmt.labelsAll_numbered _ ss,
      List.length_append, List.range'_append_1]

end

-- What is looked up for the identities of two lists is what is looked up for each of them.
private theorem map_range'_append {f : NodeId → β} {n : NodeId} {xs ys : List β}
    (h : (List.range' n (xs ++ ys).length).map f = xs ++ ys) :
    (List.range' n xs.length).map f = xs ∧
      (List.range' (n + xs.length) ys.length).map f = ys := by
  rw [List.length_append, ← List.range'_append_1, List.map_append] at h
  exact List.append_inj h (by simp)

mutual

/-- Looking up what is known of each use gives the expression back. -/
theorem Expr.mapUses_numbered {f : NodeId → β} {n : NodeId} : (e : Expr β) →
    (List.range' n e.labels.length).map f = e.labels → (e.numbered n).mapUses f = e
  | .literal _ _, _ => rfl
  | .grouping _ x, h => by rw [Expr.numbered, Expr.mapUses, x.mapUses_numbered h]
  | .unary _ x, h => by rw [Expr.numbered, Expr.mapUses, x.mapUses_numbered h]
  | .binary x _ y, h => by
    obtain ⟨hx, hy⟩ := map_range'_append h
    rw [Expr.numbered, Expr.mapUses, x.mapUses_numbered hx, y.mapUses_numbered hy]
  | .logical x _ y, h => by
    obtain ⟨hx, hy⟩ := map_range'_append h
    rw [Expr.numbered, Expr.mapUses, x.mapUses_numbered hx, y.mapUses_numbered hy]
  | .variable _ _, h => by
    rw [Expr.numbered, Expr.mapUses, (List.cons.inj h).1]
  | .assign _ _ x, h => by
    obtain ⟨hu, hx⟩ := List.cons.inj h
    rw [Expr.numbered, Expr.mapUses, hu, x.mapUses_numbered hx]
  | .call c _ args, h => by
    obtain ⟨hc, hargs⟩ := map_range'_append h
    rw [Expr.numbered, Expr.mapUses, c.mapUses_numbered hc, Expr.mapUses_numberedAll args hargs]

private theorem Expr.mapUses_numberedAll {f : NodeId → β} {n : NodeId} : (es : List (Expr β)) →
    (List.range' n (Expr.labelsAll es).length).map f = Expr.labelsAll es →
      Expr.mapUsesList f (Expr.numberedAll n es) = es
  | [], _ => rfl
  | e :: es, h => by
    obtain ⟨he, hes⟩ := map_range'_append h
    rw [Expr.numberedAll, Expr.mapUsesList, e.mapUses_numbered he, Expr.mapUses_numberedAll es hes]

end

mutual

/-- Looking up what is known of each use gives the statement back. -/
theorem Stmt.mapUses_numbered {f : NodeId → β} {n : NodeId} : (s : Stmt β) →
    (List.range' n s.labels.length).map f = s.labels → (s.numbered n).mapUses f = s
  | .expr e, h => by rw [Stmt.numbered, Stmt.mapUses, e.mapUses_numbered h]
  | .print _ e, h => by rw [Stmt.numbered, Stmt.mapUses, e.mapUses_numbered h]
  | .var _ none, _ => rfl
  | .var _ (some e), h => by rw [Stmt.numbered, Stmt.mapUses, e.mapUses_numbered h]
  | .block _ body, h => by rw [Stmt.numbered, Stmt.mapUses, Stmt.mapUses_numberedAll body h]
  | .ifElse _ test yes none, h => by
    obtain ⟨htest, hyes⟩ := map_range'_append h
    rw [Stmt.numbered, Stmt.mapUses, test.mapUses_numbered htest, yes.mapUses_numbered hyes]
  | .ifElse _ test yes (some no), h => by
    obtain ⟨htest, hrest⟩ := map_range'_append h
    obtain ⟨hyes, hno⟩ := map_range'_append hrest
    rw [Stmt.numbered, Stmt.mapUses, test.mapUses_numbered htest, yes.mapUses_numbered hyes,
      no.mapUses_numbered hno]
  | .while _ test body, h => by
    obtain ⟨htest, hbody⟩ := map_range'_append h
    rw [Stmt.numbered, Stmt.mapUses, test.mapUses_numbered htest, body.mapUses_numbered hbody]
  | .function _ _ body, h => by rw [Stmt.numbered, Stmt.mapUses, Stmt.mapUses_numberedAll body h]
  | .return _ none, _ => rfl
  | .return _ (some e), h => by rw [Stmt.numbered, Stmt.mapUses, e.mapUses_numbered h]
  | .branch _, _ => rfl

/-- To look up the identities of numbered statements restores what they stand for. -/
theorem Stmt.mapUses_numberedAll {f : NodeId → β} {n : NodeId} : (ss : List (Stmt β)) →
    (List.range' n (Stmt.labelsAll ss).length).map f = Stmt.labelsAll ss →
      Stmt.mapUsesList f (Stmt.numberedAll n ss) = ss
  | [], _ => rfl
  | s :: ss, h => by
    obtain ⟨hs, hss⟩ := map_range'_append h
    rw [Stmt.numberedAll, Stmt.mapUsesList, s.mapUses_numbered hs, Stmt.mapUses_numberedAll ss hss]

end

end Numbered

section Congr

variable {β γ : Type} {f g : β → γ}

mutual

/-- Only what is known of its uses matters for what becomes of an expression. -/
theorem Expr.mapUses_congr : (e : Expr β) → (∀ u ∈ e.labels, f u = g u) → e.mapUses f = e.mapUses g
  | .literal _ _, _ => rfl
  | .grouping _ x, h => by rw [Expr.mapUses, Expr.mapUses, x.mapUses_congr h]
  | .unary _ x, h => by rw [Expr.mapUses, Expr.mapUses, x.mapUses_congr h]
  | .binary x _ y, h => by
    obtain ⟨hx, hy⟩ := List.forall_mem_append.mp h
    rw [Expr.mapUses, Expr.mapUses, x.mapUses_congr hx, y.mapUses_congr hy]
  | .logical x _ y, h => by
    obtain ⟨hx, hy⟩ := List.forall_mem_append.mp h
    rw [Expr.mapUses, Expr.mapUses, x.mapUses_congr hx, y.mapUses_congr hy]
  | .variable _ u, h => by
    rw [Expr.mapUses, Expr.mapUses, h u (List.mem_singleton_self u)]
  | .assign _ u x, h => by
    obtain ⟨hu, hx⟩ := List.forall_mem_cons.mp h
    rw [Expr.mapUses, Expr.mapUses, hu, x.mapUses_congr hx]
  | .call c _ args, h => by
    obtain ⟨hc, hargs⟩ := List.forall_mem_append.mp h
    rw [Expr.mapUses, Expr.mapUses, c.mapUses_congr hc, Expr.mapUsesList_congr args hargs]

private theorem Expr.mapUsesList_congr :
    (es : List (Expr β)) → (∀ u ∈ Expr.labelsAll es, f u = g u) →
    Expr.mapUsesList f es = Expr.mapUsesList g es
  | [], _ => rfl
  | e :: es, h => by
    obtain ⟨he, hes⟩ := List.forall_mem_append.mp h
    rw [Expr.mapUsesList, Expr.mapUsesList, e.mapUses_congr he, Expr.mapUsesList_congr es hes]

end

mutual

/-- Only what is known of its uses matters for what becomes of a statement. -/
theorem Stmt.mapUses_congr : (s : Stmt β) → (∀ u ∈ s.labels, f u = g u) → s.mapUses f = s.mapUses g
  | .expr e, h => by rw [Stmt.mapUses, Stmt.mapUses, e.mapUses_congr h]
  | .print _ e, h => by rw [Stmt.mapUses, Stmt.mapUses, e.mapUses_congr h]
  | .var _ none, _ => rfl
  | .var _ (some e), h => by rw [Stmt.mapUses, Stmt.mapUses, e.mapUses_congr h]
  | .block _ body, h => by rw [Stmt.mapUses, Stmt.mapUses, Stmt.mapUsesList_congr body h]
  | .ifElse _ test yes none, h => by
    obtain ⟨htest, hyes⟩ := List.forall_mem_append.mp h
    rw [Stmt.mapUses, Stmt.mapUses, test.mapUses_congr htest, yes.mapUses_congr hyes]
  | .ifElse _ test yes (some no), h => by
    obtain ⟨htest, hrest⟩ := List.forall_mem_append.mp h
    obtain ⟨hyes, hno⟩ := List.forall_mem_append.mp hrest
    rw [Stmt.mapUses, Stmt.mapUses, test.mapUses_congr htest, yes.mapUses_congr hyes,
      no.mapUses_congr hno]
  | .while _ test body, h => by
    obtain ⟨htest, hbody⟩ := List.forall_mem_append.mp h
    rw [Stmt.mapUses, Stmt.mapUses, test.mapUses_congr htest, body.mapUses_congr hbody]
  | .function _ _ body, h => by rw [Stmt.mapUses, Stmt.mapUses, Stmt.mapUsesList_congr body h]
  | .return _ none, _ => rfl
  | .return _ (some e), h => by rw [Stmt.mapUses, Stmt.mapUses, e.mapUses_congr h]
  | .branch _, _ => rfl

/-- Functions that agree on what is in statements make the same of them. -/
theorem Stmt.mapUsesList_congr : (ss : List (Stmt β)) → (∀ u ∈ Stmt.labelsAll ss, f u = g u) →
    Stmt.mapUsesList f ss = Stmt.mapUsesList g ss
  | [], _ => rfl
  | s :: ss, h => by
    obtain ⟨hs, hss⟩ := List.forall_mem_append.mp h
    rw [Stmt.mapUsesList, Stmt.mapUsesList, s.mapUses_congr hs, Stmt.mapUsesList_congr ss hss]

end

end Congr

end Lox
