import Lox.Proofs.Syntax.Formed

/-!
# New lines and names

Tokens with other lines and, if they are identifiers, with other names; both are told by the line a
token had. Trees are relabelled with their tokens, of which only names are identifiers.
-/

namespace Lox

/-- New lines, and new names of identifiers, for the tokens of each line. -/
structure Relabel where
  line : Int → Int
  name : Int → Bytes → Bytes

namespace Relabel

/-- A token with its new line. -/
def place (r : Relabel) (t : Token) : Token := { t with line := r.line t.line }

/-- A token with its new line and, if it is an identifier, its new name. -/
def token (r : Relabel) (t : Token) : Token :=
  { r.place t with lexeme := if t.kind = .identifier then r.name t.line t.lexeme else t.lexeme }

/-- Only identifiers have new names. -/
theorem token_eq_place (r : Relabel) {t : Token} (h : t.kind ≠ .identifier) :
    r.token t = r.place t := by
  simp [token, place, h]

/-- A relabelled token has its kind. -/
@[simp] theorem kind_token (r : Relabel) (t : Token) : (r.token t).kind = t.kind := rfl

/-- A relabelled token has its literal. -/
@[simp] theorem literal_token (r : Relabel) (t : Token) : (r.token t).literal = t.literal := rfl

/-- A relabelled token is on the new line. -/
@[simp] theorem line_token (r : Relabel) (t : Token) : (r.token t).line = r.line t.line := rfl

/-- Lines and names as they are. -/
def same : Relabel := ⟨id, fun _ ↦ id⟩

/-- A token stays as it is. -/
@[simp] theorem token_same (t : Token) : same.token t = t := by
  simp [same, token, place]

/-- A token stays where it is. -/
@[simp] theorem place_same (t : Token) : same.place t = t := rfl

/-- Lines that are so much later. -/
def shift (lines : Int) : Relabel := ⟨(· + lines), fun _ ↦ id⟩

/-- No name is new, and no line either if lines matter. -/
structure Keeps (same : Prop) (r : Relabel) : Prop where
  name : ∀ t, (r.token t).lexeme = t.lexeme
  line : same → ∀ t, (r.token t).line = t.line

/-- Where lines do not matter, they may be shifted. -/
theorem keeps_shift (lines : Int) : (shift lines).Keeps False where
  name t := by simp [shift, token, place]
  line h := h.elim

/-- What stays as it is stays so even if lines matter. -/
theorem keeps_same (same : Prop) : Relabel.same.Keeps same where
  name t := by simp
  line _ t := by simp

end Relabel

mutual

/-- An expression whose tokens are relabelled. -/
def Expr.relabel {β : Type} (r : Relabel) : Expr β → Expr β
  | .literal t v => .literal (r.place t) v
  | .grouping t x => .grouping (r.place t) (x.relabel r)
  | .unary t x => .unary (r.place t) (x.relabel r)
  | .binary x t y => .binary (x.relabel r) (r.place t) (y.relabel r)
  | .logical x t y => .logical (x.relabel r) (r.place t) (y.relabel r)
  | .variable t u => .variable (r.token t) u
  | .assign t u x => .assign (r.token t) u (x.relabel r)
  | .call c t args => .call (c.relabel r) (r.place t) (Expr.relabelAll r args)

/-- Expressions whose tokens are relabelled. -/
def Expr.relabelAll {β : Type} (r : Relabel) : List (Expr β) → List (Expr β)
  | [] => []
  | x :: xs => x.relabel r :: Expr.relabelAll r xs

end

mutual

/-- A statement whose tokens are relabelled. -/
def Stmt.relabel {β : Type} (r : Relabel) : Stmt β → Stmt β
  | .expr e => .expr (e.relabel r)
  | .print t e => .print (r.place t) (e.relabel r)
  | .var t none => .var (r.token t) none
  | .var t (some e) => .var (r.token t) (some (e.relabel r))
  | .block t body => .block (r.place t) (Stmt.relabelAll r body)
  | .ifElse t c yes none => .ifElse (r.place t) (c.relabel r) (yes.relabel r) none
  | .ifElse t c yes (some no) =>
    .ifElse (r.place t) (c.relabel r) (yes.relabel r) (some (no.relabel r))
  | .while t c body => .while (r.place t) (c.relabel r) (body.relabel r)
  | .function t ps body => .function (r.token t) (ps.map r.token) (Stmt.relabelAll r body)
  | .return t none => .return (r.place t) none
  | .return t (some e) => .return (r.place t) (some (e.relabel r))
  | .branch t => .branch (r.place t)

/-- Statements whose tokens are relabelled. -/
def Stmt.relabelAll {β : Type} (r : Relabel) : List (Stmt β) → List (Stmt β)
  | [] => []
  | s :: ss => s.relabel r :: Stmt.relabelAll r ss

end

/-- Statements are relabelled one by one. -/
theorem Stmt.relabelAll_eq_map {β : Type} (r : Relabel) (ss : List (Stmt β)) :
    Stmt.relabelAll r ss = ss.map (Stmt.relabel r) := by
  induction ss with
  | nil => rfl
  | cons s ss ih => simp [Stmt.relabelAll, ih]

section Same

variable {β : Type} {r : Relabel}

mutual

/-- An expression whose lines and names are not new is the same. -/
theorem Expr.relabel_eq_self (hline : ∀ line, r.line line = line) :
    (e : Expr β) → (∀ t ∈ e.names, r.token t = t) → e.relabel r = e
  | .literal t v, _ => by simp [Expr.relabel, Relabel.place, hline]
  | .grouping t x, h => by
    simp [Expr.relabel, Relabel.place, hline, x.relabel_eq_self hline h]
  | .unary t x, h => by
    simp [Expr.relabel, Relabel.place, hline, x.relabel_eq_self hline h]
  | .binary x t y, h => by
    obtain ⟨hx, hy⟩ := List.forall_mem_append.mp h
    simp [Expr.relabel, Relabel.place, hline, x.relabel_eq_self hline hx,
      y.relabel_eq_self hline hy]
  | .logical x t y, h => by
    obtain ⟨hx, hy⟩ := List.forall_mem_append.mp h
    simp [Expr.relabel, Relabel.place, hline, x.relabel_eq_self hline hx,
      y.relabel_eq_self hline hy]
  | .variable t u, h => by
    simp [Expr.relabel, h t (List.mem_singleton_self t)]
  | .assign t u x, h => by
    obtain ⟨ht, hx⟩ := List.forall_mem_cons.mp h
    simp [Expr.relabel, ht, x.relabel_eq_self hline hx]
  | .call c t args, h => by
    obtain ⟨hc, hargs⟩ := List.forall_mem_append.mp h
    simp [Expr.relabel, Relabel.place, hline, c.relabel_eq_self hline hc,
      Expr.relabelAll_eq_self hline args hargs]

private theorem Expr.relabelAll_eq_self (hline : ∀ line, r.line line = line) :
    (es : List (Expr β)) → (∀ t ∈ Expr.namesAll es, r.token t = t) → Expr.relabelAll r es = es
  | [], _ => rfl
  | e :: es, h => by
    obtain ⟨he, hes⟩ := List.forall_mem_append.mp h
    simp [Expr.relabelAll, e.relabel_eq_self hline he, Expr.relabelAll_eq_self hline es hes]

end

mutual

/-- A statement whose lines and names are not new is the same. -/
theorem Stmt.relabel_eq_self (hline : ∀ line, r.line line = line) :
    (s : Stmt β) → (∀ t ∈ s.names, r.token t = t) → s.relabel r = s
  | .expr e, h => by simp [Stmt.relabel, e.relabel_eq_self hline h]
  | .print t e, h => by
    simp [Stmt.relabel, Relabel.place, hline, e.relabel_eq_self hline h]
  | .var t none, h => by
    simp [Stmt.relabel, h t (List.mem_singleton_self t)]
  | .var t (some e), h => by
    obtain ⟨ht, he⟩ := List.forall_mem_cons.mp h
    simp [Stmt.relabel, ht, e.relabel_eq_self hline he]
  | .block t body, h => by
    simp [Stmt.relabel, Relabel.place, hline, Stmt.relabelAll_eq_self hline body h]
  | .ifElse t c yes none, h => by
    obtain ⟨hc, hyes⟩ := List.forall_mem_append.mp h
    simp [Stmt.relabel, Relabel.place, hline, c.relabel_eq_self hline hc,
      yes.relabel_eq_self hline hyes]
  | .ifElse t c yes (some no), h => by
    obtain ⟨hc, h⟩ := List.forall_mem_append.mp h
    obtain ⟨hyes, hno⟩ := List.forall_mem_append.mp h
    simp [Stmt.relabel, Relabel.place, hline, c.relabel_eq_self hline hc,
      yes.relabel_eq_self hline hyes, no.relabel_eq_self hline hno]
  | .while t c body, h => by
    obtain ⟨hc, hbody⟩ := List.forall_mem_append.mp h
    simp [Stmt.relabel, Relabel.place, hline, c.relabel_eq_self hline hc,
      body.relabel_eq_self hline hbody]
  | .function t ps body, h => by
    obtain ⟨ht, h⟩ := List.forall_mem_cons.mp h
    obtain ⟨hps, hbody⟩ := List.forall_mem_append.mp h
    simp [Stmt.relabel, ht, List.map_congr_left hps, Stmt.relabelAll_eq_self hline body hbody]
  | .return t none, _ => by simp [Stmt.relabel, Relabel.place, hline]
  | .return t (some e), h => by
    simp [Stmt.relabel, Relabel.place, hline, e.relabel_eq_self hline h]
  | .branch t, _ => by simp [Stmt.relabel, Relabel.place, hline]

private theorem Stmt.relabelAll_eq_self (hline : ∀ line, r.line line = line) :
    (ss : List (Stmt β)) → (∀ t ∈ Stmt.namesAll ss, r.token t = t) → Stmt.relabelAll r ss = ss
  | [], _ => rfl
  | s :: ss, h => by
    obtain ⟨hs, hss⟩ := List.forall_mem_append.mp h
    simp [Stmt.relabelAll, s.relabel_eq_self hline hs, Stmt.relabelAll_eq_self hline ss hss]

end

/-- An expression stays as it is. -/
theorem Expr.relabel_same (e : Expr β) : e.relabel .same = e :=
  e.relabel_eq_self (fun _ ↦ rfl) fun t _ ↦ Relabel.token_same t

/-- A statement stays as it is. -/
theorem Stmt.relabel_same (s : Stmt β) : s.relabel .same = s :=
  s.relabel_eq_self (fun _ ↦ rfl) fun t _ ↦ Relabel.token_same t

/-- Statements stay as they are. -/
theorem Stmt.relabelAll_same (ss : List (Stmt β)) : Stmt.relabelAll .same ss = ss :=
  Stmt.relabelAll_eq_self (fun _ ↦ rfl) ss fun t _ ↦ Relabel.token_same t

end Same

end Lox
