import Lox.Proofs.Parser.Makes
import Lox.Proofs.Syntax.Relabel

/-!
# Parsing relabelled tokens, with others behind them

What a parser does is decided by the kinds of the tokens it looks at, and it looks one token ahead
at most. So on tokens with other lines and names, and with further tokens behind them, it does the
same, unless it comes to the end of the tokens and looks at what is behind. A statement without
errors ends with its last token and looks no further, except that it would go on at an `else`.

The relation `Tracks` says this of two parsers, which are the same but for the numbers that bound
their steps: the numbers do not matter either, as long as there are fewer tokens. It follows that
programs can be parsed one after the other, or all at once.
-/

namespace Lox.Parser

section Rules

variable {α β γ δ : Type}

/-- The same reply, to tokens that were relabelled and have others behind them. -/
structure Same (r : Relabel) (behind : List Token) (g : α → β) (R : Reply α) (R' : Reply β) :
    Prop where
  value : R'.value = R.value.map g
  rest : R'.rest = R.rest.map r.token ++ behind
  errors : R'.errors.length = R.errors.length

/-- What is behind the tokens has not been looked at: there is nothing, or the parser has left some
of the tokens; or it is one that looks no further than it reads, unless there is an error, but for
an `else`. -/
def Unseen (behind : List Token) (closed : Bool) (R : Reply α) : Prop :=
  behind = [] ∨ R.rest ≠ [] ∨
    (closed = true ∧ R.errors = [] ∧ ∀ t ∈ behind.head?, t.kind ≠ .else)

/-- A reply, and the one to tokens that were relabelled and have others behind them. -/
structure Tracked (r : Relabel) (behind : List Token) (closed needy : Bool) (g : α → β)
    (ts : List Token) (R : Reply α) (R' : Reply β) : Prop where
  suffix : R.rest <:+ ts
  /-- A parser that gives up says why. -/
  reports : R.value = none → R.errors ≠ []
  /-- A parser that needs a token says so. -/
  needs : needy = true → ts = [] → R.errors ≠ []
  same : Unseen behind closed R → Same r behind g R R'

/-- Two parsers do the same, the second on tokens that were relabelled and have others behind them,
if there are fewer of them than the bounds say. -/
def Tracks (r : Relabel) (behind : List Token) (n n' : Nat) (closed needy : Bool) (g : α → β)
    (p : Parser α) (p' : Parser β) : Prop :=
  ∀ eof eof' ts, ts.length < n → ts.length + behind.length < n' →
    Tracked r behind closed needy g ts (p eof ts) (p' eof' (ts.map r.token ++ behind))

variable {r : Relabel} {behind : List Token} {n n' : Nat} {closed needy : Bool}

private theorem tracks_succeed (g : α → β) (a : α) :
    Tracks r behind n n' true false g (succeed a) (succeed (g a)) :=
  fun _ _ ts _ _ ↦ ⟨List.suffix_refl ts, nofun, nofun, fun _ ↦ ⟨rfl, rfl, rfl⟩⟩

private theorem tracks_fail (g : α → β) (reason reason' : StaticError.Reason) :
    Tracks r behind n n' true true g (fail reason) (fail reason') :=
  fun _ _ ts _ _ ↦ ⟨List.suffix_refl ts, fun _ ↦ List.cons_ne_nil _ _,
    fun _ _ ↦ List.cons_ne_nil _ _, fun _ ↦ ⟨rfl, rfl, rfl⟩⟩

private theorem tracks_report (t t' : Token) (reason reason' : StaticError.Reason) :
    Tracks r behind n n' true false id (report t reason) (report t' reason') :=
  fun _ _ ts _ _ ↦ ⟨List.suffix_refl ts, nofun, nofun, fun _ ↦ ⟨rfl, rfl, rfl⟩⟩

private theorem tracks_reportHere (reason reason' : StaticError.Reason) :
    Tracks r behind n n' true false id (reportHere reason) (reportHere reason') :=
  fun _ _ ts _ _ ↦ ⟨List.suffix_refl ts, nofun, nofun, fun _ ↦ ⟨rfl, rfl, rfl⟩⟩

/-- Less is said of fewer tokens, and of a parser that may look further or need no token. -/
theorem Tracks.mono {g : α → β} {p : Parser α} {p' : Parser β} {m m' : Nat} {closed' needy' : Bool}
    (h : Tracks r behind n n' closed needy g p p') (hm : m ≤ n) (hm' : m' ≤ n')
    (hc : closed' = true → closed = true) (hn : needy' = true → needy = true) :
    Tracks r behind m m' closed' needy' g p p' := by
  intro eof eof' ts hlt hlt'
  obtain ⟨hsuffix, hreports, hneeds, hsame⟩ :=
    h eof eof' ts (Nat.lt_of_lt_of_le hlt hm) (Nat.lt_of_lt_of_le hlt' hm')
  refine ⟨hsuffix, hreports, fun hd ↦ hneeds (hn hd), fun hu ↦ hsame ?_⟩
  rcases hu with hu | hu | ⟨hcl, he, hb⟩
  · exact .inl hu
  · exact .inr (.inl hu)
  · exact .inr (.inr ⟨hc hcl, he, hb⟩)

-- Parsers one after the other look no further than they read if the last does not, and if what the
-- first saw is read by the last.
private theorem tracks_bind {closed₁ needy₁ closed₂ needy₂ : Bool} {g : α → β} {g' : γ → δ}
    {p : Parser α} {p' : Parser β} {f : α → Parser γ} {f' : β → Parser δ}
    (hp : Tracks r behind n n' closed₁ needy₁ g p p')
    (hf : ∀ a, Tracks r behind n n' closed₂ needy₂ g' (f a) (f' (g a))) :
    Tracks r behind n n' (closed₂ && (closed₁ || needy₂)) (needy₁ || needy₂) g' (p >>= f)
      (p' >>= f') := by
  intro eof eof' ts hlt hlt'
  have hpt := hp eof eof' ts hlt hlt'
  change Tracked r behind _ _ g' ts (andThen p f eof ts) (andThen p' f' eof' _)
  unfold andThen
  rcases hR : p eof ts with ⟨_ | a, rest, errors⟩
  · rw [hR] at hpt
    have herrors : errors ≠ [] := hpt.reports rfl
    refine ⟨hpt.suffix, fun _ ↦ herrors, fun _ _ ↦ herrors, fun hu ↦ ?_⟩
    have hs := hpt.same (by
      rcases hu with hu | hu | ⟨-, he, -⟩
      · exact .inl hu
      · exact .inr (.inl hu)
      · exact absurd he herrors)
    rcases hR' : p' eof' (ts.map r.token ++ behind) with ⟨value', rest', errors'⟩
    rw [hR'] at hs
    have hvalue : value' = none := hs.value
    subst hvalue
    exact ⟨rfl, hs.rest, hs.errors⟩
  · rw [hR] at hpt
    have hlen : rest.length ≤ ts.length := hpt.suffix.length_le
    have hft := hf a eof eof' rest (by omega) (by omega)
    have hrest : (f a eof rest).rest ≠ [] → rest ≠ [] := by
      rintro hne rfl
      exact hne (List.suffix_nil.mp hft.suffix)
    refine ⟨hft.suffix.trans hpt.suffix, fun hv he ↦ ?_, fun hd hts he ↦ ?_, fun hu ↦ ?_⟩
    · exact hft.reports hv (List.append_eq_nil_iff.mp he).2
    · rcases Bool.or_eq_true_iff.mp hd with hd | hd
      · exact hpt.needs hd hts (List.append_eq_nil_iff.mp he).1
      · subst hts
        exact hft.needs hd (List.suffix_nil.mp hpt.suffix) (List.append_eq_nil_iff.mp he).2
    · -- what is behind was seen neither by the first nor by the second
      have hu₁ : Unseen behind closed₁ (⟨some a, rest, errors⟩ : Reply α) := by
        rcases hu with hu | hu | ⟨hc, he, hb⟩
        · exact .inl hu
        · exact .inr (.inl (hrest hu))
        · rcases Bool.or_eq_true_iff.mp (Bool.and_eq_true_iff.mp hc).2 with hc | hd
          · exact .inr (.inr ⟨hc, (List.append_eq_nil_iff.mp he).1, hb⟩)
          · refine .inr (.inl fun hnil ↦ ?_)
            exact hft.needs hd hnil (List.append_eq_nil_iff.mp he).2
      have hu₂ : Unseen behind closed₂ (f a eof rest) := by
        rcases hu with hu | hu | ⟨hc, he, hb⟩
        · exact .inl hu
        · exact .inr (.inl hu)
        · exact .inr (.inr ⟨(Bool.and_eq_true_iff.mp hc).1, (List.append_eq_nil_iff.mp he).2, hb⟩)
      have hs₁ := hpt.same hu₁
      have hs₂ := hft.same hu₂
      rcases hR' : p' eof' (ts.map r.token ++ behind) with ⟨value', rest', errors'⟩
      rw [hR'] at hs₁
      have hvalue : value' = some (g a) := hs₁.value
      have hrest' : rest' = rest.map r.token ++ behind := hs₁.rest
      subst hvalue hrest'
      refine ⟨hs₂.value, hs₂.rest, ?_⟩
      have herrors₁ : errors'.length = errors.length := hs₁.errors
      simp only [List.length_append, herrors₁, hs₂.errors]

/-- One parser after another, of which nothing is said of what is behind the tokens. -/
theorem tracks_seq {g : α → β} {g' : γ → δ} {p : Parser α} {p' : Parser β} {f : α → Parser γ}
    {f' : β → Parser δ} (hp : Tracks r behind n n' false needy g p p')
    (hf : ∀ a, Tracks r behind n n' false false g' (f a) (f' (g a))) :
    Tracks r behind n n' false needy g' (p >>= f) (p' >>= f') := by
  simpa using tracks_bind hp hf

/-- A parser that may look further, and then one that needs a token. -/
theorem tracks_needed {g : α → β} {g' : γ → δ} {p : Parser α} {p' : Parser β} {f : α → Parser γ}
    {f' : β → Parser δ} (hp : Tracks r behind n n' false needy g p p')
    (hf : ∀ a, Tracks r behind n n' closed true g' (f a) (f' (g a))) :
    Tracks r behind n n' closed true g' (p >>= f) (p' >>= f') := by
  simpa using tracks_bind hp hf

/-- Two parsers that look no further than they read. -/
theorem tracks_closed {g : α → β} {g' : γ → δ} {p : Parser α} {p' : Parser β} {f : α → Parser γ}
    {f' : β → Parser δ} (hp : Tracks r behind n n' true needy g p p')
    (hf : ∀ a, Tracks r behind n n' closed false g' (f a) (f' (g a))) :
    Tracks r behind n n' closed needy g' (p >>= f) (p' >>= f') := by
  simpa using tracks_bind hp hf

-- At the end of the tokens nothing is left for a parser that needs a token.
private theorem not_unseen {R : Reply α} {b : Token} {bs : List Token} (hsuffix : R.rest <:+ [])
    (hneeds : closed = true → R.errors ≠ []) : ¬ Unseen (b :: bs) closed R := by
  rintro (hu | hu | ⟨hc, he, -⟩)
  · cases hu
  · exact hu (List.suffix_nil.mp hsuffix)
  · exact hneeds hc he

/-- A token of one of the kinds is accepted. -/
theorem accept?_bind_of_mem {kinds : List Kind} {t : Token} (hk : t.kind ∈ kinds)
    (f : Option Token → Parser α) (eof : Token) (rest : List Token) :
    (accept? kinds >>= f) eof (t :: rest) = f (some t) eof rest := by
  change andThen (accept? kinds) f eof (t :: rest) = _
  simp [andThen, accept?, hk]

/-- A token of another kind is left. -/
theorem accept?_bind_of_not_mem {kinds : List Kind} {t : Token} (hk : t.kind ∉ kinds)
    (f : Option Token → Parser α) (eof : Token) (rest : List Token) :
    (accept? kinds >>= f) eof (t :: rest) = f none eof (t :: rest) := by
  change andThen (accept? kinds) f eof (t :: rest) = _
  simp [andThen, accept?, hk]

-- A token that was read before.
private theorem Tracked.cons {g : α → β} {t : Token} {rest : List Token} {R : Reply α}
    {R' : Reply β} (h : Tracked r behind closed false g rest R R') :
    Tracked r behind closed needy g (t :: rest) R R' :=
  ⟨h.suffix.trans (List.suffix_cons t rest), h.reports, nofun, h.same⟩

-- Asking for a token of some kinds. At the end of the tokens this looks at what is behind them, so
-- that a token has to be needed if it is not there.
private theorem tracks_asking {kinds : List Kind} {g : α → β} {f : Option Token → Parser α}
    {f' : Option Token → Parser β} (hneedy : closed = true → needy = true)
    (hnone : Tracks r behind n n' closed needy g (f none) (f' none))
    (hsome : ∀ t, t.kind ∈ kinds → Tracks r behind (n - 1) (n' - 1) closed false g (f (some t))
      (f' (some (r.token t)))) :
    Tracks r behind n n' closed needy g (accept? kinds >>= f) (accept? kinds >>= f') := by
  intro eof eof' ts hlt hlt'
  cases ts with
  | nil =>
    have hend := hnone eof eof' [] hlt hlt'
    cases behind with
    | nil => exact hend
    | cons b bs =>
      refine ⟨hend.suffix, hend.reports, hend.needs, fun hu ↦ ?_⟩
      exact absurd hu (not_unseen hend.suffix fun hc ↦ hend.needs (hneedy hc) rfl)
  | cons t rest =>
    by_cases hk : t.kind ∈ kinds
    · rw [accept?_bind_of_mem hk, List.map_cons, List.cons_append,
        accept?_bind_of_mem (t := r.token t) hk]
      simp only [List.length_cons] at hlt hlt'
      exact (hsome t hk eof eof' rest (by omega) (by omega)).cons
    · rw [accept?_bind_of_not_mem hk, List.map_cons, List.cons_append,
        accept?_bind_of_not_mem (t := r.token t) hk]
      exact hnone eof eof' (t :: rest) hlt hlt'

/-- Asking for a token of some kinds, of which nothing is said of what is behind the tokens. -/
theorem tracks_accept? {kinds : List Kind} {g : α → β} {f : Option Token → Parser α}
    {f' : Option Token → Parser β} (hnone : Tracks r behind n n' false needy g (f none) (f' none))
    (hsome : ∀ t, t.kind ∈ kinds → Tracks r behind (n - 1) (n' - 1) false false g (f (some t))
      (f' (some (r.token t)))) :
    Tracks r behind n n' false needy g (accept? kinds >>= f) (accept? kinds >>= f') :=
  tracks_asking nofun hnone hsome

/-- Asking for a token of some kinds where a token is needed. -/
theorem tracks_accept?_needed {kinds : List Kind} {g : α → β} {f : Option Token → Parser α}
    {f' : Option Token → Parser β} (hnone : Tracks r behind n n' closed true g (f none) (f' none))
    (hsome : ∀ t, t.kind ∈ kinds → Tracks r behind (n - 1) (n' - 1) closed false g (f (some t))
      (f' (some (r.token t)))) :
    Tracks r behind n n' closed true g (accept? kinds >>= f) (accept? kinds >>= f') :=
  tracks_asking (fun _ ↦ rfl) hnone hsome

/-- Asking for an `else`, which is not behind the tokens if that matters. -/
theorem tracks_accept?_else {g : α → β} {f : Option Token → Parser α} {f' : Option Token → Parser β}
    (hnone : Tracks r behind n n' closed needy g (f none) (f' none))
    (hsome : ∀ t, t.kind = .else → Tracks r behind (n - 1) (n' - 1) closed false g (f (some t))
      (f' (some (r.token t)))) :
    Tracks r behind n n' closed needy g (accept? [.else] >>= f) (accept? [.else] >>= f') := by
  intro eof eof' ts hlt hlt'
  cases ts with
  | nil =>
    have hend := hnone eof eof' [] hlt hlt'
    cases behind with
    | nil => exact hend
    | cons b bs =>
      refine ⟨hend.suffix, hend.reports, hend.needs, fun hu ↦ ?_⟩
      have hb : b.kind ∉ [Kind.else] := by
        rcases hu with hu | hu | ⟨-, -, hb⟩
        · cases hu
        · exact absurd (List.suffix_nil.mp hend.suffix) hu
        · simpa using hb b rfl
      change Same r (b :: bs) g (f none eof []) ((accept? [.else] >>= f') eof' (b :: bs))
      rw [accept?_bind_of_not_mem hb]
      exact hend.same hu
  | cons t rest =>
    by_cases hk : t.kind ∈ [Kind.else]
    · rw [accept?_bind_of_mem hk, List.map_cons, List.cons_append,
        accept?_bind_of_mem (t := r.token t) hk]
      simp only [List.length_cons] at hlt hlt'
      exact (hsome t (List.mem_singleton.mp hk) eof eof' rest (by omega) (by omega)).cons
    · rw [accept?_bind_of_not_mem hk, List.map_cons, List.cons_append,
        accept?_bind_of_not_mem (t := r.token t) hk]
      exact hnone eof eof' (t :: rest) hlt hlt'

/-- Demanding a token of a kind. -/
theorem tracks_expect {k : Kind} {reason reason' : StaticError.Reason} {g : α → β}
    {f : Token → Parser α} {f' : Token → Parser β}
    (h : ∀ t, t.kind = k → Tracks r behind (n - 1) (n' - 1) closed false g (f t)
      (f' (r.token t))) :
    Tracks r behind n n' closed true g (expect k reason >>= f) (expect k reason' >>= f') := by
  intro eof eof' ts hlt hlt'
  change Tracked r behind closed true g ts (andThen (expect k reason) f eof ts)
    (andThen (expect k reason') f' eof' _)
  cases ts with
  | nil =>
    refine ⟨List.suffix_refl _, fun _ ↦ List.cons_ne_nil _ _, fun _ _ ↦ List.cons_ne_nil _ _,
      fun hu ↦ ?_⟩
    rcases hu with rfl | hu | ⟨-, he, -⟩
    · exact ⟨rfl, rfl, rfl⟩
    · exact absurd rfl hu
    · cases he
  | cons t rest =>
    by_cases hk : t.kind = k
    · simp only [List.length_cons] at hlt hlt'
      have hrest := h t hk eof eof' rest (by omega) (by omega)
      simp only [andThen, expect, hk, List.map_cons, List.cons_append, Relabel.kind_token, if_true,
        List.nil_append]
      exact hrest.cons
    · simp only [andThen, expect, hk, List.map_cons, List.cons_append, Relabel.kind_token, if_false]
      exact ⟨List.suffix_refl _, fun _ ↦ List.cons_ne_nil _ _, fun _ _ ↦ List.cons_ne_nil _ _,
        fun _ ↦ ⟨rfl, rfl, rfl⟩⟩

/-- Looking at the next token, where a token is needed unless what is behind may be looked at. -/
theorem tracks_next {k : Kind} {g : α → β} {f : Bool → Parser α} {f' : Bool → Parser β}
    (hneedy : closed = true → needy = true)
    (h : ∀ b, Tracks r behind n n' closed needy g (f b) (f' b)) :
    Tracks r behind n n' closed needy g (next k >>= f) (next k >>= f') := by
  intro eof eof' ts hlt hlt'
  cases ts with
  | nil =>
    have hend := h false eof eof' [] hlt hlt'
    cases behind with
    | nil => exact hend
    | cons b bs =>
      refine ⟨hend.suffix, hend.reports, hend.needs, fun hu ↦ ?_⟩
      exact absurd hu (not_unseen hend.suffix fun hc ↦ hend.needs (hneedy hc) rfl)
  | cons t rest => exact h (t.kind == k) eof eof' (t :: rest) hlt hlt'

/-- Nothing is said of what is behind the tokens. -/
theorem Tracks.weaken {g : α → β} {p : Parser α} {p' : Parser β}
    (h : Tracks r behind n n' closed needy g p p') : Tracks r behind n n' false false g p p' :=
  h.mono (Nat.le_refl n) (Nat.le_refl n') nofun nofun

/-- An error may be reported before, where a token is needed. -/
theorem tracks_reportHere_if {c : Prop} [Decidable c] {reason : StaticError.Reason} {g : α → β}
    {p : Parser α} {p' : Parser β} (h : Tracks r behind n n' closed true g p p') :
    Tracks r behind n n' closed true g (if c then reportHere reason >>= fun _ ↦ p else p)
      (if c then reportHere reason >>= fun _ ↦ p' else p') := by
  split
  · exact tracks_needed (tracks_reportHere _ _).weaken fun _ ↦ h
  · exact h

/-- After a token was read, none is needed any more. -/
theorem Tracks.sated {g : α → β} {p : Parser α} {p' : Parser β}
    (h : Tracks r behind n n' closed needy g p p') : Tracks r behind n n' closed false g p p' :=
  h.mono (Nat.le_refl n) (Nat.le_refl n') (fun hc ↦ hc) nofun

/-- There are no tokens that are fewer than none. -/
theorem tracks_zero_left (closed needy : Bool) (g : α → β) (p : Parser α) (p' : Parser β) :
    Tracks r behind 0 n' closed needy g p p' :=
  fun _ _ _ hlt _ ↦ absurd hlt (Nat.not_lt_zero _)

private theorem tracks_zero_right (closed needy : Bool) (g : α → β) (p : Parser α) (p' : Parser β) :
    Tracks r behind n 0 closed needy g p p' :=
  fun _ _ _ _ hlt ↦ absurd hlt (Nat.not_lt_zero _)

end Rules

/-! ## Expressions -/

section Expressions

variable {r : Relabel} {behind : List Token} {n n' : Nat}

/-- Expressions are tracked, and need a token. -/
abbrev TracksExpr (r : Relabel) (behind : List Token) (n n' : Nat) (p p' : Parser (Expr Unit)) :
    Prop :=
  Tracks r behind n n' false true (Expr.relabel r) p p'

private theorem TracksExpr.mono {p p' : Parser (Expr Unit)} {m m' : Nat}
    (h : TracksExpr r behind n n' p p') (hm : m ≤ n) (hm' : m' ≤ n') :
    TracksExpr r behind m m' p p' :=
  Tracks.mono h hm hm' (fun hc ↦ hc) fun hn ↦ hn

private theorem tracks_chainFrom {operand operand' : Parser (Expr Unit)} {ops : List Kind}
    {node : Expr Unit → Token → Expr Unit → Expr Unit}
    (hop : TracksExpr r behind n n' operand operand') (hops : .identifier ∉ ops)
    (hnode : ∀ x op y, (node x op y).relabel r = node (x.relabel r) (r.place op) (y.relabel r))
    {m m' : Nat} (hm : m ≤ n) (hm' : m' ≤ n') (x : Expr Unit) :
    Tracks r behind m m' false false (Expr.relabel r) (chainFrom operand ops node m x)
      (chainFrom operand' ops node m' (x.relabel r)) := by
  induction m generalizing m' x with
  | zero => exact tracks_zero_left _ _ _ _ _
  | succ m ih =>
    cases m' with
    | zero => exact tracks_zero_right _ _ _ _ _
    | succ m' =>
      apply tracks_accept? (tracks_succeed (Expr.relabel r) x).weaken
      intro op hk
      have hlt := Nat.le_of_succ_le hm
      have hlt' := Nat.le_of_succ_le hm'
      refine tracks_seq (hop.mono hlt hlt').weaken fun y ↦ ?_
      rw [r.token_eq_place (ne_of_mem_of_not_mem hk hops), ← hnode]
      exact ih hlt hlt' (node x op y)

private theorem tracks_chain {operand operand' : Parser (Expr Unit)} {ops : List Kind}
    {node : Expr Unit → Token → Expr Unit → Expr Unit}
    (hop : TracksExpr r behind n n' operand operand') (hops : .identifier ∉ ops)
    (hnode : ∀ x op y, (node x op y).relabel r = node (x.relabel r) (r.place op) (y.relabel r)) :
    TracksExpr r behind n n' (chain operand ops node n) (chain operand' ops node n') :=
  tracks_seq hop fun x ↦ tracks_chainFrom hop hops hnode (Nat.le_refl n) (Nat.le_refl n') x

/-- A primary expression reads a token before whole expressions again. -/
theorem tracks_primary {expr expr' : Parser (Expr Unit)}
    (he : TracksExpr r behind (n - 1) (n' - 1) expr expr') :
    TracksExpr r behind n n' (primary expr) (primary expr') := by
  have hfail : TracksExpr r behind n n' (fail .expectExpression) (fail .expectExpression) :=
    (tracks_fail _ _ _).mono (Nat.le_refl n) (Nat.le_refl n') nofun (fun h ↦ h)
  refine tracks_accept? hfail fun t hk ↦ ?_
  have hliteral : ∀ v, t.kind ≠ .identifier → Tracks r behind (n - 1) (n' - 1) false false
      (Expr.relabel r) (succeed (.literal t v : Expr Unit)) (succeed (.literal (r.token t) v)) := by
    intro v ht
    rw [r.token_eq_place ht]
    exact (tracks_succeed (Expr.relabel r) (.literal t v)).weaken
  dsimp only
  rw [Relabel.kind_token]
  split
  · next ht => exact hliteral _ (by simp [ht])
  · next ht => exact hliteral _ (by simp [ht])
  · next ht => exact hliteral _ (by simp [ht])
  · exact (tracks_succeed (Expr.relabel r) (.variable t ())).weaken
  · next ht =>
    rw [r.token_eq_place (by simp [ht])]
    exact tracks_seq he.weaken fun x ↦ (tracks_expect fun _ _ ↦
      tracks_succeed (Expr.relabel r) (.grouping t x)).weaken
  · next _ _ _ ht _ => exact hliteral t.literal ht

private theorem tracks_arguments {expr expr' : Parser (Expr Unit)}
    (he : TracksExpr r behind n n' expr expr') {m m' : Nat} (hm : n ≤ m) (hm' : n' ≤ m')
    (count : Nat) :
    Tracks r behind n n' false true (Expr.relabelAll r) (arguments expr m count)
      (arguments expr' m' count) := by
  induction m generalizing n n' m' count with
  | zero =>
    rw [Nat.le_zero.mp hm]
    exact tracks_zero_left _ _ _ _ _
  | succ m ih =>
    cases m' with
    | zero =>
      rw [Nat.le_zero.mp hm']
      exact tracks_zero_right _ _ _ _ _
    | succ m' =>
      apply tracks_reportHere_if
      refine tracks_seq he fun x ↦ ?_
      apply tracks_accept? (tracks_succeed (Expr.relabelAll r) [x]).weaken
      intro t _
      have hargs := ih (he.mono (Nat.sub_le n 1) (Nat.sub_le n' 1)) (Nat.sub_le_of_le_add hm)
        (Nat.sub_le_of_le_add hm') (count + 1)
      exact tracks_seq hargs.weaken fun xs ↦
        (tracks_succeed (Expr.relabelAll r) (x :: xs)).weaken

private theorem tracks_finishCall {expr expr' : Parser (Expr Unit)}
    (he : TracksExpr r behind n n' expr expr') {m m' : Nat} (hm : n ≤ m) (hm' : n' ≤ m')
    (callee : Expr Unit) :
    TracksExpr r behind n n' (finishCall expr m callee)
      (finishCall expr' m' (callee.relabel r)) := by
  have hend : ∀ args, TracksExpr r behind n n'
      (do
        let paren ← expect .rightParen .expectParenAfterArguments
        succeed (.call callee paren args))
      (do
        let paren ← expect .rightParen .expectParenAfterArguments
        succeed (.call (callee.relabel r) paren (Expr.relabelAll r args))) :=
    fun args ↦ tracks_expect fun paren hk ↦ by
      rw [r.token_eq_place (by simp [hk])]
      exact (tracks_succeed (Expr.relabel r) (.call callee paren args)).weaken
  refine tracks_next (fun _ ↦ rfl) fun b ↦ ?_
  cases b with
  | true => exact tracks_needed (tracks_succeed (Expr.relabelAll r) []).weaken hend
  | false => exact tracks_needed (tracks_arguments he hm hm' 0) hend

private theorem tracks_callsFrom {expr expr' : Parser (Expr Unit)}
    (he : TracksExpr r behind (n - 1) (n' - 1) expr expr') {m m' : Nat} (hm : m ≤ n) (hm' : m' ≤ n')
    (x : Expr Unit) :
    Tracks r behind m m' false false (Expr.relabel r) (callsFrom expr m x)
      (callsFrom expr' m' (x.relabel r)) := by
  induction m generalizing m' x with
  | zero => exact tracks_zero_left _ _ _ _ _
  | succ m ih =>
    cases m' with
    | zero => exact tracks_zero_right _ _ _ _ _
    | succ m' =>
      apply tracks_accept? (tracks_succeed (Expr.relabel r) x).weaken
      intro t _
      have hcall := tracks_finishCall (he.mono (Nat.le_sub_one_of_lt hm) (Nat.le_sub_one_of_lt hm'))
        (Nat.le_succ m) (Nat.le_succ m') x
      refine tracks_seq hcall.weaken fun y ↦ ?_
      exact ih (Nat.le_of_succ_le hm) (Nat.le_of_succ_le hm') y

private theorem tracks_call {expr expr' : Parser (Expr Unit)}
    (he : TracksExpr r behind (n - 1) (n' - 1) expr expr') :
    TracksExpr r behind n n' (call expr n) (call expr' n') :=
  tracks_seq (tracks_primary he) fun x ↦ tracks_callsFrom he (Nat.le_refl n) (Nat.le_refl n') x

private theorem tracks_unary {expr expr' : Parser (Expr Unit)}
    (he : TracksExpr r behind (n - 1) (n' - 1) expr expr') {m m' : Nat} (hm : m ≤ n)
    (hm' : m' ≤ n') : TracksExpr r behind m m' (unary expr m) (unary expr' m') := by
  induction m generalizing m' with
  | zero => exact tracks_zero_left _ _ _ _ _
  | succ m ih =>
    cases m' with
    | zero => exact tracks_zero_right _ _ _ _ _
    | succ m' =>
      have he' : TracksExpr r behind (m + 1 - 1) (m' + 1 - 1) expr expr' :=
        he.mono (Nat.sub_le_sub_right hm 1) (Nat.sub_le_sub_right hm' 1)
      apply tracks_accept? (tracks_call he')
      intro op hk
      rw [r.token_eq_place (ne_of_mem_of_not_mem hk (by decide))]
      have hoperand := ih (Nat.le_of_succ_le hm) (Nat.le_of_succ_le hm')
      exact tracks_seq hoperand.weaken fun x ↦
        (tracks_succeed (Expr.relabel r) (.unary op x)).weaken

private theorem tracks_disjunction {expr expr' : Parser (Expr Unit)}
    (he : TracksExpr r behind (n - 1) (n' - 1) expr expr') :
    TracksExpr r behind n n' (disjunction expr n) (disjunction expr' n') := by
  have hunary := tracks_unary he (Nat.le_refl n) (Nat.le_refl n')
  have hfactor : TracksExpr r behind n n' (factor expr n) (factor expr' n') :=
    tracks_chain hunary (by decide) fun _ _ _ ↦ rfl
  have hterm : TracksExpr r behind n n' (term expr n) (term expr' n') :=
    tracks_chain hfactor (by decide) fun _ _ _ ↦ rfl
  have hcomparison : TracksExpr r behind n n' (comparison expr n) (comparison expr' n') :=
    tracks_chain hterm (by decide) fun _ _ _ ↦ rfl
  have hequality : TracksExpr r behind n n' (equality expr n) (equality expr' n') :=
    tracks_chain hcomparison (by decide) fun _ _ _ ↦ rfl
  have hconjunction : TracksExpr r behind n n' (conjunction expr n) (conjunction expr' n') :=
    tracks_chain hequality (by decide) fun _ _ _ ↦ rfl
  exact tracks_chain hconjunction (by decide) fun _ _ _ ↦ rfl

/-- Expressions do not depend on lines, names and bounds, nor on tokens that are not looked at. -/
theorem tracks_expression (r : Relabel) (behind : List Token) (n n' : Nat) :
    TracksExpr r behind n n' (expression n) (expression n') := by
  induction n generalizing n' with
  | zero => exact tracks_zero_left _ _ _ _ _
  | succ n ih =>
    cases n' with
    | zero => exact tracks_zero_right _ _ _ _ _
    | succ n' =>
      refine tracks_seq (tracks_disjunction (ih n')) fun x ↦ ?_
      apply tracks_accept? (tracks_succeed (Expr.relabel r) x).weaken
      intro t _
      refine tracks_seq (ih n').weaken fun value ↦ ?_
      cases x with
      | «variable» name u => exact (tracks_succeed (Expr.relabel r) (.assign name () value)).weaken
      | _ =>
        exact tracks_seq (tracks_report _ _ _ _).weaken fun _ ↦
          (tracks_succeed (Expr.relabel r) _).weaken

end Expressions

/-! ## Declarations one after the other -/

section Declarations

variable {declaration declaration' : Parser (Option (Stmt Unit))} {closes : Kind → Bool}

/-- What was read before is added in front. -/
theorem declarations_acc (declaration : Parser (Option (Stmt Unit))) (closes : Kind → Bool)
    (n : Nat) (stmts : List (Stmt Unit)) (errors : List StaticError) (eof : Token)
    (ts : List Token) :
    declarations declaration closes n stmts errors eof ts =
      ⟨(declarations declaration closes n [] [] eof ts).value.map (stmts.reverse ++ ·),
        (declarations declaration closes n [] [] eof ts).rest,
        errors.reverse ++ (declarations declaration closes n [] [] eof ts).errors⟩ := by
  induction n generalizing stmts errors ts with
  | zero => simp [declarations]
  | succ n ih =>
    cases ts with
    | nil => simp [declarations]
    | cons t rest =>
      by_cases hc : closes t.kind
      · simp [declarations, hc]
      · simp only [declarations, hc, Bool.false_eq_true, if_false]
        rcases declaration eof (t :: rest) with ⟨_ | _ | s, rest', es⟩
        · dsimp only
          rw [ih stmts, ih [] (es.reverse ++ [])]
          simp
        · dsimp only
          rw [ih stmts, ih [] (es.reverse ++ [])]
          simp
        · dsimp only
          rw [ih (s :: stmts), ih [s]]
          simp [Function.comp_def]

/-- The statement of a declaration, if there is one. -/
def declared (value : Option (Option (Stmt Unit))) : List (Stmt Unit) := value.join.toList

/-- One declaration, and those behind it. -/
theorem declarations_cons (n : Nat) (eof t : Token) (rest : List Token)
    (hc : closes t.kind = false) :
    declarations declaration closes (n + 1) [] [] eof (t :: rest) =
      let R := declaration eof (t :: rest)
      let R' := declarations declaration closes n [] [] eof R.rest
      ⟨R'.value.map (declared R.value ++ ·), R'.rest, R.errors ++ R'.errors⟩ := by
  simp only [declarations, hc, Bool.false_eq_true, if_false]
  rcases declaration eof (t :: rest) with ⟨_ | _ | s, rest', es⟩
  · dsimp only
    rw [declarations_acc]
    simp [declared]
  · dsimp only
    rw [declarations_acc]
    simp [declared]
  · dsimp only
    rw [declarations_acc]
    simp [declared]

variable {r : Relabel} {behind : List Token} {n n' : Nat}

/-- Declarations are tracked, and look no further than they read. -/
abbrev TracksDecl (r : Relabel) (behind : List Token) (n n' : Nat)
    (p p' : Parser (Option (Stmt Unit))) : Prop :=
  Tracks r behind n n' true true (Option.map (Stmt.relabel r)) p p'

/-- The statement of a declaration is relabelled with it. -/
theorem declared_map (r : Relabel) (value : Option (Option (Stmt Unit))) :
    declared (value.map (Option.map (Stmt.relabel r))) = Stmt.relabelAll r (declared value) := by
  rcases value with _ | _ | s <;> rfl

/-- Statements that follow each other are relabelled one by one. -/
theorem relabelAll_append (r : Relabel) (ss ss' : List (Stmt Unit)) :
    Stmt.relabelAll r (ss ++ ss') = Stmt.relabelAll r ss ++ Stmt.relabelAll r ss' := by
  simp [Stmt.relabelAll_eq_map]

private theorem tracked_declarations (hd : TracksDecl r behind n n' declaration declaration')
    (hadv : 0 < n → Advances declaration) {m m' : Nat} (eof eof' : Token) {ts : List Token}
    (hlt : ts.length < n) (hlt' : ts.length + behind.length < n') (hm : ts.length < m)
    (hm' : ts.length + behind.length < m') :
    Tracked r behind false false (Stmt.relabelAll r) ts
      (declarations declaration closes m [] [] eof ts)
      (declarations declaration' closes m' [] [] eof' (ts.map r.token ++ behind)) := by
  induction m generalizing m' ts with
  | zero => omega
  | succ m ih =>
    cases m' with
    | zero => omega
    | succ m' =>
      cases ts with
      | nil =>
        refine ⟨List.suffix_refl _, fun hv ↦ absurd hv (Option.some_ne_none _),
          fun hn ↦ absurd hn Bool.false_ne_true, fun hu ↦ ?_⟩
        rcases hu with rfl | hu | ⟨hc, -⟩
        · exact ⟨rfl, rfl, rfl⟩
        · exact absurd rfl hu
        · cases hc
      | cons t rest =>
        cases hc : closes t.kind with
        | true =>
          simp only [declarations, hc, List.map_cons, List.cons_append, Relabel.kind_token, if_true]
          exact ⟨List.suffix_refl _, fun hv ↦ absurd hv (Option.some_ne_none _),
            fun hn ↦ absurd hn Bool.false_ne_true, fun _ ↦ ⟨rfl, rfl, rfl⟩⟩
        | false =>
          have hone := hd eof eof' (t :: rest) hlt hlt'
          have hshort := hadv (Nat.zero_lt_of_lt hlt) eof t rest
          simp only [List.length_cons] at hlt hlt' hm hm'
          have hmore : Tracked r behind false false (Stmt.relabelAll r)
              (declaration eof (t :: rest)).rest
              (declarations declaration closes m [] [] eof (declaration eof (t :: rest)).rest)
              (declarations declaration' closes m' [] [] eof'
                ((declaration eof (t :: rest)).rest.map r.token ++ behind)) :=
            ih (by omega) (by omega) (by omega) (by omega)
          rw [declarations_cons m eof t rest hc]
          refine ⟨hmore.suffix.trans hone.suffix, fun hv he ↦ ?_,
            fun hn ↦ absurd hn Bool.false_ne_true, fun hu ↦ ?_⟩
          · exact hmore.reports (Option.map_eq_none_iff.mp hv) (List.append_eq_nil_iff.mp he).2
          · -- if tokens are left by all declarations, then they are left by the first
            have hleft : (declarations declaration closes m [] [] eof
                (declaration eof (t :: rest)).rest).rest ≠ [] →
                (declaration eof (t :: rest)).rest ≠ [] := by
              intro hne hnil
              have hsuffix := hmore.suffix
              rw [hnil] at hsuffix hne
              exact hne (List.suffix_nil.mp hsuffix)
            have hs₁ := hone.same (by
              rcases hu with hu | hu | ⟨hcl, -⟩
              · exact .inl hu
              · exact .inr (.inl (hleft hu))
              · cases hcl)
            have hs₂ := hmore.same (by
              rcases hu with hu | hu | ⟨hcl, -⟩
              · exact .inl hu
              · exact .inr (.inl hu)
              · cases hcl)
            rw [List.map_cons, List.cons_append, declarations_cons m' eof' (r.token t) _ hc]
            simp only [List.map_cons, List.cons_append] at hs₁
            dsimp only
            rw [hs₁.rest]
            refine ⟨?_, hs₂.rest, ?_⟩
            · rw [hs₂.value, hs₁.value, declared_map]
              simp only [Option.map_map, Function.comp_def, relabelAll_append]
            · simp only [List.length_append, hs₁.errors, hs₂.errors]

/-- Declarations one after the other look at what is behind them, to see whether it closes them. -/
theorem tracks_declarations (hd : TracksDecl r behind n n' declaration declaration')
    (hadv : 0 < n → Advances declaration) {m m' : Nat} (hm : n ≤ m) (hm' : n' ≤ m') :
    Tracks r behind n n' false false (Stmt.relabelAll r) (declarations declaration closes m [] [])
      (declarations declaration' closes m' [] []) :=
  fun eof eof' _ hlt hlt' ↦ tracked_declarations hd hadv eof eof' hlt hlt'
    (Nat.lt_of_lt_of_le hlt hm) (Nat.lt_of_lt_of_le hlt' hm')

end Declarations

/-! ## Statements -/

section Statements

variable {r : Relabel} {behind : List Token} {n n' m m' : Nat}

/-- Statements are tracked, need a token, and look no further than they read. -/
abbrev TracksStmt (r : Relabel) (behind : List Token) (n n' : Nat) (p p' : Parser (Stmt Unit)) :
    Prop :=
  Tracks r behind n n' true true (Stmt.relabel r) p p'

private theorem tracks_parameters (hm : n ≤ m) (hm' : n' ≤ m') (count : Nat) :
    Tracks r behind n n' false true (List.map r.token) (parameters m count)
      (parameters m' count) := by
  induction m generalizing n n' m' count with
  | zero =>
    rw [Nat.le_zero.mp hm]
    exact tracks_zero_left _ _ _ _ _
  | succ m ih =>
    cases m' with
    | zero =>
      rw [Nat.le_zero.mp hm']
      exact tracks_zero_right _ _ _ _ _
    | succ m' =>
      apply tracks_reportHere_if
      apply tracks_expect
      intro p _
      apply tracks_accept? (tracks_succeed (List.map r.token) [p]).weaken
      intro t _
      have hps : Tracks r behind (n - 1 - 1) (n' - 1 - 1) false true (List.map r.token)
          (parameters m (count + 1)) (parameters m' (count + 1)) :=
        ih (by omega) (by omega) (count + 1)
      exact tracks_seq hps.weaken fun ps ↦ (tracks_succeed (List.map r.token) (p :: ps)).weaken

private theorem tracks_block {declaration declaration' : Parser (Option (Stmt Unit))}
    (hd : TracksDecl r behind n n' declaration declaration') (hadv : 0 < n → Advances declaration)
    (hm : n ≤ m) (hm' : n' ≤ m') :
    Tracks r behind n n' true true (Stmt.relabelAll r) (block declaration m)
      (block declaration' m') :=
  tracks_needed (tracks_declarations hd hadv hm hm') fun body ↦ tracks_expect fun _ _ ↦
    (tracks_succeed (Stmt.relabelAll r) body).mono (Nat.sub_le n 1) (Nat.sub_le n' 1)
      (fun h ↦ h) fun h ↦ h

-- An expression, wherever fewer tokens are left than its bound says.
private theorem tracks_expression_of_le (hm : n ≤ m) (hm' : n' ≤ m') :
    TracksExpr r behind n n' (expression m) (expression m') :=
  (tracks_expression r behind m m').mono hm hm'

private theorem TracksDecl.mono {p p' : Parser (Option (Stmt Unit))} {k k' : Nat}
    (h : TracksDecl r behind n n' p p') (hk : k ≤ n) (hk' : k' ≤ n') :
    TracksDecl r behind k k' p p' :=
  Tracks.mono h hk hk' (fun hc ↦ hc) fun hn ↦ hn

private theorem TracksStmt.mono {p p' : Parser (Stmt Unit)} {k k' : Nat}
    (h : TracksStmt r behind n n' p p') (hk : k ≤ n) (hk' : k' ≤ n') :
    TracksStmt r behind k k' p p' :=
  Tracks.mono h hk hk' (fun hc ↦ hc) fun hn ↦ hn

private theorem tracks_funDeclaration {declaration declaration' : Parser (Option (Stmt Unit))}
    (hd : TracksDecl r behind n n' declaration declaration') (hadv : 0 < n → Advances declaration)
    (hm : n ≤ m) (hm' : n' ≤ m') :
    TracksStmt r behind n n' (funDeclaration declaration m) (funDeclaration declaration' m') := by
  apply tracks_expect
  intro name _
  -- the parameters are followed by a parenthesis, whether there are any or not
  have hend : ∀ params, TracksStmt r behind (n - 1 - 1) (n' - 1 - 1)
      (do
        let _ ← expect .rightParen .expectParenAfterParameters
        let _ ← expect .leftBrace .expectBraceBeforeBody
        let body ← block declaration m
        succeed (.function name params body))
      (do
        let _ ← expect .rightParen .expectParenAfterParameters
        let _ ← expect .leftBrace .expectBraceBeforeBody
        let body ← block declaration' m'
        succeed (.function (r.token name) (params.map r.token) body)) := by
    intro params
    have hblock : Tracks r behind (n - 1 - 1 - 1 - 1) (n' - 1 - 1 - 1 - 1) true true
        (Stmt.relabelAll r) (block declaration m) (block declaration' m') :=
      tracks_block (hd.mono (by omega) (by omega)) (fun _ ↦ hadv (by omega)) (by omega) (by omega)
    exact tracks_expect fun _ _ ↦ (tracks_expect fun _ _ ↦ (tracks_closed hblock fun body ↦
      tracks_succeed (Stmt.relabel r) (.function name params body)).sated).sated
  have hparams : TracksStmt r behind (n - 1 - 1) (n' - 1 - 1)
      (do
        let params ← if ← next .rightParen then succeed [] else parameters m 0
        let _ ← expect .rightParen .expectParenAfterParameters
        let _ ← expect .leftBrace .expectBraceBeforeBody
        let body ← block declaration m
        succeed (.function name params body))
      (do
        let params ← if ← next .rightParen then succeed [] else parameters m' 0
        let _ ← expect .rightParen .expectParenAfterParameters
        let _ ← expect .leftBrace .expectBraceBeforeBody
        let body ← block declaration' m'
        succeed (.function (r.token name) params body)) := by
    refine tracks_next (fun _ ↦ rfl) fun b ↦ ?_
    cases b with
    | true => exact tracks_needed (tracks_succeed (List.map r.token) []).weaken hend
    | false => exact tracks_needed (tracks_parameters (by omega) (by omega) 0) hend
  exact (tracks_expect fun _ _ ↦ hparams.sated).sated

private theorem tracks_varDeclaration (hm : n ≤ m) (hm' : n' ≤ m') :
    TracksStmt r behind n n' (varDeclaration m) (varDeclaration m') := by
  apply tracks_expect
  intro name _
  refine Tracks.sated (tracks_accept?_needed ?_ fun t _ ↦ ?_)
  · exact tracks_expect fun _ _ ↦ tracks_succeed (Stmt.relabel r) (.var name none)
  · have he : TracksExpr r behind (n - 1 - 1) (n' - 1 - 1) (expression m) (expression m') :=
      tracks_expression_of_le (by omega) (by omega)
    exact (tracks_needed he fun e ↦ tracks_expect fun _ _ ↦
      tracks_succeed (Stmt.relabel r) (.var name (some e))).sated

private theorem tracks_expressionStatement (hm : n ≤ m) (hm' : n' ≤ m') :
    TracksStmt r behind n n' (expressionStatement m) (expressionStatement m') :=
  tracks_needed (tracks_expression_of_le hm hm') fun e ↦ tracks_expect fun _ _ ↦
    tracks_succeed (Stmt.relabel r) (.expr e)

private theorem tracks_expressionUnless (k : Kind) (hm : n ≤ m) (hm' : n' ≤ m') :
    Tracks r behind n n' false false (Option.map (Expr.relabel r)) (expressionUnless k m)
      (expressionUnless k m') := by
  refine tracks_next (fun hc ↦ by cases hc) fun b ↦ ?_
  cases b with
  | true => exact (tracks_succeed (Option.map (Expr.relabel r)) none).weaken
  | false =>
    exact (tracks_seq (tracks_expression_of_le hm hm') fun e ↦
      (tracks_succeed (Option.map (Expr.relabel r)) (some e)).weaken).weaken

private theorem tracks_printStatement (hm : n ≤ m) (hm' : n' ≤ m') (t : Token) :
    TracksStmt r behind n n' (printStatement m t) (printStatement m' (r.place t)) :=
  tracks_needed (tracks_expression_of_le hm hm') fun e ↦ tracks_expect fun _ _ ↦
    tracks_succeed (Stmt.relabel r) (.print t e)

private theorem tracks_returnStatement (hm : n ≤ m) (hm' : n' ≤ m') (t : Token) :
    TracksStmt r behind n n' (returnStatement m t) (returnStatement m' (r.place t)) := by
  refine tracks_needed (tracks_expressionUnless .semicolon hm hm') fun e? ↦ ?_
  apply tracks_expect
  intro _ _
  cases e? with
  | none => exact tracks_succeed (Stmt.relabel r) (.return t none)
  | some e => exact tracks_succeed (Stmt.relabel r) (.return t (some e))

private theorem tracks_branchStatement (t : Token) :
    TracksStmt r behind n n' (branchStatement t) (branchStatement (r.place t)) :=
  tracks_expect fun _ _ ↦ tracks_succeed (Stmt.relabel r) (.branch t)

private theorem tracks_initializer (hm : n ≤ m) (hm' : n' ≤ m') :
    Tracks r behind n n' false false (Option.map (Stmt.relabel r)) (initializer m)
      (initializer m') := by
  apply tracks_accept?
  · exact tracks_seq (tracks_expressionStatement hm hm').weaken fun s ↦
      (tracks_succeed (Option.map (Stmt.relabel r)) (some s)).weaken
  · intro t _
    dsimp only
    rw [Relabel.kind_token]
    split
    · exact (tracks_succeed (Option.map (Stmt.relabel r)) none).weaken
    · have hv : TracksStmt r behind (n - 1) (n' - 1) (varDeclaration m) (varDeclaration m') :=
        tracks_varDeclaration (by omega) (by omega)
      exact tracks_seq hv.weaken fun s ↦
        (tracks_succeed (Option.map (Stmt.relabel r)) (some s)).weaken

-- What stands for a loop is relabelled with its parts.
private theorem relabel_forLoop (t : Token) (init : Option (Stmt Unit))
    (test step : Option (Expr Unit)) (body : Stmt Unit) :
    (forLoop t init test step body).relabel r =
      forLoop (r.place t) (init.map (Stmt.relabel r)) (test.map (Expr.relabel r))
        (step.map (Expr.relabel r)) (body.relabel r) := by
  cases init <;> cases test <;> cases step <;> rfl

variable {statement statement' : Parser (Stmt Unit)}

private theorem tracks_forStatement (hs : TracksStmt r behind (n - 1) (n' - 1) statement statement')
    (hm : n ≤ m) (hm' : n' ≤ m') (t : Token) :
    TracksStmt r behind n n' (forStatement statement m t)
      (forStatement statement' m' (r.place t)) := by
  apply tracks_expect
  intro _ _
  have hinit : Tracks r behind (n - 1) (n' - 1) false false (Option.map (Stmt.relabel r))
      (initializer m) (initializer m') := tracks_initializer (by omega) (by omega)
  refine (tracks_needed hinit fun init ↦ ?_).sated
  have htest : Tracks r behind (n - 1) (n' - 1) false false (Option.map (Expr.relabel r))
      (expressionUnless .semicolon m) (expressionUnless .semicolon m') :=
    tracks_expressionUnless .semicolon (by omega) (by omega)
  refine tracks_needed htest fun test ↦ tracks_expect fun _ _ ↦ ?_
  have hstep : Tracks r behind (n - 1 - 1) (n' - 1 - 1) false false (Option.map (Expr.relabel r))
      (expressionUnless .rightParen m) (expressionUnless .rightParen m') :=
    tracks_expressionUnless .rightParen (by omega) (by omega)
  refine (tracks_needed hstep fun step ↦ tracks_expect fun _ _ ↦ ?_).sated
  refine (tracks_closed (hs.mono (by omega) (by omega)) fun body ↦ ?_).sated
  rw [← relabel_forLoop]
  exact tracks_succeed (Stmt.relabel r) _

private theorem tracks_ifStatement (hs : TracksStmt r behind (n - 1) (n' - 1) statement statement')
    (hm : n ≤ m) (hm' : n' ≤ m') (t : Token) :
    TracksStmt r behind n n' (ifStatement statement m t)
      (ifStatement statement' m' (r.place t)) := by
  apply tracks_expect
  intro _ _
  have htest : TracksExpr r behind (n - 1) (n' - 1) (expression m) (expression m') :=
    tracks_expression_of_le (by omega) (by omega)
  refine (tracks_needed htest fun test ↦ tracks_expect fun _ _ ↦ ?_).sated
  refine (tracks_closed (hs.mono (by omega) (by omega)) fun yes ↦ ?_).sated
  apply tracks_accept?_else
  · exact tracks_succeed (Stmt.relabel r) (.ifElse t test yes none)
  · intro _ _
    exact (tracks_closed (hs.mono (by omega) (by omega)) fun no ↦
      tracks_succeed (Stmt.relabel r) (.ifElse t test yes (some no))).sated

private theorem tracks_whileStatement
    (hs : TracksStmt r behind (n - 1) (n' - 1) statement statement') (hm : n ≤ m) (hm' : n' ≤ m')
    (t : Token) :
    TracksStmt r behind n n' (whileStatement statement m t)
      (whileStatement statement' m' (r.place t)) := by
  apply tracks_expect
  intro _ _
  have htest : TracksExpr r behind (n - 1) (n' - 1) (expression m) (expression m') :=
    tracks_expression_of_le (by omega) (by omega)
  refine (tracks_needed htest fun test ↦ tracks_expect fun _ _ ↦ ?_).sated
  exact (tracks_closed (hs.mono (by omega) (by omega)) fun body ↦
    tracks_succeed (Stmt.relabel r) (.while t test body)).sated

variable {declaration declaration' : Parser (Option (Stmt Unit))}

private theorem tracks_statementWith (hs : TracksStmt r behind n n' statement statement')
    (hd : TracksDecl r behind n n' declaration declaration')
    (hadv : 0 < n → Advances declaration) :
    TracksStmt r behind (n + 1) (n' + 1) (statementWith statement declaration (n + 1))
      (statementWith statement' declaration' (n' + 1)) := by
  apply tracks_accept?_needed
  · exact tracks_expressionStatement (Nat.le_refl _) (Nat.le_refl _)
  · intro t hk
    dsimp only
    rw [Relabel.kind_token, Nat.add_sub_cancel, Nat.add_sub_cancel,
      r.token_eq_place (ne_of_mem_of_not_mem hk (by decide))]
    have hs' := hs.mono (Nat.sub_le n 1) (Nat.sub_le n' 1)
    have hm := Nat.le_succ n
    have hm' := Nat.le_succ n'
    split
    · exact (tracks_forStatement hs' hm hm' t).sated
    · exact (tracks_ifStatement hs' hm hm' t).sated
    · exact (tracks_printStatement hm hm' t).sated
    · exact (tracks_returnStatement hm hm' t).sated
    · exact (tracks_whileStatement hs' hm hm' t).sated
    · exact (tracks_closed (tracks_block hd hadv hm hm') fun body ↦
        tracks_succeed (Stmt.relabel r) (.block t body)).sated
    · exact (tracks_branchStatement t).sated

private theorem skipFrom_map (last : Token) {ts : List Token}
    (h : behind = [] ∨ skipFrom last ts ≠ []) :
    skipFrom (r.token last) (ts.map r.token ++ behind) =
      (skipFrom last ts).map r.token ++ behind := by
  induction ts generalizing last with
  | nil =>
    rcases h with rfl | h
    · rfl
    · exact absurd rfl h
  | cons t rest ih =>
    rw [List.map_cons, List.cons_append]
    by_cases hstop : last.kind = .semicolon || startsStatement t.kind
    · have hleft : skipFrom last (t :: rest) = t :: rest := if_pos hstop
      rw [hleft]
      exact if_pos hstop
    · have hleft : skipFrom last (t :: rest) = skipFrom t rest := if_neg hstop
      rw [hleft] at h ⊢
      exact (if_neg hstop).trans (ih t h)

private theorem synchronize_map {ts : List Token} (h : behind = [] ∨ synchronize ts ≠ []) :
    synchronize (ts.map r.token ++ behind) = (synchronize ts).map r.token ++ behind := by
  cases ts with
  | nil =>
    rcases h with rfl | h
    · rfl
    · exact absurd rfl h
  | cons t rest => exact skipFrom_map t h

-- Where a parser gives up there is an error, so that it matters whether tokens are left.
private theorem tracks_recovering (hp : TracksStmt r behind n n' statement statement') :
    TracksDecl r behind n n' (recovering statement) (recovering statement') := by
  intro eof eof' ts hlt hlt'
  have h := hp eof eof' ts hlt hlt'
  unfold recovering
  rcases hR : statement eof ts with ⟨_ | s, rest, errors⟩
  · rw [hR] at h
    have herrors : errors ≠ [] := h.reports rfl
    refine ⟨(synchronize_suffix rest).trans h.suffix, nofun, h.needs, fun hu ↦ ?_⟩
    have hleft : behind = [] ∨ synchronize rest ≠ [] := by
      rcases hu with hu | hu | ⟨-, he, -⟩
      · exact .inl hu
      · exact .inr hu
      · exact absurd he herrors
    have hs := h.same (hleft.imp_right fun hne ↦ .inl fun hnil ↦ hne (by
      change rest = [] at hnil
      rw [hnil]
      rfl))
    rcases hR' : statement' eof' (ts.map r.token ++ behind) with ⟨value', rest', errors'⟩
    rw [hR'] at hs
    have hvalue : value' = none := hs.value
    have hrest : rest' = rest.map r.token ++ behind := hs.rest
    subst hvalue hrest
    exact ⟨rfl, synchronize_map hleft, hs.errors⟩
  · rw [hR] at h
    refine ⟨h.suffix, nofun, h.needs, fun hu ↦ ?_⟩
    have hs := h.same hu
    rcases hR' : statement' eof' (ts.map r.token ++ behind) with ⟨value', rest', errors'⟩
    rw [hR'] at hs
    have hvalue : value' = some (s.relabel r) := hs.value
    subst hvalue
    exact ⟨rfl, hs.rest, hs.errors⟩

-- A declaration, before it is known whether the parser gives up in it.
private theorem tracks_unrecovered (hs : TracksStmt r behind (n + 1) (n' + 1) statement statement')
    (hd : TracksDecl r behind n n' declaration declaration')
    (hadv : 0 < n → Advances declaration) :
    TracksStmt r behind (n + 1) (n' + 1)
      (do
        match ← accept? [.fun, .var] with
        | none => statement
        | some t =>
          if t.kind = .fun then funDeclaration declaration (n + 1) else varDeclaration (n + 1))
      (do
        match ← accept? [.fun, .var] with
        | none => statement'
        | some t =>
          if t.kind = .fun then funDeclaration declaration' (n' + 1)
          else varDeclaration (n' + 1)) := by
  apply tracks_accept?_needed hs
  intro t _
  dsimp only
  rw [Relabel.kind_token, Nat.add_sub_cancel, Nat.add_sub_cancel]
  split
  · exact (tracks_funDeclaration hd hadv (Nat.le_succ n) (Nat.le_succ n')).sated
  · exact (tracks_varDeclaration (Nat.le_succ n) (Nat.le_succ n')).sated

private theorem tracks_declarationWith
    (hs : TracksStmt r behind (n + 1) (n' + 1) statement statement')
    (hd : TracksDecl r behind n n' declaration declaration') (hadv : 0 < n → Advances declaration) :
    TracksDecl r behind (n + 1) (n' + 1) (declarationWith statement declaration (n + 1))
      (declarationWith statement' declaration' (n' + 1)) :=
  tracks_recovering (tracks_unrecovered hs hd hadv)

/-- With some fuel, a declaration goes on by a token if there is one. -/
theorem advances_declaration_of_pos (hn : 0 < n) : Advances (Parser.declaration n) := by
  obtain ⟨k, rfl⟩ := Nat.exists_eq_add_one_of_ne_zero (Nat.pos_iff_ne_zero.mp hn)
  exact advances_declaration k

/-- Statements and declarations do not depend on lines, names and bounds, nor on tokens that are not
looked at. -/
theorem tracks_statement_declaration (r : Relabel) (behind : List Token) (n n' : Nat) :
    TracksStmt r behind n n' (Parser.statement n) (Parser.statement n') ∧
      TracksDecl r behind n n' (Parser.declaration n) (Parser.declaration n') := by
  induction n generalizing n' with
  | zero => exact ⟨tracks_zero_left _ _ _ _ _, tracks_zero_left _ _ _ _ _⟩
  | succ n ih =>
    cases n' with
    | zero => exact ⟨tracks_zero_right _ _ _ _ _, tracks_zero_right _ _ _ _ _⟩
    | succ n' =>
      obtain ⟨hs, hd⟩ := ih n'
      have hstatement := tracks_statementWith hs hd advances_declaration_of_pos
      exact ⟨hstatement, tracks_declarationWith hstatement hd advances_declaration_of_pos⟩

private theorem errors_recovering_of_dropped {p : Parser (Stmt Unit)} {eof : Token}
    {ts : List Token} (hreports : (p eof ts).value = none → (p eof ts).errors ≠ [])
    (h : (recovering p eof ts).value = some none) : (recovering p eof ts).errors ≠ [] := by
  unfold recovering at h ⊢
  rcases hR : p eof ts with ⟨_ | s, rest, errors⟩
  · rw [hR] at hreports
    exact hreports rfl
  · rw [hR] at h
    cases h

/-- A declaration that is dropped has errors. -/
theorem errors_declaration_of_dropped {eof : Token} {ts : List Token} (hlt : ts.length < n)
    (h : (Parser.declaration n eof ts).value = some none) :
    (Parser.declaration n eof ts).errors ≠ [] := by
  cases n with
  | zero => omega
  | succ n =>
    obtain ⟨hs, hd⟩ := tracks_statement_declaration .same [] n n
    have hadv := advances_declaration_of_pos (n := n)
    have hreports :=
      (tracks_unrecovered (tracks_statementWith hs hd hadv) hd hadv eof eof ts hlt hlt).reports
    exact errors_recovering_of_dropped hreports h

end Statements

end Lox.Parser
