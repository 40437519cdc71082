import Lox.Proofs.Grammar.Expr
import Lox.Parser.Expr

/-!
# What parsers read without errors

`Succeeds p eof ts a rest` says that the parser `p` yields `a` from the tokens `ts`, leaves `rest`
and finds no errors. Each way of putting parsers together has an equivalence for it. `Reads n p R`
then says, for lists of fewer than `n` tokens, that `p` succeeds exactly where the relation `R`
holds of the tokens read, the value and the tokens behind; and the parser of each form of
expressions reads the expressions of its level that are not extended by what is behind them.
-/

namespace Lox.Parser

open Grammar

/-- A parser yields a value and leaves some tokens, without errors. -/
def Succeeds {α : Type} (p : Parser α) (eof : Token) (ts : List Token) (a : α) (rest : List Token) :
    Prop :=
  p eof ts = ⟨some a, rest, []⟩

/-- The next token, if there is one, is of none of the kinds. -/
def Avoids (kinds : List Kind) (ts : List Token) : Prop := ∀ t ∈ ts.head?, t.kind ∉ kinds

section Rules

variable {α β : Type} {eof : Token} {ts rest : List Token} {a : α} {b : β}

/-- Where there is no token, it is of none of the kinds. -/
@[simp] theorem avoids_nil (kinds : List Kind) : Avoids kinds [] := fun _ h ↦ nomatch h

/-- The next token counts, and no other. -/
@[simp] theorem avoids_cons (kinds : List Kind) (t : Token) (ts : List Token) :
    Avoids kinds (t :: ts) ↔ t.kind ∉ kinds := by
  simp [Avoids]

/-- To succeed is to have a value and no errors. -/
theorem succeeds_iff {p : Parser α} :
    Succeeds p eof ts a rest ↔
      (p eof ts).value = some a ∧ (p eof ts).rest = rest ∧ (p eof ts).errors = [] := by
  unfold Succeeds
  rcases p eof ts with ⟨value, left, errors⟩
  rw [Reply.mk.injEq]

/-- A value is yielded, and no token read. -/
@[simp] theorem succeeds_succeed {a' : α} :
    Succeeds (succeed a') eof ts a rest ↔ a = a' ∧ rest = ts := by
  unfold Succeeds succeed
  constructor
  · rintro ⟨⟩
    exact ⟨rfl, rfl⟩
  · rintro ⟨rfl, rfl⟩
    rfl

/-- To give up is no success. -/
@[simp] theorem not_succeeds_giveUp : ¬ Succeeds (giveUp : Parser α) eof ts a rest := nofun

/-- To fail is no success. -/
@[simp] theorem not_succeeds_fail {reason : StaticError.Reason} :
    ¬ Succeeds (fail reason : Parser α) eof ts a rest := nofun

/-- To report an error is no success. -/
@[simp] theorem not_succeeds_report {t : Token} {reason : StaticError.Reason} {u : Unit} :
    ¬ Succeeds (report t reason) eof ts u rest := nofun

/-- To report an error at the next token is no success. -/
@[simp] theorem not_succeeds_reportHere {reason : StaticError.Reason} {u : Unit} :
    ¬ Succeeds (reportHere reason) eof ts u rest := nofun

/-- Parsers one after the other succeed if both do. -/
theorem succeeds_bind {p : Parser α} {f : α → Parser β} :
    Succeeds (p >>= f) eof ts b rest ↔
      ∃ a mid, Succeeds p eof ts a mid ∧ Succeeds (f a) eof mid b rest := by
  change andThen p f eof ts = _ ↔ _
  unfold andThen Succeeds
  rcases p eof ts with ⟨_ | a, mid, errors⟩
  · simp
  · constructor
    · intro h
      simp only [Reply.mk.injEq, List.append_eq_nil_iff] at h
      obtain ⟨hvalue, hrest, rfl, herrors⟩ := h
      refine ⟨a, mid, rfl, ?_⟩
      rw [← hvalue, ← hrest, ← herrors]
    · rintro ⟨a', mid', h, h'⟩
      cases h
      change (⟨(f a eof mid).value, (f a eof mid).rest, [] ++ (f a eof mid).errors⟩ : Reply β) = _
      rw [h']
      rfl

private theorem succeeds_accept? {kinds : List Kind} {t? : Option Token} :
    Succeeds (accept? kinds) eof ts t? rest ↔
      (∃ t, t? = some t ∧ ts = t :: rest ∧ t.kind ∈ kinds) ∨
        (t? = none ∧ rest = ts ∧ Avoids kinds ts) := by
  unfold Succeeds accept?
  cases ts with
  | nil => simp [eq_comm]
  | cons t mid =>
    by_cases hk : t.kind ∈ kinds
    · simp only [hk, if_true, avoids_cons, not_true, and_false, or_false]
      constructor
      · rintro ⟨⟩
        exact ⟨t, rfl, rfl, hk⟩
      · rintro ⟨_, rfl, h, -⟩
        cases h
        rfl
    · simp only [hk, if_false, avoids_cons, not_false_iff, and_true]
      constructor
      · rintro ⟨⟩
        exact .inr ⟨rfl, rfl⟩
      · rintro (⟨_, -, h, hk'⟩ | ⟨rfl, rfl⟩)
        · cases h
          exact absurd hk' hk
        · rfl

/-- Asking for a token of some kinds, and going on with or without it. -/
theorem succeeds_accept?_bind {kinds : List Kind} {f : Option Token → Parser α} :
    Succeeds (accept? kinds >>= f) eof ts a rest ↔
      (∃ t mid, ts = t :: mid ∧ t.kind ∈ kinds ∧ Succeeds (f (some t)) eof mid a rest) ∨
        (Avoids kinds ts ∧ Succeeds (f none) eof ts a rest) := by
  simp only [succeeds_bind, succeeds_accept?]
  constructor
  · rintro ⟨t?, mid, ⟨t, rfl, rfl, hk⟩ | ⟨rfl, rfl, havoids⟩, h⟩
    · exact .inl ⟨t, mid, rfl, hk, h⟩
    · exact .inr ⟨havoids, h⟩
  · rintro (⟨t, mid, rfl, hk, h⟩ | ⟨havoids, h⟩)
    · exact ⟨some t, mid, .inl ⟨t, rfl, rfl, hk⟩, h⟩
    · exact ⟨none, ts, .inr ⟨rfl, rfl, havoids⟩, h⟩

/-- An expected token has to be there, and is read. -/
@[simp] theorem succeeds_expect {k : Kind} {reason : StaticError.Reason} {t : Token} :
    Succeeds (expect k reason) eof ts t rest ↔ ts = t :: rest ∧ t.kind = k := by
  unfold Succeeds expect
  cases ts with
  | nil => simp [fail]
  | cons t' mid =>
    by_cases hk : t'.kind = k
    · simp only [hk, if_true]
      constructor
      · rintro ⟨⟩
        exact ⟨rfl, hk⟩
      · rintro ⟨h, -⟩
        cases h
        rfl
    · simp only [hk, if_false, fail, Reply.mk.injEq, reduceCtorEq, false_and, false_iff]
      rintro ⟨h, hk'⟩
      cases h
      exact hk hk'

/-- Demanding a token of a kind, and going on with it. -/
theorem succeeds_expect_bind {k : Kind} {reason : StaticError.Reason} {f : Token → Parser α} :
    Succeeds (expect k reason >>= f) eof ts a rest ↔
      ∃ t mid, ts = t :: mid ∧ t.kind = k ∧ Succeeds (f t) eof mid a rest := by
  simp only [succeeds_bind, succeeds_expect, and_assoc]

private theorem succeeds_next {k : Kind} {b : Bool} :
    Succeeds (next k) eof ts b rest ↔
      rest = ts ∧ ((b = true ∧ ∃ t mid, ts = t :: mid ∧ t.kind = k) ∨
        (b = false ∧ Avoids [k] ts)) := by
  unfold Succeeds next
  cases ts with
  | nil => simp [eq_comm, and_comm]
  | cons t mid =>
    by_cases hk : t.kind = k
    · simp [hk, eq_comm, and_comm]
    · have hk' : (t.kind == k) = false := beq_false_of_ne hk
      simp [hk, hk', Ne.symm hk, eq_comm, and_comm]

/-- Looking at the next token, and going on by its kind. -/
theorem succeeds_next_bind {k : Kind} {f : Bool → Parser α} :
    Succeeds (next k >>= f) eof ts a rest ↔
      (∃ t mid, ts = t :: mid ∧ t.kind = k ∧ Succeeds (f true) eof (t :: mid) a rest) ∨
        (Avoids [k] ts ∧ Succeeds (f false) eof ts a rest) := by
  simp only [succeeds_bind, succeeds_next]
  constructor
  · rintro ⟨b, mid, ⟨rfl, ⟨rfl, t, mid, rfl, hk⟩ | ⟨rfl, havoids⟩⟩, h⟩
    · exact .inl ⟨t, mid, rfl, hk, h⟩
    · exact .inr ⟨havoids, h⟩
  · rintro (⟨t, mid, rfl, hk, h⟩ | ⟨havoids, h⟩)
    · exact ⟨true, _, ⟨rfl, .inl ⟨rfl, t, mid, rfl, hk⟩⟩, h⟩
    · exact ⟨false, _, ⟨rfl, .inr ⟨rfl, havoids⟩⟩, h⟩

/-- Whether there is no token left is told, and none is read. -/
@[simp] theorem succeeds_atEnd {b : Bool} :
    Succeeds atEnd eof ts b rest ↔ b = ts.isEmpty ∧ rest = ts := by
  unfold Succeeds atEnd
  simp [eq_comm]

/-- A parser that yields a value and finds no errors succeeds. -/
theorem exists_succeeds {p : Parser α} (hvalue : (p eof ts).value ≠ none)
    (herrors : (p eof ts).errors = []) : ∃ a rest, Succeeds p eof ts a rest := by
  obtain ⟨a, ha⟩ := Option.ne_none_iff_exists'.mp hvalue
  exact ⟨a, (p eof ts).rest, succeeds_iff.mpr ⟨ha, rfl, herrors⟩⟩

/-- On fewer than `n` tokens, a parser succeeds exactly where `R` holds of the tokens it reads, of
its value and of the tokens behind. -/
def Reads (n : Nat) (p : Parser α) (R : List Token → α → List Token → Prop) : Prop :=
  ∀ eof ts a rest, ts.length < n →
    (Succeeds p eof ts a rest ↔ ∃ used, ts = used ++ rest ∧ R used a rest)

private theorem Reads.mono {p : Parser α} {R : List Token → α → List Token → Prop} {m n : Nat}
    (h : Reads n p R) (hm : m ≤ n) : Reads m p R :=
  fun eof ts a rest hlt ↦ h eof ts a rest (Nat.lt_of_lt_of_le hlt hm)

end Rules

/-! ## Items with commas between them -/

section Lists

variable {α : Type} {item : Parser α} {R : List Token → α → Prop} {F : List Token → Prop}

/-- At most 255 items, each of some tokens, with commas between them. -/
structure Items (R : List Token → α → Prop) (items : List (List Token × α)) (used : List Token) :
    Prop where
  each : ∀ i ∈ items, R i.1 i.2
  listed : Listed (items.map Prod.fst) used

/-- A parser reads one item and, after a comma, further ones; too many of them are an error. -/
def Repeats (list : Nat → Nat → Parser (List α)) (item : Parser α) (reason : StaticError.Reason) :
    Prop :=
  ∀ m count, list (m + 1) count = do
    if maxArguments ≤ count then reportHere reason
    let a ← item
    match ← accept? [.comma] with
    | none => succeed [a]
    | some _ =>
      let as ← list m (count + 1)
      succeed (a :: as)

variable {list : Nat → Nat → Parser (List α)} {reason : StaticError.Reason}

private theorem Repeats.succeeds (h : Repeats list item reason) {m count : Nat} {eof : Token}
    {ts rest : List Token} {as : List α} :
    Succeeds (list (m + 1) count) eof ts as rest ↔
      count < 255 ∧ ∃ a mid, Succeeds item eof ts a mid ∧
        ((∃ t mid', mid = t :: mid' ∧ t.kind = .comma ∧
            ∃ as', Succeeds (list m (count + 1)) eof mid' as' rest ∧ as = a :: as') ∨
          (Avoids [.comma] mid ∧ as = [a] ∧ rest = mid)) := by
  rw [h]
  by_cases hcount : maxArguments ≤ count
  · have hnot : ¬ count < 255 := Nat.not_lt.mpr hcount
    simp [hcount, hnot, succeeds_bind]
  · have hlt : count < 255 := Nat.lt_of_not_le hcount
    simp only [hcount, if_false, hlt, true_and]
    rw [succeeds_bind]
    refine exists_congr fun a ↦ exists_congr fun mid ↦ and_congr_right fun _ ↦ ?_
    rw [succeeds_accept?_bind]
    refine or_congr ?_ (and_congr_right fun _ ↦ succeeds_succeed)
    refine exists_congr fun t ↦ exists_congr fun mid' ↦ and_congr_right fun _ ↦ ?_
    rw [succeeds_bind, List.mem_singleton]
    refine and_congr_right fun _ ↦ ⟨?_, ?_⟩
    · rintro ⟨as', mid'', has, h⟩
      obtain ⟨rfl, rfl⟩ := succeeds_succeed.mp h
      exact ⟨as', has, rfl⟩
    · rintro ⟨as', has, rfl⟩
      exact ⟨as', rest, has, succeeds_succeed.mpr ⟨rfl, rfl⟩⟩

/-- At least one item, when `count` of them were read before. -/
theorem Repeats.reads (h : Repeats list item reason) {n : Nat}
    (hitem : Reads n item fun used a rest ↦ R used a ∧ F rest)
    (hcomma : ∀ t rest, t.kind = .comma → F (t :: rest))
    (hne : ∀ used a, R used a → used ≠ []) {m : Nat} (hm : n ≤ m) (count : Nat) :
    Reads n (list m count) fun used as rest ↦
      ∃ items, Items R items used ∧ items ≠ [] ∧ count + items.length ≤ 255 ∧
        as = items.map Prod.snd ∧ F rest ∧ Avoids [.comma] rest := by
  intro eof ts as rest hlt
  have hlt' : ts.length < m := Nat.lt_of_lt_of_le hlt hm
  clear hm
  induction m generalizing count ts as with
  | zero => omega
  | succ m ih =>
    rw [h.succeeds]
    constructor
    · rintro ⟨hcount, a, mid, ha, hmore⟩
      obtain ⟨used, rfl, hR, hF⟩ := (hitem eof ts a mid hlt).mp ha
      have hlen := List.length_pos_iff.mpr (hne used a hR)
      simp only [List.length_append] at hlt hlt'
      rcases hmore with ⟨t, mid', rfl, ht, as', has, rfl⟩ | ⟨havoids, rfl, rfl⟩
      · simp only [List.length_cons] at hlt hlt'
        obtain ⟨used', rfl, items, hitems, hnil, hle, rfl, hrest⟩ :=
          (ih (count + 1) mid' as' (by omega) (by omega)).mp has
        refine ⟨used ++ t :: used', by simp, (used, a) :: items, ⟨?_, ?_⟩, by simp, ?_, rfl, hrest⟩
        · exact List.forall_mem_cons.mpr ⟨hR, hitems.each⟩
        · exact .cons (by simpa using hnil) ht hitems.listed
        · rw [List.length_cons]
          omega
      · refine ⟨used, rfl, [(used, a)], ⟨by simpa using hR, .one used⟩, by simp, ?_, rfl, hF,
          havoids⟩
        exact Nat.succ_le_of_lt hcount
    · rintro ⟨used, rfl, items, ⟨heach, hlisted⟩, hnil, hle, rfl, hF, havoids⟩
      obtain ⟨⟨us, a⟩, items, rfl⟩ := List.exists_cons_of_ne_nil hnil
      obtain ⟨hR, heach⟩ := List.forall_mem_cons.mp heach
      have hlen := List.length_pos_iff.mpr (hne us a hR)
      simp only [List.length_cons, List.map_cons] at hle hlisted ⊢
      refine ⟨by omega, a, ?_⟩
      by_cases hitems : items = []
      · subst hitems
        obtain rfl := listed_singleton.mp hlisted
        exact ⟨rest, (hitem _ _ _ _ hlt).mpr ⟨used, rfl, hR, hF⟩, .inr ⟨havoids, rfl, rfl⟩⟩
      · obtain ⟨t, vs, rfl, ht, hmore⟩ := (listed_cons (by simpa using hitems)).mp hlisted
        rw [List.append_assoc] at hlt hlt' ⊢
        refine ⟨t :: (vs ++ rest), (hitem _ _ _ _ hlt).mpr ⟨us, rfl, hR, hcomma _ _ ht⟩,
          .inl ⟨t, vs ++ rest, rfl, ht, items.map Prod.snd, ?_, rfl⟩⟩
        simp only [List.length_append, List.length_cons] at hlt hlt'
        exact (ih (count + 1) _ _ (by simp; omega) (by simp; omega)).mpr
          ⟨vs, rfl, items, ⟨heach, hmore⟩, hitems, by omega, rfl, hF, havoids⟩

/-- Any number of items up to 255, and the parenthesis that closes them. -/
theorem Repeats.succeeds_closed (h : Repeats list item reason) {n m : Nat} {eof : Token}
    {ts rest : List Token} (hitem : Reads n item fun used a rest ↦ R used a ∧ F rest)
    (hF : ∀ t rest, t.kind = .comma ∨ t.kind = .rightParen → F (t :: rest))
    (hbegins : ∀ used a, R used a → ∃ t us, used = t :: us ∧ t.kind ≠ .rightParen)
    (hn : ts.length < n) (hm : ts.length < m) {β : Type} {b : β} {reason' : StaticError.Reason}
    {f : List α → Token → Parser β} :
    Succeeds (do
        let as ← if ← next .rightParen then succeed [] else list m 0
        let right ← expect .rightParen reason'
        f as right) eof ts b rest ↔
      ∃ items us right mid, ts = us ++ right :: mid ∧ Items R items us ∧ items.length ≤ 255 ∧
        right.kind = .rightParen ∧ Succeeds (f (items.map Prod.snd) right) eof mid b rest := by
  have hne : ∀ used a, R used a → used ≠ [] := by
    intro used a hR
    obtain ⟨t, us, rfl, -⟩ := hbegins used a hR
    exact List.cons_ne_nil t us
  have hlist := h.reads (hitem.mono hn) (fun t rest ht ↦ hF t rest (.inl ht)) hne hm 0 eof ts
  rw [succeeds_next_bind]
  constructor
  · rintro (⟨t, mid, rfl, hk, h⟩ | ⟨-, h⟩)
    · obtain ⟨as, mid', has, h⟩ := succeeds_bind.mp h
      obtain ⟨rfl, rfl⟩ := succeeds_succeed.mp has
      obtain ⟨right, mid', hcons, hright, h⟩ := succeeds_expect_bind.mp h
      exact ⟨[], [], right, mid', hcons, ⟨by simp, .nil⟩, by simp, hright, h⟩
    · obtain ⟨as, mid, has, h⟩ := succeeds_bind.mp h
      obtain ⟨right, mid', rfl, hright, h⟩ := succeeds_expect_bind.mp h
      obtain ⟨us, rfl, items, hitems, -, hcount, rfl, -⟩ :=
        (hlist _ _ (Nat.lt_succ_self _)).mp has
      exact ⟨items, us, right, mid', rfl, hitems, by simpa using hcount, hright, h⟩
  · rintro ⟨items, us, right, mid, rfl, hitems, hcount, hright, h⟩
    have hclosed : Succeeds (expect .rightParen reason' >>= f (items.map Prod.snd)) eof
        (right :: mid) b rest :=
      succeeds_expect_bind.mpr ⟨right, mid, rfl, hright, h⟩
    rcases items with _ | ⟨⟨vs, a⟩, items⟩
    · obtain rfl : us = [] := listed_nil.mp hitems.listed
      exact .inl ⟨right, mid, rfl, hright,
        succeeds_bind.mpr ⟨[], _, succeeds_succeed.mpr ⟨rfl, rfl⟩, hclosed⟩⟩
    · refine .inr ⟨?_, succeeds_bind.mpr ⟨_, _, ?_, hclosed⟩⟩
      · obtain ⟨ws, rfl⟩ := hitems.listed.exists_append
        obtain ⟨t, us, rfl, ht⟩ := hbegins _ _ (hitems.each _ List.mem_cons_self)
        simpa using ht
      · exact (hlist _ _ (Nat.lt_succ_self _)).mpr ⟨us, rfl, _, hitems, by simp,
          by simpa using hcount, rfl, hF _ _ (.inr hright), by simp [hright]⟩

end Lists

/-! ## Expressions -/

section Expressions

/-- Tokens do not extend an expression of the level before them. -/
def Ends (l : Level) (ts : List Token) : Prop :=
  ∀ t ∈ ts.head?, ∀ m, t.kind.level? = some m → m < l

variable {l : Level} {n : Nat} {eof t : Token} {ts rest : List Token}

/-- No tokens extend no expression. -/
@[simp] theorem ends_nil (l : Level) : Ends l [] := fun _ h ↦ nomatch h

private theorem ends_cons : Ends l (t :: ts) ↔ ∀ m, t.kind.level? = some m → m < l := by
  simp [Ends]

/-- A token that goes on with no expression ends each. -/
theorem ends_of_level?_eq_none (h : t.kind.level? = none) : Ends l (t :: ts) := by
  simp [ends_cons, h]

private theorem ends_primary (ts : List Token) : Ends .primary ts :=
  fun _ _ _ h ↦ Kind.lt_primary_of_level? h

private theorem Ends.tighter (h : Ends l ts) : Ends l.tighter ts :=
  fun t ht m hm ↦ Level.lt_of_lt_of_le (h t ht m hm) l.le_tighter

/-- A chain ends where its last link does, unless there is a further one. -/
theorem ends_iff (hl : l < l.tighter) :
    Ends l ts ↔ Ends l.tighter ts ∧ ∀ t ∈ ts.head?, t.kind.level? ≠ some l := by
  constructor
  · exact fun h ↦ ⟨h.tighter, fun t ht hlevel ↦ Level.lt_irrefl l (h t ht l hlevel)⟩
  · rintro ⟨h, hne⟩ t ht m hm
    rcases (Level.lt_tighter_iff hl).mp (h t ht m hm) with hlt | rfl
    · exact hlt
    · exact absurd hm (hne t ht)

private theorem level?_eq_call_iff {k : Kind} : k.level? = some .call ↔ k = .leftParen := by
  cases k <;> simp [Kind.level?]

private theorem level?_eq_assignment_iff {k : Kind} : k.level? = some .assignment ↔ k = .equal := by
  cases k <;> simp [Kind.level?]

private theorem level?_ne_unary (k : Kind) : k.level? ≠ some .unary := by
  cases k <;> simp [Kind.level?]

private theorem ends_unary_iff : Ends .unary ts ↔ Ends .call ts :=
  (ends_iff (by decide)).trans (and_iff_left fun t _ ↦ level?_ne_unary t.kind)

private theorem ends_assignment_iff : Ends .assignment ts ↔ Ends .or ts ∧ Avoids [.equal] ts := by
  rw [ends_iff (by decide)]
  simp only [Avoids, List.mem_singleton, ne_eq, level?_eq_assignment_iff]
  rfl

/-- A parser reads the expressions of a level that are not extended by what is behind them. -/
abbrev ReadsExpr (n : Nat) (p : Parser (Expr Unit)) (l : Level) : Prop :=
  Reads n p fun used e rest ↦ Derives l used e ∧ Ends l rest

section Chains

variable {loop : Nat → Expr Unit → Parser (Expr Unit)}

/-- A loop stops before a token that is not of its level, or it reads an extension and goes on. -/
def Extends (n : Nat) (loop : Nat → Expr Unit → Parser (Expr Unit)) (l : Level) : Prop :=
  ∀ m x eof ts e rest, ts.length < n → ts.length < m + 1 →
    (Succeeds (loop (m + 1) x) eof ts e rest ↔
      (e = x ∧ rest = ts ∧ ∀ t ∈ ts.head?, t.kind.level? ≠ some l) ∨
        ∃ used y mid, ts = used ++ mid ∧ Extension l x used y ∧ Ends l.tighter mid ∧
          Succeeds (loop m y) eof mid e rest)

/-- Behind a link of a chain there is another one, or what is behind the chain. -/
theorem ends_before (hl : l < l.tighter) {x e : Expr Unit} {used : List Token}
    (h : Extended l x used e) (hrest : Ends l rest) : Ends l.tighter (used ++ rest) := by
  cases h with
  | refl => exact hrest.tighter
  | step hnext =>
    obtain ⟨t, us, rfl, ht⟩ := hnext.begins
    refine ends_cons.mpr fun m hm ↦ ?_
    rw [ht, Option.some.injEq] at hm
    exact hm ▸ hl

/-- A loop reads extensions of what was read before, as many as there are. -/
theorem Extends.reads (h : Extends n loop l) (hl : l < l.tighter) {m : Nat} {x e : Expr Unit}
    (hn : ts.length < n) (hm : ts.length < m) (hends : Ends l.tighter ts) :
    Succeeds (loop m x) eof ts e rest ↔
      ∃ used, ts = used ++ rest ∧ Extended l x used e ∧ Ends l rest := by
  induction m generalizing ts x with
  | zero => omega
  | succ m ih =>
    rw [h m x eof ts e rest hn hm]
    constructor
    · rintro (⟨rfl, rfl, hstop⟩ | ⟨used, y, mid, rfl, hused, hmid, hmore⟩)
      · exact ⟨[], rfl, .refl e, (ends_iff hl).mpr ⟨hends, hstop⟩⟩
      · obtain ⟨t, vs, rfl, -⟩ := hused.begins
        simp only [List.length_append, List.length_cons] at hn hm
        obtain ⟨used', rfl, hextended, hrest⟩ := (ih (by omega) (by omega) hmid).mp hmore
        exact ⟨t :: vs ++ used', by simp, .step hused hextended, hrest⟩
    · rintro ⟨used, rfl, hextended, hrest⟩
      cases hextended with
      | refl => exact .inl ⟨rfl, rfl, ((ends_iff hl).mp hrest).2⟩
      | @step _ y _ us vs hused hmore =>
        have hmid := ends_before hl hmore hrest
        obtain ⟨t, ws, rfl, -⟩ := hused.begins
        simp only [List.length_append, List.length_cons] at hn hm
        refine .inr ⟨_, y, vs ++ rest, List.append_assoc _ _ _, hused, hmid, ?_⟩
        exact (ih (by simp; omega) (by simp; omega) hmid).mpr ⟨vs, rfl, hmore, hrest⟩

/-- The parser of the next tighter form, and then a loop, read a chain. -/
theorem Extends.readsExpr (h : Extends n loop l) (hl : l.IsChain) {p : Parser (Expr Unit)}
    (hp : ReadsExpr n p l.tighter) {m : Nat} (hm : n ≤ m) : ReadsExpr n (p >>= loop m) l := by
  intro eof ts e rest hn
  rw [succeeds_bind]
  constructor
  · rintro ⟨x, mid, hp', hloop⟩
    obtain ⟨us, rfl, hx, hmid⟩ := (hp eof ts x mid hn).mp hp'
    rw [List.length_append] at hn
    obtain ⟨vs, rfl, hvs, hrest⟩ :=
      (h.reads hl.lt_tighter (by omega) (by omega) hmid).mp hloop
    exact ⟨us ++ vs, (List.append_assoc _ _ _).symm,
      (derives_iff_extended hl).mpr ⟨us, x, vs, rfl, hx, hvs⟩, hrest⟩
  · rintro ⟨used, rfl, he, hrest⟩
    obtain ⟨us, x, vs, rfl, hx, hvs⟩ := (derives_iff_extended hl).mp he
    have hmid := ends_before hl.lt_tighter hvs hrest
    rw [List.append_assoc] at hn ⊢
    refine ⟨x, vs ++ rest, (hp _ _ _ _ hn).mpr ⟨us, rfl, hx, hmid⟩, ?_⟩
    rw [List.length_append] at hn
    exact (h.reads hl.lt_tighter (by omega) (by omega) hmid).mpr ⟨vs, rfl, hvs, hrest⟩

/-- Operands with operators of a level between them. -/
theorem reads_chain {operand : Parser (Expr Unit)} {ops : List Kind}
    {node : Expr Unit → Token → Expr Unit → Expr Unit} (hoperand : ReadsExpr n operand l.tighter)
    (hnode : l.node? = some node) (hops : ∀ k, k ∈ ops ↔ k.level? = some l) {m : Nat}
    (hm : n ≤ m) : ReadsExpr n (chain operand ops node m) l := by
  have hloop : Extends n (chainFrom operand ops node) l := by
    intro m x eof ts e rest hn _
    rw [chainFrom, succeeds_accept?_bind]
    constructor
    · rintro (⟨op, mid, rfl, hop, h⟩ | ⟨havoids, h⟩)
      · obtain ⟨y, mid', hy, hmore⟩ := succeeds_bind.mp h
        obtain ⟨us, rfl, hy, hends⟩ :=
          (hoperand eof mid y mid' (Nat.lt_of_succ_lt hn)).mp hy
        exact .inr ⟨op :: us, _, mid', rfl, .operand hnode ((hops _).mp hop) hy, hends, hmore⟩
      · obtain ⟨rfl, rfl⟩ := succeeds_succeed.mp h
        exact .inl ⟨rfl, rfl, fun t ht hlevel ↦ havoids t ht ((hops _).mpr hlevel)⟩
    · rintro (⟨rfl, rfl, hstop⟩ | ⟨used, y, mid, rfl, hused, hends, hmore⟩)
      · exact .inr ⟨fun t ht hk ↦ hstop t ht ((hops _).mp hk), succeeds_succeed.mpr ⟨rfl, rfl⟩⟩
      · cases hused with
        | operand hnode' hop hy =>
          cases hnode.symm.trans hnode'
          refine .inl ⟨_, _, rfl, (hops _).mpr hop, succeeds_bind.mpr ⟨_, mid, ?_, hmore⟩⟩
          exact (hoperand _ _ _ _ (Nat.lt_of_succ_lt hn)).mpr ⟨_, rfl, hy, hends⟩
        | arguments => cases hnode
  exact hloop.readsExpr (.inl (by simp [hnode])) hoperand hm

end Chains

section Forms

variable {expr : Parser (Expr Unit)}

private theorem reads_primary (hexpr : ReadsExpr n expr .assignment) :
    ReadsExpr (n + 1) (primary expr) .primary := by
  intro eof ts e rest hn
  rw [primary, succeeds_accept?_bind]
  constructor
  · rintro (⟨t, mid, rfl, hk, h⟩ | ⟨-, h⟩)
    · simp only [List.mem_cons, List.not_mem_nil, or_false] at hk
      have hliteral : ∀ {v}, t.value? = some v → Succeeds (succeed (.literal t v)) eof mid e rest →
          ∃ used, t :: mid = used ++ rest ∧ Derives .primary used e ∧ Ends .primary rest := by
        intro v hv h
        obtain ⟨rfl, rfl⟩ := succeeds_succeed.mp h
        exact ⟨[t], rfl, .literal hv, ends_primary rest⟩
      rcases hk with hk | hk | hk | hk | hk | hk | hk <;> simp only [hk] at h
      · exact hliteral (by simp [Token.value?, hk]) h
      · exact hliteral (by simp [Token.value?, hk]) h
      · exact hliteral (by simp [Token.value?, hk]) h
      · exact hliteral (by simp [Token.value?, hk]) h
      · exact hliteral (by simp [Token.value?, hk]) h
      · obtain ⟨rfl, rfl⟩ := succeeds_succeed.mp h
        exact ⟨[t], rfl, .variable hk, ends_primary rest⟩
      · obtain ⟨x, mid', hx, h⟩ := succeeds_bind.mp h
        obtain ⟨right, mid'', rfl, hright, h⟩ := succeeds_expect_bind.mp h
        obtain ⟨rfl, rfl⟩ := succeeds_succeed.mp h
        obtain ⟨us, rfl, hx, -⟩ := (hexpr _ _ _ _ (Nat.lt_of_succ_lt_succ hn)).mp hx
        exact ⟨t :: (us ++ [right]), by simp, .grouping hk hx hright, ends_primary rest⟩
    · exact absurd h not_succeeds_fail
  · rintro ⟨used, rfl, hused, -⟩
    rcases derives_primary.mp hused with ⟨t, v, hv, rfl, rfl⟩ | ⟨t, ht, rfl, rfl⟩ |
      ⟨left, us, x, right, hleft, hx, hright, rfl, rfl⟩
    · refine .inl ⟨t, rest, rfl, mem_primary_of_value? hv, ?_⟩
      unfold Token.value? at hv
      split at hv <;> simp_all
    · exact .inl ⟨t, rest, rfl, by simp [ht], by simp [ht]⟩
    · refine .inl ⟨left, us ++ right :: rest, by simp, by simp [hleft], ?_⟩
      simp only [hleft]
      refine succeeds_bind.mpr ⟨x, right :: rest, ?_, ?_⟩
      · refine (hexpr _ _ _ _ ?_).mpr ⟨us, rfl, hx, ends_of_level?_eq_none (by rw [hright]; rfl)⟩
        simpa using hn
      · exact succeeds_expect_bind.mpr ⟨right, rest, rfl, hright, succeeds_succeed.mpr ⟨rfl, rfl⟩⟩

/-- No expression begins with a token of another kind. -/
theorem avoids_of_derives {k : Kind} (hk : k ∉ Kind.primary ++ Kind.unary) {used : List Token}
    {e : Expr Unit} (h : Derives l used e) : Avoids [k] (used ++ rest) := by
  obtain ⟨t, us, rfl, ht⟩ := h.exists_cons
  rw [List.cons_append, avoids_cons, List.mem_singleton]
  exact ne_of_mem_of_not_mem ht hk

/-- What a call adds to its callee, after the opening parenthesis. -/
theorem succeeds_finishCall (hexpr : ReadsExpr n expr .assignment) {m : Nat}
    {callee e : Expr Unit} (hn : ts.length < n) (hm : ts.length < m) :
    Succeeds (finishCall expr m callee) eof ts e rest ↔
      ∃ items us right, ts = us ++ right :: rest ∧ Items (Derives .assignment) items us ∧
        items.length ≤ 255 ∧ right.kind = .rightParen ∧
        e = .call callee right (items.map Prod.snd) := by
  have hrepeats : Repeats (arguments expr) expr .tooManyArguments := fun _ _ ↦ rfl
  have hends : ∀ t rest, t.kind = .comma ∨ t.kind = .rightParen → Ends .assignment (t :: rest) := by
    rintro t rest (ht | ht)
    · exact ends_of_level?_eq_none (by rw [ht]; rfl)
    · exact ends_of_level?_eq_none (by rw [ht]; rfl)
  have hbegins : ∀ used e, Derives .assignment used e →
      ∃ t us, used = t :: us ∧ t.kind ≠ .rightParen := by
    intro used e h
    obtain ⟨t, us, rfl, ht⟩ := h.exists_cons
    exact ⟨t, us, rfl, ne_of_mem_of_not_mem ht (by decide)⟩
  refine (hrepeats.succeeds_closed hexpr hends hbegins hn hm).trans ?_
  simp only [succeeds_succeed]
  constructor
  · rintro ⟨items, us, right, mid, rfl, hitems, hcount, hright, rfl, rfl⟩
    exact ⟨items, us, right, rfl, hitems, hcount, hright, rfl⟩
  · rintro ⟨items, us, right, rfl, hitems, hcount, hright, rfl⟩
    exact ⟨items, us, right, rest, rfl, hitems, hcount, hright, rfl, rfl⟩

private theorem reads_call (hexpr : ReadsExpr n expr .assignment) {b m : Nat} (hb : b ≤ n + 1)
    (hm : b ≤ m) : ReadsExpr b (call expr m) .call := by
  have hloop : Extends b (callsFrom expr) .call := by
    intro m x eof ts e rest hlt hlt'
    rw [callsFrom, succeeds_accept?_bind]
    constructor
    · rintro (⟨left, mid, rfl, hk, h⟩ | ⟨havoids, h⟩)
      · obtain ⟨y, mid', hy, hmore⟩ := succeeds_bind.mp h
        simp only [List.length_cons] at hlt hlt'
        obtain ⟨items, us, right, rfl, hitems, hcount, hright, rfl⟩ :=
          (succeeds_finishCall hexpr (by omega) (by omega)).mp hy
        refine .inr ⟨left :: (us ++ [right]), _, mid', by simp, ?_, ends_primary mid', hmore⟩
        exact .arguments (by simpa using hk) hitems.each hitems.listed hcount hright
      · obtain ⟨rfl, rfl⟩ := succeeds_succeed.mp h
        refine .inl ⟨rfl, rfl, fun t ht hlevel ↦ havoids t ht ?_⟩
        exact List.mem_singleton.mpr (level?_eq_call_iff.mp hlevel)
    · rintro (⟨rfl, rfl, hstop⟩ | ⟨used, y, mid, rfl, hused, hends, hmore⟩)
      · refine .inr ⟨fun t ht hk ↦ hstop t ht ?_, succeeds_succeed.mpr ⟨rfl, rfl⟩⟩
        exact level?_eq_call_iff.mpr (List.mem_singleton.mp hk)
      · cases hused with
        | operand hnode => cases hnode
        | @arguments left right us _ items hleft hargs hlisted hcount hright =>
          simp only [List.cons_append, List.length_cons, List.append_assoc] at hlt hlt' ⊢
          refine .inl ⟨left, _, rfl, by simp [hleft], succeeds_bind.mpr ⟨_, mid, ?_, hmore⟩⟩
          exact (succeeds_finishCall hexpr (by omega) (by omega)).mpr
            ⟨items, us, right, rfl, ⟨hargs, hlisted⟩, hcount, hright, rfl⟩
  exact hloop.readsExpr (.inr rfl) ((reads_primary hexpr).mono hb) hm

/-- Prefix operators do not begin a call. -/
theorem reads_unary (hexpr : ReadsExpr n expr .assignment) {b m : Nat} (hb : b ≤ n + 1)
    (hm : b ≤ m) : ReadsExpr b (unary expr m) .unary := by
  induction m generalizing b with
  | zero =>
    intro eof ts e rest hlt
    omega
  | succ m ih =>
    intro eof ts e rest hlt
    have hcall := reads_call hexpr hb hm eof ts e rest hlt
    rw [unary, succeeds_accept?_bind]
    constructor
    · rintro (⟨op, mid, rfl, hop, h⟩ | ⟨-, h⟩)
      · obtain ⟨x, mid', hx, h⟩ := succeeds_bind.mp h
        obtain ⟨rfl, rfl⟩ := succeeds_succeed.mp h
        rw [List.length_cons] at hlt
        obtain ⟨us, rfl, hx, hends⟩ :=
          (ih (b := mid.length + 1) (by omega) (by omega) _ _ _ _ (Nat.lt_succ_self _)).mp hx
        exact ⟨op :: us, rfl, .unary hop hx, hends⟩
      · obtain ⟨used, rfl, hused, hends⟩ := hcall.mp h
        exact ⟨used, rfl, hused.loosen (by decide), ends_unary_iff.mpr hends⟩
    · rintro ⟨used, rfl, hused, hends⟩
      cases hused with
      | tighter hused =>
        refine .inr ⟨?_, hcall.mpr ⟨used, rfl, hused, ends_unary_iff.mp hends⟩⟩
        obtain ⟨t, us, rfl, ht | ⟨hle, -⟩⟩ := hused.begins
        · rw [List.cons_append, avoids_cons]
          have hdisjoint : ∀ k ∈ Kind.primary, k ∉ [Kind.bang, Kind.minus] := by decide
          exact hdisjoint t.kind ht
        · exact absurd hle (by decide)
      | chain hnode => cases hnode
      | @unary op us x hop hx =>
        refine .inl ⟨op, us ++ rest, rfl, hop, succeeds_bind.mpr ⟨x, rest, ?_, ?_⟩⟩
        · rw [List.cons_append, List.length_cons] at hlt
          exact (ih (b := (us ++ rest).length + 1) (by omega) (by omega) _ _ _ _
            (Nat.lt_succ_self _)).mpr ⟨us, rfl, hx, hends⟩
        · exact succeeds_succeed.mpr ⟨rfl, rfl⟩

private theorem reads_disjunction (hexpr : ReadsExpr n expr .assignment) :
    ReadsExpr (n + 1) (disjunction expr (n + 1)) .or := by
  have hle := Nat.le_refl (n + 1)
  have hunary : ReadsExpr (n + 1) (unary expr (n + 1)) .unary := reads_unary hexpr hle hle
  have hfactor : ReadsExpr (n + 1) (factor expr (n + 1)) .factor :=
    reads_chain hunary rfl (fun k ↦ by cases k <;> simp [Kind.level?]) hle
  have hterm : ReadsExpr (n + 1) (term expr (n + 1)) .term :=
    reads_chain hfactor rfl (fun k ↦ by cases k <;> simp [Kind.level?]) hle
  have hcomparison : ReadsExpr (n + 1) (comparison expr (n + 1)) .comparison :=
    reads_chain hterm rfl (fun k ↦ by cases k <;> simp [Kind.level?]) hle
  have hequality : ReadsExpr (n + 1) (equality expr (n + 1)) .equality :=
    reads_chain hcomparison rfl (fun k ↦ by cases k <;> simp [Kind.level?]) hle
  have hconjunction : ReadsExpr (n + 1) (conjunction expr (n + 1)) .and :=
    reads_chain hequality rfl (fun k ↦ by cases k <;> simp [Kind.level?]) hle
  exact reads_chain hconjunction rfl (fun k ↦ by cases k <;> simp [Kind.level?]) hle

end Forms

/-- The parser of expressions reads the expressions of the grammar. The target of an assignment was
read as an expression, but a name alone is its token alone. -/
theorem reads_expression (n : Nat) : ReadsExpr n (expression n) .assignment := by
  induction n with
  | zero =>
    intro eof ts e rest hlt
    omega
  | succ n ih =>
    intro eof ts e rest hlt
    have hor := reads_disjunction ih eof ts
    rw [expression, succeeds_bind]
    constructor
    · rintro ⟨x, mid, hdisjunction, h⟩
      obtain ⟨used, rfl, hx, hmid⟩ := (hor x mid hlt).mp hdisjunction
      rcases succeeds_accept?_bind.mp h with ⟨equals, mid', rfl, hequals, h⟩ | ⟨havoids, h⟩
      · obtain ⟨value, mid'', hvalue, h⟩ := succeeds_bind.mp h
        cases x with
        | «variable» name u =>
          obtain ⟨rfl, hname⟩ := hx.eq_of_variable
          obtain ⟨rfl, rfl⟩ := succeeds_succeed.mp h
          obtain ⟨us, rfl, hvalue, hends⟩ :=
            (ih _ _ _ _ (by simp only [List.length_append, List.length_cons] at hlt; omega)).mp
              hvalue
          exact ⟨name :: equals :: us, rfl, .assign hname (List.mem_singleton.mp hequals) hvalue,
            hends⟩
        | _ => simp [succeeds_bind] at h
      · obtain ⟨rfl, rfl⟩ := succeeds_succeed.mp h
        exact ⟨used, rfl, hx.loosen (by decide), ends_assignment_iff.mpr ⟨hmid, havoids⟩⟩
    · rintro ⟨used, rfl, hused, hends⟩
      cases hused with
      | tighter hused =>
        obtain ⟨hends, havoids⟩ := ends_assignment_iff.mp hends
        refine ⟨e, rest, (hor e rest hlt).mpr ⟨used, rfl, hused, hends⟩, ?_⟩
        exact succeeds_accept?_bind.mpr (.inr ⟨havoids, succeeds_succeed.mpr ⟨rfl, rfl⟩⟩)
      | chain hnode => cases hnode
      | @assign name equals us value hname hequals hvalue =>
        have hname' : Derives .or [name] (.variable name ()) :=
          (Derives.variable hname).loosen (by decide)
        have hends' : Ends .or (equals :: (us ++ rest)) := by
          refine ends_cons.mpr fun m hm ↦ ?_
          rw [hequals] at hm
          cases hm
          decide
        refine ⟨.variable name (), equals :: (us ++ rest),
          (hor _ _ hlt).mpr ⟨[name], rfl, hname', hends'⟩, succeeds_accept?_bind.mpr (.inl
            ⟨equals, us ++ rest, rfl, by simp [hequals], succeeds_bind.mpr ⟨value, rest, ?_, ?_⟩⟩)⟩
        · simp only [List.cons_append, List.length_cons] at hlt
          exact (ih _ _ _ _ (by omega)).mpr ⟨us, rfl, hvalue, hends⟩
        · exact succeeds_succeed.mpr ⟨rfl, rfl⟩

end Expressions

end Lox.Parser
