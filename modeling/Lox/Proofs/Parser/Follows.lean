import Lox.Proofs.Parser.Indexed
import Lox.Proofs.Parser.Tracks

/-!
# The parser on positions, step by step

Where a parser on positions stands is described by the tokens ahead of it, up to the first end of
the source (`Cursor.Stands`). As long as it only asks for the next token, or for the one just
passed, no index is out of range and nothing behind that end is looked at: what each single step
does is an equation.

The relation `Follows` says that a parser on positions always comes to a result, and to the same one
as a parser that is given the remaining tokens: the value or that it gave up, the errors, and how
far it went. Each way of putting parsers together has a rule. On the way the records of calls for
declarations are seen to be of sound calls (`Call.Sound`).
-/

namespace Lox.Indexed

/-! ## Where the parser stands -/

namespace Cursor

/-- The cursor one token further. -/
def next (c : Cursor) : Cursor := { c with current := c.current + 1 }

/-- The tokens `ts` are before the cursor, and then the first end of the source. -/
structure Stands (c : Cursor) (eof : Token) (ts : List Token) : Prop where
  ahead : ts ++ [eof] <+: c.tokens.drop c.current
  passed : ∀ t ∈ c.tokens.take c.current, t.kind ≠ .eof
  left : ∀ t ∈ ts, t.kind ≠ .eof
  ends : eof.kind = .eof

/-- The token just passed. -/
def Passed (c : Cursor) (t : Token) : Prop := ∃ i, c.current = i + 1 ∧ c.tokens[i]? = some t

variable {c : Cursor} {eof t : Token} {ts rest : List Token}

private theorem Stands.getElem? (h : c.Stands eof ts) :
    c.tokens[c.current]? = some (ts.headD eof) := by
  have hhead : (c.tokens.drop c.current)[0]? = some (ts.headD eof) := by
    obtain ⟨after, hafter⟩ := h.ahead
    rw [← hafter]
    cases ts <;> rfl
  rwa [List.getElem?_drop, Nat.add_zero] at hhead

/-- Behind the first token stand the others. -/
theorem Stands.next (h : c.Stands eof (t :: rest)) : c.next.Stands eof rest := by
  obtain ⟨after, hafter⟩ := h.ahead
  have hget := h.getElem?
  refine ⟨⟨after, ?_⟩, ?_, fun t' ht' ↦ h.left t' (List.mem_cons_of_mem t ht'), h.ends⟩
  · have hdrop : c.tokens.drop (c.current + 1) = (c.tokens.drop c.current).tail := by
      rw [List.tail_drop]
    change rest ++ [eof] ++ after = c.tokens.drop (c.current + 1)
    rw [hdrop, ← hafter]
    rfl
  · intro t' ht'
    change t' ∈ c.tokens.take (c.current + 1) at ht'
    rw [List.take_add_one, hget] at ht'
    rcases List.mem_append.mp ht' with ht' | ht'
    · exact h.passed t' ht'
    · rw [List.mem_singleton.mp ht']
      exact h.left t List.mem_cons_self

/-- Behind the first position some token was passed. -/
theorem Stands.exists_passed (h : c.Stands eof ts) (hpos : 0 < c.current) : ∃ t, c.Passed t := by
  obtain ⟨i, hi⟩ := Nat.exists_eq_add_one_of_ne_zero (Nat.pos_iff_ne_zero.mp hpos)
  obtain ⟨hlt, -⟩ := List.getElem?_eq_some_iff.mp h.getElem?
  have hlt' : i < c.tokens.length := by omega
  exact ⟨c.tokens[i], i, hi, List.getElem?_eq_getElem hlt'⟩

/-- The token before the cursor is passed when it goes on. -/
theorem Stands.passed_next (h : c.Stands eof (t :: rest)) : c.next.Passed t :=
  ⟨c.current, rfl, h.getElem?⟩

end Cursor

/-! ## Single steps -/

section Steps

variable {α β : Type} {q : Reader α} {f : α → Reader β} {c c' : Cursor} {eof t : Token}
  {ts rest : List Token} {ks : List Kind} {k : Kind}

/-- After a reader that yields a value, its successor goes on. -/
theorem bind_of_ok {a : α} (h : q c = some (.ok a, c')) : (q >>= f) c = f a c' := by
  change (q c).bind _ = _
  rw [h]
  rfl

/-- After a reader that halts, nothing is done. -/
theorem bind_of_error {halt : Halt} (h : q c = some (.error halt, c')) :
    (q >>= f) c = some (.error halt, c') := by
  change (q c).bind _ = _
  rw [h]
  rfl

private theorem get_eq (c : Cursor) : (get : Reader Cursor) c = some (.ok c, c) := rfl

/-- A token can be looked at if the source does not end before it. -/
theorem token_of_getElem? {i : Nat} (h : c.tokens[i]? = some t)
    (hpassed : ∀ t ∈ c.tokens.take i, t.kind ≠ .eof) : token i c = some (.ok t, c) := by
  have hany : (c.tokens.take i).any (·.kind == .eof) = false := by
    simpa using hpassed
  rw [token, bind_of_ok (get_eq c), h]
  dsimp only
  rw [hany]
  rfl

/-- The next token is the first that stands before the cursor, or the end of the source. -/
theorem peek_eq (h : c.Stands eof ts) : peek c = some (.ok (ts.headD eof), c) :=
  token_of_getElem? h.getElem? h.passed

/-- The previous token is the one that was passed. -/
theorem previous_eq (h : c.Stands eof ts) (hp : c.Passed t) : previous c = some (.ok t, c) := by
  obtain ⟨i, hi, ht⟩ := hp
  rw [previous, bind_of_ok (get_eq c), hi]
  refine token_of_getElem? ht fun t' ht' ↦ h.passed t' ?_
  rw [hi, List.take_add_one]
  exact List.mem_append_left _ ht'

private theorem pure_eq (a : α) (c : Cursor) : (pure a : Reader α) c = some (.ok a, c) := rfl

/-- The cursor is at the end if no token stands before it. -/
theorem atEnd_eq (h : c.Stands eof ts) : atEnd c = some (.ok ts.isEmpty, c) := by
  rw [atEnd, bind_of_ok (peek_eq h), pure_eq]
  cases ts with
  | nil => simp [h.ends]
  | cons t rest => simpa using h.left t List.mem_cons_self

/-- At the end of the source there is no token of any kind. -/
theorem check_nil (h : c.Stands eof []) : check k c = some (.ok false, c) := by
  rw [check, bind_of_ok (atEnd_eq h)]
  rfl

/-- The next token is checked by its kind. -/
theorem check_cons (h : c.Stands eof (t :: rest)) : check k c = some (.ok (t.kind == k), c) := by
  rw [check, bind_of_ok (atEnd_eq h)]
  exact bind_of_ok (peek_eq h)

/-- At the end of the source the cursor does not go on. -/
theorem advance_nil (h : c.Stands eof []) (hp : c.Passed t) : advance c = some (.ok t, c) := by
  rw [advance, bind_of_ok (atEnd_eq h)]
  exact previous_eq h hp

/-- The cursor goes on by one token. -/
theorem advance_cons (h : c.Stands eof (t :: rest)) : advance c = some (.ok t, c.next) := by
  rw [advance, bind_of_ok (atEnd_eq h)]
  exact (bind_of_ok rfl).trans (previous_eq h.next h.passed_next)

private theorem accept_nil (h : c.Stands eof []) : accept ks c = some (.ok false, c) := by
  induction ks with
  | nil => rfl
  | cons k ks ih =>
    rw [accept, bind_of_ok (check_nil h)]
    exact ih

private theorem accept_cons (h : c.Stands eof (t :: rest)) :
    accept ks c = some (.ok (decide (t.kind ∈ ks)), if t.kind ∈ ks then c.next else c) := by
  induction ks with
  | nil => rfl
  | cons k ks ih =>
    rw [accept, bind_of_ok (check_cons h)]
    by_cases hk : t.kind = k
    · simp only [hk, beq_self_eq_true, if_true, List.mem_cons, true_or, decide_true]
      exact (bind_of_ok (advance_cons h)).trans (pure_eq _ _)
    · simpa [hk] using ih

private theorem report_eq (t : Token) (reason : StaticError.Reason) (c : Cursor) :
    report t reason c =
      some (.ok (), { c with errors := c.errors ++ [.ofToken t reason] }) := rfl

private theorem reportHere_eq (h : c.Stands eof ts) (reason : StaticError.Reason) :
    reportHere reason c =
      some (.ok (), { c with errors := c.errors ++ [.ofToken (ts.headD eof) reason] }) := by
  rw [reportHere, bind_of_ok (peek_eq h), report_eq]

private theorem fail_eq (h : c.Stands eof ts) (reason : StaticError.Reason) :
    (fail reason : Reader α) c = some (.error .gaveUp,
      { c with errors := c.errors ++ [.ofToken (ts.headD eof) reason] }) := by
  rw [fail, bind_of_ok (reportHere_eq h reason)]
  rfl

private theorem expect_of_eq (h : c.Stands eof (t :: rest)) (hk : t.kind = k)
    (reason : StaticError.Reason) : expect k reason c = some (.ok t, c.next) := by
  rw [expect, bind_of_ok (check_cons h), if_pos (beq_iff_eq.mpr hk), advance_cons h]

private theorem expect_of_ne (h : c.Stands eof ts) (hk : ∀ t ∈ ts.head?, t.kind ≠ k)
    (reason : StaticError.Reason) : expect k reason c = some (.error .gaveUp,
      { c with errors := c.errors ++ [.ofToken (ts.headD eof) reason] }) := by
  cases ts with
  | nil =>
    rw [expect, bind_of_ok (check_nil h)]
    exact fail_eq h reason
  | cons t rest =>
    rw [expect, bind_of_ok (check_cons h), if_neg (mt beq_iff_eq.mp (hk t rfl)), fail_eq h]

end Steps

/-! ## The same as a parser on the remaining tokens -/

/-- A call for a declaration goes on by a token at least, and without a declaration it has found
errors. -/
structure Call.Sound (call : Call) : Prop where
  advances : call.start < call.stop
  reports : call.dropped = true → call.errors ≠ []

/-- What a value is, or that there is none, for a parser on positions. -/
def outcome {α : Type} : Option α → Except Halt α
  | some a => .ok a
  | none => .error .gaveUp

/-- The cursor went on as a parser did that was given the tokens `ts`. -/
structure Cursor.Reaches {α : Type} (c : Cursor) (ts : List Token) (R : Reply α) (c' : Cursor) :
    Prop where
  read : ∃ read, ts = read ++ R.rest ∧ c'.current = c.current + read.length
  tokens : c'.tokens = c.tokens
  errors : c'.errors = c.errors ++ R.errors
  calls : ∃ calls, c'.calls = calls ++ c.calls ∧ ∀ call ∈ calls, call.Sound

/-- There is a result, and it is that of a parser that was given the tokens `ts`. -/
def Agrees {α : Type} (c : Cursor) (ts : List Token) (R : Reply α)
    (result : Option (Except Halt α × Cursor)) : Prop :=
  ∃ c', result = some (outcome R.value, c') ∧ c.Reaches ts R c'

section Rules

variable {α β : Type} {c c' : Cursor} {eof t : Token} {ts rest : List Token} {n m : Nat}

/-- Where a parser stops, the tokens that it leaves stand before the cursor. -/
theorem Cursor.Stands.reaches {R : Reply α} (h : c.Stands eof ts) (hc : c.Reaches ts R c') :
    c'.Stands eof R.rest := by
  obtain ⟨read, hread, hcurrent⟩ := hc.read
  -- one token after the other
  have hgo : ∀ (read : List Token) (c : Cursor), c.Stands eof (read ++ R.rest) →
      (⟨c.tokens, c.current + read.length, c'.errors, c'.calls⟩ : Cursor).Stands eof R.rest := by
    intro read
    induction read with
    | nil => exact fun c h ↦ ⟨h.ahead, h.passed, h.left, h.ends⟩
    | cons t read ih =>
      intro c h
      have hnext := ih c.next h.next
      rwa [List.length_cons, Nat.add_comm read.length, ← Nat.add_assoc]
  have hall := hgo read c (hread ▸ h)
  rw [← hcurrent, ← hc.tokens] at hall
  exact hall

/-- A cursor that stays where it is reaches what a parser does that reads nothing. -/
theorem Cursor.Reaches.refl {a : Option α} : c.Reaches ts ⟨a, ts, []⟩ c :=
  ⟨⟨[], rfl, rfl⟩, rfl, (List.append_nil _).symm, [], rfl, List.forall_mem_nil _⟩

/-- What is done by two parsers one after the other. -/
theorem Cursor.Reaches.trans {R : Reply α} {R' : Reply β} {c'' : Cursor} (h : c.Reaches ts R c')
    (h' : c'.Reaches R.rest R' c'') :
    c.Reaches ts ⟨R'.value, R'.rest, R.errors ++ R'.errors⟩ c'' := by
  obtain ⟨read, hread, hcurrent⟩ := h.read
  obtain ⟨read', hread', hcurrent'⟩ := h'.read
  obtain ⟨calls, hcalls, hsound⟩ := h.calls
  obtain ⟨calls', hcalls', hsound'⟩ := h'.calls
  refine ⟨⟨read ++ read', ?_, ?_⟩, h'.tokens.trans h.tokens, ?_, calls' ++ calls, ?_,
    List.forall_mem_append.mpr ⟨hsound', hsound⟩⟩
  · rw [List.append_assoc, ← hread', hread]
  · rw [hcurrent', hcurrent, List.length_append, Nat.add_assoc]
  · rw [h'.errors, h.errors, List.append_assoc]
  · rw [hcalls', hcalls, List.append_assoc]

/-- A token that was read before. -/
theorem Agrees.next {R : Reply α} {result : Option (Except Halt α × Cursor)}
    (h : Agrees c.next rest R result) : Agrees c (t :: rest) R result := by
  obtain ⟨c', hresult, hc⟩ := h
  obtain ⟨read, hread, hcurrent⟩ := hc.read
  refine ⟨c', hresult, ⟨t :: read, congrArg (t :: ·) hread, ?_⟩, hc.tokens, hc.errors, hc.calls⟩
  rw [hcurrent, List.length_cons, Cursor.next, Nat.add_assoc, Nat.add_comm 1]

/-- From a place before the tokens `ts`, a parser on positions does what a parser does that is given
these tokens. -/
def FollowsAt (c : Cursor) (ts : List Token) (q : Reader α) (p : Parser α) : Prop :=
  ∀ eof, c.Stands eof ts → Agrees c ts (p eof ts) (q c)

/-- A parser on positions does what a parser does that is given the remaining tokens, if there are
fewer of them than its bound says. -/
def Follows (n : Nat) (q : Reader α) (p : Parser α) : Prop :=
  ∀ c ts, ts.length < n → FollowsAt c ts q p

/-- The same where a token was just passed. -/
def FollowsAfter (t : Token) (n : Nat) (q : Reader α) (p : Parser α) : Prop :=
  ∀ c ts, ts.length < n → c.Passed t → FollowsAt c ts q p

/-- The same where there is a token. -/
def FollowsToken (n : Nat) (q : Reader α) (p : Parser α) : Prop :=
  ∀ c t rest, (t :: rest).length < n → FollowsAt c (t :: rest) q p

variable {q : Reader α} {p : Parser α}

/-- What holds of every place holds where a token was just passed. -/
theorem Follows.after (h : Follows n q p) (t : Token) : FollowsAfter t n q p :=
  fun c ts hlt _ ↦ h c ts hlt

/-- What holds with a bound holds with smaller ones. -/
theorem Follows.mono (h : Follows n q p) (hm : m ≤ n) : Follows m q p :=
  fun c ts hlt ↦ h c ts (Nat.lt_of_lt_of_le hlt hm)

/-- Nothing is said of no tokens. -/
theorem follows_zero (q : Reader α) (p : Parser α) : Follows 0 q p :=
  fun _ _ hlt ↦ absurd hlt (Nat.not_lt_zero _)

/-- A value follows the same value. -/
theorem follows_pure (n : Nat) (a : α) : Follows n (pure a) (Parser.succeed a) :=
  fun c _ _ _ _ ↦ ⟨c, rfl, .refl⟩

/-- An error at a token follows the same error. -/
theorem follows_report (n : Nat) (t : Token) (reason : StaticError.Reason) :
    Follows n (report t reason) (Parser.report t reason) :=
  fun _ _ _ _ _ ↦ ⟨_, rfl, ⟨[], rfl, rfl⟩, rfl, rfl, [], rfl, List.forall_mem_nil _⟩

/-- An error at the next token follows the same error. -/
theorem follows_reportHere (n : Nat) (reason : StaticError.Reason) :
    Follows n (reportHere reason) (Parser.reportHere reason) :=
  fun _ _ _ _ hs ↦ ⟨_, reportHere_eq hs reason, ⟨[], rfl, rfl⟩, rfl, rfl, [], rfl,
    List.forall_mem_nil _⟩

/-- A failure follows the same failure. -/
theorem follows_fail (n : Nat) (reason : StaticError.Reason) :
    Follows n (fail reason : Reader α) (Parser.fail reason) :=
  fun _ _ _ _ hs ↦ ⟨_, fail_eq hs reason, ⟨[], rfl, rfl⟩, rfl, rfl, [], rfl,
    List.forall_mem_nil _⟩

/-- One parser after the other. -/
theorem followsAt_bind {f : α → Reader β} {g : α → Parser β} (h : FollowsAt c ts q p)
    (hf : ∀ a c' rest, rest.length ≤ ts.length → FollowsAt c' rest (f a) (g a)) :
    FollowsAt c ts (q >>= f) (p >>= g) := by
  intro eof hs
  obtain ⟨c', hq, hc⟩ := h eof hs
  change Agrees c ts (Parser.andThen p g eof ts) ((q >>= f) c)
  unfold Parser.andThen
  rcases hR : p eof ts with ⟨_ | a, rest, errors⟩ <;> rw [hR] at hq hc
  · exact ⟨c', bind_of_error hq, hc.read, hc.tokens, hc.errors, hc.calls⟩
  · obtain ⟨read, hread, -⟩ := hc.read
    have hle : rest.length ≤ ts.length := by
      rw [hread, List.length_append]
      exact Nat.le_add_left _ _
    obtain ⟨c'', hf', hc'⟩ := hf a c' rest hle eof (hs.reaches hc)
    exact ⟨c'', (bind_of_ok hq).trans hf', hc.trans hc'⟩

/-- Readers one after the other follow parsers one after the other. -/
theorem follows_bind {f : α → Reader β} {g : α → Parser β} (h : Follows n q p)
    (hf : ∀ a, Follows n (f a) (g a)) : Follows n (q >>= f) (p >>= g) :=
  fun c ts hlt ↦ followsAt_bind (h c ts hlt) fun a c' rest hle ↦
    hf a c' rest (Nat.lt_of_le_of_lt hle hlt)

/-- An error may be reported before. -/
theorem follows_reportHere_if {b : Prop} [Decidable b] {reason : StaticError.Reason}
    (h : Follows n q p) :
    Follows n (if b then reportHere reason >>= fun _ ↦ q else pure () >>= fun _ ↦ q)
      (if b then Parser.reportHere reason >>= fun _ ↦ p else p) := by
  split
  · exact follows_bind (follows_reportHere n reason) fun _ ↦ h
  · exact h

/-- A function of a value follows the same function of it. -/
theorem follows_map (h : Follows n q p) (f : α → β) :
    Follows n (f <$> q) (p >>= fun a ↦ Parser.succeed (f a)) := by
  rw [← bind_pure_comp]
  exact follows_bind h fun a ↦ follows_pure n (f a)

/-- Looking at the token just passed. -/
theorem follows_previous {f : Token → Reader α} (h : Follows n (f t) p) :
    FollowsAfter t n (previous >>= f) p := by
  intro c ts hlt hp eof hs
  rw [bind_of_ok (previous_eq hs hp)]
  exact h c ts hlt eof hs

/-- Asking for a token of some kinds, and then for one of others. -/
theorem follows_accept_first {ks ks' : List Kind} {f : Bool → Reader α}
    {g : Option Token → Parser α} (hother : Follows n (f false) (Parser.accept? ks' >>= g))
    (hsome : ∀ t, t.kind ∈ ks → FollowsAfter t (n - 1) (f true) (g (some t))) :
    Follows n (accept ks >>= f) (Parser.accept? (ks ++ ks') >>= g) := by
  intro c ts hlt eof hs
  cases ts with
  | nil =>
    rw [bind_of_ok (accept_nil hs)]
    exact hother c [] hlt eof hs
  | cons t rest =>
    by_cases hk : t.kind ∈ ks
    · rw [Parser.accept?_bind_of_mem (List.mem_append_left ks' hk), bind_of_ok (accept_cons hs),
        if_pos hk, decide_eq_true hk]
      exact (hsome t hk c.next rest (Nat.lt_sub_of_add_lt hlt) hs.passed_next eof hs.next).next
    · rw [bind_of_ok (accept_cons hs), if_neg hk, decide_eq_false hk]
      have hrest := hother c (t :: rest) hlt eof hs
      by_cases hk' : t.kind ∈ ks'
      · rw [Parser.accept?_bind_of_mem hk'] at hrest
        rwa [Parser.accept?_bind_of_mem (List.mem_append_right ks hk')]
      · rw [Parser.accept?_bind_of_not_mem hk'] at hrest
        rwa [Parser.accept?_bind_of_not_mem (mt List.mem_append.mp (not_or.mpr ⟨hk, hk'⟩))]

/-- Asking for a token of some kinds. -/
theorem follows_accept {ks : List Kind} {f : Bool → Reader α} {g : Option Token → Parser α}
    (hnone : Follows n (f false) (g none))
    (hsome : ∀ t, t.kind ∈ ks → FollowsAfter t (n - 1) (f true) (g (some t))) :
    Follows n (accept ks >>= f) (Parser.accept? ks >>= g) := by
  have hother : Follows n (f false) (Parser.accept? [] >>= g) := by
    intro c ts hlt eof hs
    cases ts with
    | nil => exact hnone c [] hlt eof hs
    | cons t rest =>
      rw [Parser.accept?_bind_of_not_mem List.not_mem_nil]
      exact hnone c (t :: rest) hlt eof hs
  have hfirst := follows_accept_first hother hsome
  rwa [List.append_nil] at hfirst

/-- Demanding a token of a kind. -/
theorem follows_expect {k : Kind} {reason : StaticError.Reason} {f : Token → Reader α}
    {g : Token → Parser α} (h : ∀ t, t.kind = k → FollowsAfter t (n - 1) (f t) (g t)) :
    Follows n (expect k reason >>= f) (Parser.expect k reason >>= g) := by
  intro c ts hlt eof hs
  have hfail : (∀ t ∈ ts.head?, t.kind ≠ k) →
      Agrees c ts ⟨none, ts, [.ofToken (ts.headD eof) reason]⟩ ((expect k reason >>= f) c) := by
    intro hk
    exact ⟨_, bind_of_error (expect_of_ne hs hk reason), ⟨[], rfl, rfl⟩, rfl, rfl, [], rfl,
      List.forall_mem_nil _⟩
  change Agrees c ts (Parser.andThen (Parser.expect k reason) g eof ts) _
  cases ts with
  | nil => exact hfail nofun
  | cons t rest =>
    by_cases hk : t.kind = k
    · simp only [Parser.andThen, Parser.expect, if_pos hk, List.nil_append]
      rw [bind_of_ok (expect_of_eq hs hk reason)]
      exact (h t hk c.next rest (Nat.lt_sub_of_add_lt hlt) hs.passed_next eof hs.next).next
    · simp only [Parser.andThen, Parser.expect, if_neg hk]
      exact hfail fun t' ht' ↦ Option.some.inj ht' ▸ hk

/-- Asking whether the next token is of a kind. -/
theorem follows_check {k : Kind} {f : Bool → Reader α} {g : Bool → Parser α}
    (h : ∀ b, Follows n (f b) (g b)) : Follows n (check k >>= f) (Parser.next k >>= g) := by
  refine follows_bind (fun c ts _ eof hs ↦ ?_) h
  cases ts with
  | nil => exact ⟨c, check_nil hs, .refl⟩
  | cons t rest => exact ⟨c, check_cons hs, .refl⟩

/-- Asking whether the end of the source is reached. -/
theorem follows_atEnd {f : Bool → Reader α} {g : Bool → Parser α}
    (h : ∀ b, Follows n (f b) (g b)) : Follows n (atEnd >>= f) (Parser.atEnd >>= g) :=
  follows_bind (fun c _ _ _ hs ↦ ⟨c, atEnd_eq hs, .refl⟩) h

end Rules

end Lox.Indexed
