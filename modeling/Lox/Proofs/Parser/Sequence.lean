import Lox.Proofs.Parser.Tracks

/-!
# Programs one after the other

Other lines and names of tokens change nothing but the lines and names of what is parsed
(`parseTokens_relabel`). And tokens that form a program, with tokens behind them that form another,
form the two programs one after the other (`parseTokens_append`): a program without errors does not
end with a statement that goes on in the next, for no program begins with an `else`.
-/

namespace Lox.Parser

section Refusals

variable {α β : Type} {t : Token}

/-- A parser gives up at once, with an error, when it meets the token. -/
def Refuses (p : Parser α) (t : Token) : Prop :=
  ∀ eof rest, (p eof (t :: rest)).value = none ∧ (p eof (t :: rest)).errors ≠ []

private theorem refuses_bind {p : Parser α} (h : Refuses p t) (f : α → Parser β) :
    Refuses (p >>= f) t := by
  intro eof rest
  obtain ⟨hvalue, herrors⟩ := h eof rest
  change (andThen p f eof (t :: rest)).value = none ∧ (andThen p f eof (t :: rest)).errors ≠ []
  unfold andThen
  rcases hR : p eof (t :: rest) with ⟨value, left, errors⟩
  rw [hR] at hvalue herrors
  have hnone : value = none := hvalue
  subst hnone
  exact ⟨rfl, herrors⟩

private theorem refuses_accept? {kinds : List Kind} {f : Option Token → Parser α}
    (hk : t.kind ∉ kinds) (h : Refuses (f none) t) : Refuses (accept? kinds >>= f) t := by
  intro eof rest
  rw [accept?_bind_of_not_mem hk]
  exact h eof rest

private theorem refuses_fail (reason : StaticError.Reason) : Refuses (fail reason : Parser α) t :=
  fun _ _ ↦ ⟨rfl, List.cons_ne_nil _ _⟩

-- No expression begins with an `else`.
private theorem refuses_expression (ht : t.kind = .else) (n : Nat) :
    Refuses (expression (n + 1)) t := by
  have hprimary : Refuses (primary (expression n)) t :=
    refuses_accept? (by simp [ht]) (refuses_fail _)
  have hcall : Refuses (call (expression n) (n + 1)) t := refuses_bind hprimary _
  have hunary : Refuses (unary (expression n) (n + 1)) t := refuses_accept? (by simp [ht]) hcall
  have hfactor : Refuses (factor (expression n) (n + 1)) t := refuses_bind hunary _
  have hterm : Refuses (term (expression n) (n + 1)) t := refuses_bind hfactor _
  have hcomparison : Refuses (comparison (expression n) (n + 1)) t := refuses_bind hterm _
  have hequality : Refuses (equality (expression n) (n + 1)) t := refuses_bind hcomparison _
  have hconjunction : Refuses (conjunction (expression n) (n + 1)) t := refuses_bind hequality _
  have hdisjunction : Refuses (disjunction (expression n) (n + 1)) t := refuses_bind hconjunction _
  exact refuses_bind hdisjunction _

-- No declaration begins with an `else` either.
private theorem errors_declaration_of_else (ht : t.kind = .else) (n : Nat) (eof : Token)
    (rest : List Token) : (declaration (n + 1) eof (t :: rest)).errors ≠ [] := by
  have hrecovering : ∀ p : Parser (Stmt Unit), Refuses p t →
      (recovering p eof (t :: rest)).errors ≠ [] := by
    intro p hp
    obtain ⟨hvalue, herrors⟩ := hp eof rest
    unfold recovering
    rcases hR : p eof (t :: rest) with ⟨_ | s, left, errors⟩
    · rw [hR] at herrors
      exact herrors
    · rw [hR] at hvalue
      cases hvalue
  have hstatement : Refuses (statementWith (statement n) (declaration n) (n + 1)) t :=
    refuses_accept? (by simp [ht]) (refuses_bind (refuses_expression ht n) _)
  apply hrecovering
  exact refuses_accept? (by simp [ht]) hstatement

end Refusals

section Programs

variable {r : Relabel} {behind : List Token} {n n' : Nat}

/-- A program does not depend on lines, names and bounds. -/
theorem tracks_program (r : Relabel) (behind : List Token) (n n' : Nat) :
    Tracks r behind n n' false false (Stmt.relabelAll r) (program n) (program n') :=
  tracks_declarations (tracks_statement_declaration r behind n n').2 advances_declaration_of_pos
    (Nat.le_refl n) (Nat.le_refl n')

private theorem map_token_same (ts : List Token) : ts.map Relabel.same.token ++ [] = ts := by
  simp [List.map_congr_left fun t _ ↦ Relabel.token_same t]

private theorem tracked_same {ts : List Token} (hn : ts.length < n) (hn' : ts.length < n')
    {m m' : Nat} (hm : ts.length < m) (hm' : ts.length < m') (eof eof' : Token) :
    Tracked .same [] false false (Stmt.relabelAll .same) ts
      (declarations (declaration n) (fun _ ↦ false) m [] [] eof ts)
      (declarations (declaration n') (fun _ ↦ false) m' [] [] eof' ts) := by
  have hd : TracksDecl .same [] (ts.length + 1) (ts.length + 1) (declaration n) (declaration n') :=
    Tracks.mono (tracks_statement_declaration .same [] n n').2 hn hn' id id
  have h : Tracks .same [] (ts.length + 1) (ts.length + 1) false false (Stmt.relabelAll .same)
      (declarations (declaration n) (fun _ ↦ false) m [] [])
      (declarations (declaration n') (fun _ ↦ false) m' [] []) :=
    tracks_declarations hd (fun _ ↦ advances_declaration_of_pos (Nat.zero_lt_of_lt hn)) hm hm'
  have hts := h eof eof' ts (Nat.lt_succ_self _) (Nat.lt_succ_self _)
  rwa [map_token_same] at hts

-- The bounds on the steps of a program do not matter.
private theorem same_declarations {ts : List Token} (hn : ts.length < n) (hn' : ts.length < n')
    {m m' : Nat} (hm : ts.length < m) (hm' : ts.length < m') (eof eof' : Token) :
    Same .same [] id (declarations (declaration n) (fun _ ↦ false) m [] [] eof ts)
      (declarations (declaration n') (fun _ ↦ false) m' [] [] eof' ts) := by
  have h := (tracked_same hn hn' hm hm' eof eof').same (.inl rfl)
  refine ⟨h.value.trans ?_, h.rest, h.errors⟩
  congr 1
  funext ss
  exact Stmt.relabelAll_same ss

-- Without errors there are declarations.
private theorem value_declarations {ts : List Token} (hn : ts.length < n) {m : Nat}
    (hm : ts.length < m) {eof : Token}
    (h : (declarations (declaration n) (fun _ ↦ false) m [] [] eof ts).errors = []) :
    ∃ ss, (declarations (declaration n) (fun _ ↦ false) m [] [] eof ts).value = some ss := by
  have hreports := (tracked_same hn hn hm hm eof eof).reports
  exact Option.ne_none_iff_exists'.mp fun hnone ↦ hreports hnone h

-- Declarations behind a program without errors.
private theorem declarations_append {k k' m m' : Nat} {eof eof' : Token} (eof'' : Token)
    {ts : List Token} (hbehind : ∀ t ∈ behind.head?, t.kind ≠ .else) (hm : behind.length < m)
    (hm' : behind.length < m') (hk : ts.length < k) (hk' : ts.length + behind.length < k')
    (hn : ts.length < n) (hn' : ts.length + behind.length < n')
    (h : (declarations (declaration k) (fun _ ↦ false) n [] [] eof ts).errors = []) :
    Same .same [] (Stmt.relabelAll r
        ((declarations (declaration k) (fun _ ↦ false) n [] [] eof ts).value.getD []) ++ ·)
      (declarations (declaration m) (fun _ ↦ false) m' [] [] eof'' behind)
      (declarations (declaration k') (fun _ ↦ false) n' [] [] eof' (ts.map r.token ++ behind)) := by
  induction n generalizing n' ts with
  | zero => omega
  | succ n ih =>
    cases n' with
    | zero => omega
    | succ n' =>
      cases ts with
      | nil =>
        simp only [List.length_nil, Nat.zero_add] at hk' hn'
        exact same_declarations hm hk' hm' hn' eof'' eof'
      | cons t rest =>
        rw [declarations_cons n eof t rest rfl] at h ⊢
        have hR := (tracks_statement_declaration r behind k k').2 eof eof' (t :: rest) hk hk'
        have hadv := advances_declaration_of_pos (Nat.zero_lt_of_lt hk) eof t rest
        have hone := hR.same (.inr (.inr ⟨rfl, (List.append_eq_nil_iff.mp h).1, hbehind⟩))
        simp only [List.length_cons] at hk hk' hn hn'
        have hleft : (declaration k eof (t :: rest)).rest.length + behind.length < n' := by omega
        have hmore := ih (by omega) (by omega) (by omega) hleft (List.append_eq_nil_iff.mp h).2
        obtain ⟨ss, hss⟩ := value_declarations (n := k) (m := n) (by omega) (by omega)
          (List.append_eq_nil_iff.mp h).2
        rw [List.map_cons, List.cons_append] at hone ⊢
        rw [declarations_cons n' eof' (r.token t) _ rfl]
        dsimp only
        rw [hone.rest]
        refine ⟨?_, hmore.rest, ?_⟩
        · rw [hmore.value, hone.value, declared_map, hss]
          simp only [Option.map_map, Option.map_some, Option.getD_some, Function.comp_def,
            relabelAll_append, List.append_assoc]
        · rw [List.length_append, hone.errors, hmore.errors, (List.append_eq_nil_iff.mp h).1]
          exact Nat.zero_add _

/-- A program, and another behind it, are parsed as each is alone, if the first has no errors. -/
theorem program_append {k : Nat} {eof eof' eof'' : Token} {ts : List Token}
    (hbehind : ∀ t ∈ behind.head?, t.kind ≠ .else) (hn : ts.length < n) (hn' : behind.length < n')
    (hk : ts.length + behind.length < k) (h : (program n eof ts).errors = []) :
    Same .same [] (Stmt.relabelAll r ((program n eof ts).value.getD []) ++ ·)
      (program n' eof' behind) (program k eof'' (ts.map r.token ++ behind)) :=
  declarations_append eof' hbehind hn' hn' hn hk hn hk h

private theorem body_map (r : Relabel) (ts : List Token) :
    body (ts.map r.token) = (body ts).map r.token := by
  rw [body, body, List.takeWhile_map]
  rfl

/-- Without an earlier end, the tokens of a source are those before its end. -/
theorem body_append_end {ts : List Token} (hts : ∀ t ∈ ts, t.kind ≠ .eof) {eof : Token}
    (he : eof.kind = .eof) : body (ts ++ [eof]) = ts := by
  rw [body, List.takeWhile_append_of_pos (by simpa using hts)]
  simp [he]

/-- The bound of the parser is larger than the number of tokens. -/
theorem length_body_lt_bound (ts : List Token) : (body ts).length < bound ts :=
  Nat.lt_succ_of_le (List.takeWhile_sublist _).length_le

end Programs

end Lox.Parser

namespace Lox

open Lox.Parser

/-- Tokens with other lines and names form the same program with other lines and names. -/
theorem parseTokens_relabel (r : Relabel) (ts : List Token) :
    (parseTokens (ts.map r.token)).tree = Stmt.relabelAll r (parseTokens ts).tree ∧
      (parseTokens (ts.map r.token)).errors.length = (parseTokens ts).errors.length := by
  have hlt := length_body_lt_bound ts
  have h := (tracks_program r [] (bound ts) (bound ts) (ending ts) (ending (ts.map r.token))
    (body ts) hlt hlt).same (.inl rfl)
  have hbound : bound (ts.map r.token) = bound ts := by simp [bound]
  rw [List.append_nil] at h
  unfold parseTokens run
  rw [body_map, hbound]
  refine ⟨?_, h.errors⟩
  dsimp only
  rw [h.value]
  cases (program (bound ts) (ending ts) (body ts)).value with
  | none => rfl
  | some ss => rfl

/-- A program without errors does not begin with an `else`. -/
theorem kind_ne_else_of_errors_eq_nil {ts : List Token} (h : (parseTokens ts).errors = []) :
    ∀ t ∈ (body ts).head?, t.kind ≠ .else := by
  intro t ht hk
  obtain ⟨rest, hbody⟩ : ∃ rest, body ts = t :: rest := by
    cases hb : body ts with
    | nil => simp [hb] at ht
    | cons t' rest =>
      simp only [hb, List.head?_cons, Option.mem_some_iff] at ht
      exact ⟨rest, by rw [ht]⟩
  have herrors : (declarations (declaration (ts.length + 1)) (fun _ ↦ false) (ts.length + 1) [] []
      (ending ts) (body ts)).errors = [] := h
  rw [hbody, declarations_cons _ _ _ _ rfl] at herrors
  exact errors_declaration_of_else hk _ _ _ (List.append_eq_nil_iff.mp herrors).1

/-- What the parser makes of tokens, told without the bound that it sets itself. -/
theorem parseTokens_append_end {ts : List Token} (hts : ∀ t ∈ ts, t.kind ≠ .eof) {eof : Token}
    (he : eof.kind = .eof) :
    parseTokens (ts ++ [eof]) =
      ⟨(program (ts.length + 2) (ending (ts ++ [eof])) ts).value.getD [],
        (program (ts.length + 2) (ending (ts ++ [eof])) ts).errors⟩ := by
  unfold parseTokens run
  rw [body_append_end hts he]
  simp only [bound, List.length_append, List.length_singleton]

/-- The tokens of one program and then those of another form the two programs. -/
theorem parseTokens_append (r : Relabel) {ts ts' : List Token} {eof eof' : Token}
    (hts : ∀ t ∈ ts, t.kind ≠ .eof) (hts' : ∀ t ∈ ts', t.kind ≠ .eof) (he : eof.kind = .eof)
    (he' : eof'.kind = .eof) (h : (parseTokens (ts ++ [eof])).errors = [])
    (h' : (parseTokens (ts' ++ [eof'])).errors = []) :
    (parseTokens (ts.map r.token ++ ts' ++ [eof'])).tree =
        Stmt.relabelAll r (parseTokens (ts ++ [eof])).tree ++ (parseTokens (ts' ++ [eof'])).tree ∧
      (parseTokens (ts.map r.token ++ ts' ++ [eof'])).errors = [] := by
  have hboth : ∀ t ∈ ts.map r.token ++ ts', t.kind ≠ .eof := by
    intro t ht
    rcases List.mem_append.mp ht with ht | ht
    · obtain ⟨t', ht', rfl⟩ := List.mem_map.mp ht
      exact hts t' ht'
    · exact hts' t ht
  have helse := kind_ne_else_of_errors_eq_nil h'
  rw [body_append_end hts' he'] at helse
  rw [parseTokens_append_end hts he] at h ⊢
  rw [parseTokens_append_end hts' he'] at h' ⊢
  rw [parseTokens_append_end hboth he']
  dsimp only at h h' ⊢
  have hsame : Same .same []
      (Stmt.relabelAll r ((program (ts.length + 2) (ending (ts ++ [eof])) ts).value.getD []) ++ ·)
      (program (ts'.length + 2) (ending (ts' ++ [eof'])) ts')
      (program ((ts.map r.token ++ ts').length + 2) (ending (ts.map r.token ++ ts' ++ [eof']))
        (ts.map r.token ++ ts')) :=
    program_append helse (by omega) (by omega) (by simp) h
  obtain ⟨ss, hss⟩ :
      ∃ ss, (program (ts'.length + 2) (ending (ts' ++ [eof'])) ts').value = some ss :=
    value_declarations (by omega) (by omega) h'
  refine ⟨?_, ?_⟩
  · rw [hsame.value, hss]
    rfl
  · rw [← List.length_eq_zero_iff, hsame.errors, h']
    rfl

end Lox
