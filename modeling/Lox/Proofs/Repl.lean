import Lox.Proofs.Machine.Agree
import Lox.Proofs.Parser.Sequence
import Lox.Proofs.Scope.Sequence
import Lox.Proofs.Token.Lines
import Lox.Repl

/-!
# A dialogue and a file

Lines that are run one by one do what a file with these lines does, if each line is a program of its
own. All stages agree: the tokens of the file are those of the lines, its statements are theirs,
they are bound to the same scopes, and on the machine each line finds what the lines before it left.
The result is `Repl.run_agrees_with_file`.
-/

namespace Lox

/-- The program of a source with its uses of variables bound. -/
def boundProgram (lenient : Bool) (src : Bytes) : Program Binding :=
  ((parseProgram src).tree.resolve lenient).tree

/-- Running a source without static errors is running its program. -/
theorem Machine.runSource_eq {lenient : Bool} {src : Bytes} (hp : (parseProgram src).errors = [])
    (hr : ((parseProgram src).tree.resolve lenient).errors = []) (fuel : Nat) (m : Machine) :
    m.runSource fuel lenient src = (Run.interpret fuel (boundProgram lenient src) m).result := by
  simp [runSource, hp, hr, boundProgram]

namespace Repl

/-- A line that is a program of its own, or that has no tokens. It has no line end in it, and leaves
no comment open. -/
structure Whole (lenient : Bool) (line : Bytes) : Prop where
  newline : Bytes.newline ∉ line
  carriageReturn : line.getLast? ≠ some (Bytes.ascii '\r')
  short : line.length < lineLimit
  closed : ∀ s ∈ Segment.segments line, ¬ s.IsOpenComment
  content : ((scan line).tokens.length = 1 ∧ (scan line).errors = []) ∨
    ((parseProgram line).errors = [] ∧ ((parseProgram line).tree.resolve lenient).errors = [] ∧
      ∃ t ∈ (scan line).tokens.dropLast.getLast?, t.kind = .semicolon ∨ t.kind = .rightBrace)

/-- What each line of a dialogue comes to, if it is a program. -/
def results (fuel : Nat) (lenient backtrace : Bool) :
    Dialogue → List Bytes → List (Except Failure Unit)
  | _, [] => []
  | d, line :: lines =>
    (d.machine.runSource fuel lenient line).1 ::
      results fuel lenient backtrace (step fuel lenient backtrace d line) lines

/-! ## The lines of an input -/

/-- Lines with line ends between them. -/
abbrev joined (lines : List Bytes) : Bytes := Bytes.join [Bytes.newline] lines

private theorem joined_cons_cons (line line' : Bytes) (lines : List Bytes) :
    joined (line :: line' :: lines) = line ++ Bytes.newline :: joined (line' :: lines) := by
  simp [joined, Bytes.join]

private theorem joined_singleton (line : Bytes) : joined [line] = line := by
  simp [joined, Bytes.join]

section Reading

variable {line : Bytes}

private theorem readLines_go_of_ne_nil {input : Bytes} (h : input ≠ [])
    (hl : input.takeWhile (· != Bytes.newline) = line) (hs : line.length < lineLimit)
    (hcr : line.getLast? ≠ some (Bytes.ascii '\r')) (acc : List Bytes) :
    readLines.go acc input = readLines.go (line :: acc) (input.drop (line.length + 1)) := by
  cases input with
  | nil => exact absurd rfl h
  | cons b rest =>
    rw [readLines.go, hl, if_neg (Nat.not_le.mpr hs), Bytes.dropTrailing, if_neg hcr]

private theorem bne_newline (hn : Bytes.newline ∉ line) :
    ∀ b ∈ line, (b != Bytes.newline) = true := by
  intro b hb
  rw [bne_iff_ne]
  rintro rfl
  exact hn hb

-- A line with its line end is read off the front.
private theorem readLines_go_line (hn : Bytes.newline ∉ line)
    (hcr : line.getLast? ≠ some (Bytes.ascii '\r')) (hs : line.length < lineLimit) (rest : Bytes)
    (acc : List Bytes) :
    readLines.go acc (line ++ Bytes.newline :: rest) = readLines.go (line :: acc) rest := by
  have htake : (line ++ Bytes.newline :: rest).takeWhile (· != Bytes.newline) = line := by
    rw [List.takeWhile_append_of_pos (bne_newline hn)]
    simp
  rw [readLines_go_of_ne_nil (by simp) htake hs hcr]
  simp

-- A last line without a line end is read, unless it is empty.
private theorem readLines_go_last (hn : Bytes.newline ∉ line)
    (hcr : line.getLast? ≠ some (Bytes.ascii '\r')) (hs : line.length < lineLimit) (hne : line ≠ [])
    (acc : List Bytes) : readLines.go acc line = ⟨(line :: acc).reverse, false⟩ := by
  have htake : line.takeWhile (· != Bytes.newline) = line := by
    have happend : (line ++ []).takeWhile (· != Bytes.newline) = line ++ [] :=
      List.takeWhile_append_of_pos (bne_newline hn)
    simpa using happend
  rw [readLines_go_of_ne_nil hne htake hs hcr, List.drop_eq_nil_of_le (Nat.le_succ _), readLines.go]

end Reading

/-! ## The program of several lines -/

section Programs

variable {lenient : Bool} {line : Bytes}

/-- Tokens that form a program without static errors, which is like the given one but for lines. -/
def Reads (lenient : Bool) (ts : List Token) (p : Program Binding) : Prop :=
  ∀ eof : Token, eof.kind = .eof →
    (parseTokens (ts ++ [eof])).errors = [] ∧
    ((parseTokens (ts ++ [eof])).tree.resolve lenient).errors = [] ∧
    Stmt.AllLike False [] p ((parseTokens (ts ++ [eof])).tree.resolve lenient).tree

private theorem parseTokens_end {eof : Token} (he : eof.kind = .eof) :
    parseTokens [eof] = ⟨[], []⟩ := by
  simp [parseTokens, Parser.run, Parser.body, he, Parser.bound, Parser.program,
    Parser.declarations]

private theorem reads_nil (lenient : Bool) : Reads lenient [] [] := by
  intro eof he
  rw [List.nil_append, parseTokens_end he]
  exact ⟨rfl, rfl, .nil⟩

private theorem Whole.errors_scan (h : Whole lenient line) : (scan line).errors = [] := by
  rcases h.content with ⟨-, he⟩ | ⟨he, -⟩
  · exact he
  · exact (List.append_eq_nil_iff.mp he).1

-- A line without tokens is a program without statements.
private theorem parseProgram_of_length (hlen : (scan line).tokens.length = 1)
    (he : (scan line).errors = []) : parseProgram line = ⟨[], []⟩ := by
  have hts : tokensFrom 1 line = [] := by
    rw [tokens_scan, List.length_append] at hlen
    exact List.length_eq_zero_iff.mp (Nat.succ.inj hlen)
  simp only [parseProgram, tokens_scan, hts, he, List.nil_append]
  rw [parseTokens_end rfl]

private theorem Whole.errors_parse (h : Whole lenient line) :
    (parseProgram line).errors = [] ∧ ((parseProgram line).tree.resolve lenient).errors = [] := by
  rcases h.content with ⟨hlen, he⟩ | ⟨hp, hr, -⟩
  · rw [parseProgram_of_length hlen he]
    exact ⟨rfl, rfl⟩
  · exact ⟨hp, hr⟩

/-- The program of a line, and that of the tokens behind it. -/
theorem reads_line (h : Whole lenient line) (k : Nat) {ts : List Token} {p : Program Binding}
    (hts : ∀ t ∈ ts, t.kind ≠ .eof) (hp : Reads lenient ts p) :
    Reads lenient (tokensFrom (1 + k) line ++ ts) (boundProgram lenient line ++ p) := by
  intro eof he
  obtain ⟨hparse, hresolve, hlike⟩ := hp eof he
  obtain ⟨hline, hlineResolve⟩ := h.errors_parse
  have htokens : (parseTokens (tokensFrom 1 line ++ [.endOf (1 + line.newlines : Nat)])).errors =
      [] := by
    rw [← tokens_scan]
    exact (List.append_eq_nil_iff.mp hline).2
  obtain ⟨htree, herrors⟩ := parseTokens_append (.shift k) kind_ne_eof_of_mem_tokensFrom hts rfl he
    htokens hparse
  rw [← tokens_scan] at htree
  rw [tokensFrom_add, htree, Program.resolve_append]
  have halike := Program.alike_resolve (Relabel.keeps_shift k) lenient
    (parseTokens (scan line).tokens).tree
  refine ⟨herrors, ?_, halike.tree.append hlike⟩
  rw [hresolve, List.append_nil, ← List.length_eq_zero_iff, halike.errors]
  exact List.length_eq_zero_iff.mpr hlineResolve

-- The lines of a file form the programs of the lines.
private theorem reads_joined (k : Nat) {lines : List Bytes}
    (h : ∀ line ∈ lines, Whole lenient line) :
    tokenErrorsFrom (1 + k) (joined lines) = [] ∧
      Reads lenient (tokensFrom (1 + k) (joined lines)) (lines.flatMap (boundProgram lenient)) := by
  induction lines generalizing k with
  | nil =>
    have htokens : tokensFrom (1 + k) (joined []) = [] := by
      simp [tokensFrom, joined, Bytes.join]
    rw [htokens]
    exact ⟨by simp [tokenErrorsFrom, joined, Bytes.join], reads_nil lenient⟩
  | cons line lines ih =>
    have hw := h line List.mem_cons_self
    have hscan : tokenErrorsFrom 1 line = [] := by
      rw [← errors_scan]
      exact hw.errors_scan
    cases lines with
    | nil =>
      have hread := reads_line hw k (List.forall_mem_nil _) (reads_nil lenient)
      rw [List.append_nil, List.append_nil] at hread
      rw [joined_singleton, List.flatMap_singleton]
      exact ⟨tokenErrorsFrom_add 1 k hscan, hread⟩
    | cons line' lines =>
      obtain ⟨herrors, hread⟩ := ih (k + 1) fun l hl ↦ h l (List.mem_cons_of_mem _ hl)
      have hsettled := settled_of_errors_scan hw.errors_scan hw.closed
      rw [joined_cons_cons, tokensFrom_append_line hsettled hw.newline,
        tokenErrorsFrom_append_line hsettled hw.newline, tokenErrorsFrom_add 1 k hscan]
      exact ⟨herrors, reads_line hw k kind_ne_eof_of_mem_tokensFrom hread⟩

/-- A file with these lines has no static errors, and its program is like those of the lines. -/
theorem like_joined {lines : List Bytes} (h : ∀ line ∈ lines, Whole lenient line) :
    (parseProgram (joined lines)).errors = [] ∧
      ((parseProgram (joined lines)).tree.resolve lenient).errors = [] ∧
      Stmt.AllLike False [] (lines.flatMap (boundProgram lenient))
        (boundProgram lenient (joined lines)) := by
  obtain ⟨herrors, hread⟩ := reads_joined 0 h
  obtain ⟨hparse, hresolve, hlike⟩ := hread (.endOf (1 + (joined lines).newlines : Nat)) rfl
  rw [Nat.add_zero, ← tokens_scan] at hparse hresolve hlike
  refine ⟨?_, hresolve, hlike⟩
  rw [Nat.add_zero, ← errors_scan] at herrors
  exact List.append_eq_nil_iff.mpr ⟨herrors, hparse⟩

end Programs

section Dialogue

variable {fuel : Nat} {lenient backtrace : Bool}

-- A line without tokens does nothing.
private theorem step_of_length {line : Bytes} (h : (scan line).tokens.length = 1)
    (he : (scan line).errors = []) (d : Dialogue) : step fuel lenient backtrace d line = d := by
  simp [step, h, he]

private theorem step_nil (d : Dialogue) : step fuel lenient backtrace d [] = d := by
  apply step_of_length
  · simp [tokens_scan, tokensFrom]
  · simp [errors_scan, tokenErrorsFrom]

private theorem foldl_readLines_last {line : Bytes} (hn : Bytes.newline ∉ line)
    (hcr : line.getLast? ≠ some (Bytes.ascii '\r')) (hs : line.length < lineLimit) {final : Bytes}
    (hfinal : final = [] ∨ final = [Bytes.newline]) (acc : List Bytes) (d : Dialogue) :
    (readLines.go acc (line ++ final)).lines.foldl (step fuel lenient backtrace) d =
        (acc.reverse ++ [line]).foldl (step fuel lenient backtrace) d ∧
      (readLines.go acc (line ++ final)).cutOff = false := by
  rcases hfinal with rfl | rfl
  · rw [List.append_nil]
    cases line with
    | nil => simp [readLines.go, step_nil]
    | cons b line =>
      rw [readLines_go_last hn hcr hs (List.cons_ne_nil b line), List.reverse_cons]
      exact ⟨rfl, rfl⟩
  · rw [readLines_go_line hn hcr hs, readLines.go, List.reverse_cons]
    exact ⟨rfl, rfl⟩

private theorem foldl_readLines_go {lines : List Bytes} (h : ∀ line ∈ lines, Whole lenient line)
    {final : Bytes} (hfinal : final = [] ∨ final = [Bytes.newline]) (acc : List Bytes)
    (d : Dialogue) :
    (readLines.go acc (joined lines ++ final)).lines.foldl (step fuel lenient backtrace) d =
        (acc.reverse ++ lines).foldl (step fuel lenient backtrace) d ∧
      (readLines.go acc (joined lines ++ final)).cutOff = false := by
  induction lines generalizing acc with
  | nil =>
    have hempty : (acc.reverse ++ []).foldl (step fuel lenient backtrace) d =
        (acc.reverse ++ [[]]).foldl (step fuel lenient backtrace) d := by
      rw [List.foldl_append, List.foldl_append, List.foldl_cons, step_nil]
    rw [hempty]
    exact foldl_readLines_last (List.not_mem_nil) nofun (by decide) hfinal acc d
  | cons line lines ih =>
    have hw := h line List.mem_cons_self
    cases lines with
    | nil =>
      rw [joined_singleton]
      exact foldl_readLines_last hw.newline hw.carriageReturn hw.short hfinal acc d
    | cons line' lines =>
      rw [joined_cons_cons, List.append_assoc, List.cons_append,
        readLines_go_line hw.newline hw.carriageReturn hw.short]
      have hrest := ih (fun l hl ↦ h l (List.mem_cons_of_mem _ hl)) (line :: acc)
      rwa [List.reverse_cons, List.append_assoc] at hrest

/-- All lines are run, whether the last one has a line end or not; without one, an empty last line
is not read, but does nothing anyway. -/
theorem foldl_readLines (fuel : Nat) (backtrace : Bool) {lines : List Bytes}
    (h : ∀ line ∈ lines, Whole lenient line) {final : Bytes}
    (hfinal : final = [] ∨ final = [Bytes.newline]) (d : Dialogue) :
    (readLines (joined lines ++ final)).lines.foldl (step fuel lenient backtrace) d =
        lines.foldl (step fuel lenient backtrace) d ∧
      (readLines (joined lines ++ final)).cutOff = false :=
  foldl_readLines_go h hfinal [] d

-- A line that ends like a program is run as one.
private theorem step_of_program {line : Bytes} (hp : (parseProgram line).errors = [])
    (hr : ((parseProgram line).tree.resolve lenient).errors = []) {t : Token}
    (ht : t ∈ (scan line).tokens.dropLast.getLast?)
    (hk : t.kind = .semicolon ∨ t.kind = .rightBrace) (d : Dialogue) :
    step fuel lenient backtrace d line =
      match Run.interpret fuel (boundProgram lenient line) d.machine with
      | .done _ m => { d with machine := m }
      | .failed f m => ⟨m, d.stderr ++ (Failure.fault f).text backtrace ++ [Bytes.newline]⟩ := by
  have hmany : ((scan line).tokens.length == 1 && (scan line).errors.isEmpty) = false := by
    have hlen : (scan line).tokens.length ≠ 1 := by
      intro hone
      have hdrop : (scan line).tokens.dropLast = [] := by
        rw [← List.length_eq_zero_iff, List.length_dropLast, hone]
      rw [hdrop] at ht
      cases ht
    simp [hlen]
  have hprogram : isExpression (scan line).tokens = false := by
    rw [isExpression, Option.mem_def.mp ht]
    rcases hk with hk | hk <;> simp [hk]
  simp only [step, hmany, hprogram, Bool.false_eq_true, if_false, Machine.runSource_eq hp hr]
  cases Run.interpret fuel (boundProgram lenient line) d.machine <;> rfl

-- A line does on the machine of a dialogue what its program does, up to what the next program sets;
-- and it reports nothing if it comes to its end.
private theorem step_eq (fuel : Nat) (backtrace : Bool) {line : Bytes} (h : Whole lenient line)
    (d : Dialogue) :
    (step fuel lenient backtrace d line).machine.atTopLevel =
        (Run.interpret fuel (boundProgram lenient line) d.machine).after.atTopLevel ∧
      ∀ m, Run.interpret fuel (boundProgram lenient line) d.machine = .done () m →
        (step fuel lenient backtrace d line).stderr = d.stderr := by
  rcases h.content with ⟨hlen, he⟩ | ⟨hp, hr, t, ht, hk⟩
  · rw [step_of_length hlen he, boundProgram, parseProgram_of_length hlen he]
    exact ⟨rfl, fun _ _ ↦ rfl⟩
  · rw [step_of_program hp hr ht hk]
    cases Run.interpret fuel (boundProgram lenient line) d.machine with
    | done a m => exact ⟨rfl, fun _ _ ↦ rfl⟩
    | failed f m => exact ⟨rfl, fun _ h ↦ nomatch h⟩

end Dialogue

/-! ## Running the lines and running the file -/

section Runs

variable {fuel : Nat} {lenient backtrace : Bool}

private theorem run_bind_assoc {α β γ : Type} (r : Run α) (f : α → Run β) (g : β → Run γ) :
    (r >>= f >>= g) = (r >>= fun a ↦ f a >>= g) := by
  funext m
  change Run.andThen (Run.andThen r f) g m = Run.andThen r (fun a ↦ Run.andThen (f a) g) m
  simp only [Run.andThen]
  cases r m <;> rfl

-- Programs one after the other.
private theorem interpretAll_append (n : Nat) (p q : Program Binding) :
    Run.interpretAll n (p ++ q) = (Run.interpretAll n p >>= fun _ ↦ Run.interpretAll n q) := by
  induction p with
  | nil => rfl
  | cons s ss ih => simp only [List.cons_append, Run.interpretAll, ih, run_bind_assoc]

-- What is promised of a dialogue: programs without static errors, and no function of the host that
-- does not have the arguments it looks at.
private def terms : Terms := ⟨True, Builtin.Total⟩

private theorem fit_boundProgram {line : Bytes} (h : Whole lenient line) :
    Stmt.AllFit terms.strict [] (boundProgram lenient line) :=
  Program.fit_resolve (parseTokens_built _).formed fun _ ↦ h.errors_parse.2

-- Behind a line, and behind its part of the file, the machines are similar at top level.
private theorem similar_atTopLevel {W : World} {m m' : Machine} {line : Int}
    (h : m.Similar False W m') (henv : m.env = Machine.globals)
    (hstack : m.stack = [⟨none, line⟩]) : m.atTopLevel.Similar False W m' := by
  have hframes := h.stack
  rw [hstack, List.forall₂_cons_left_iff] at hframes
  obtain ⟨f', rest', hf, hrest, hstack'⟩ := hframes
  rw [List.forall₂_nil_left_iff] at hrest
  refine { h with env := h.env.trans henv, stack := ?_ }
  rw [hstack', hrest]
  exact .cons ⟨hf.callee, False.elim⟩ .nil

-- A line and its part of the file end alike. If they come to their ends, then the machines are such
-- that the next ones do so too.
private theorem step_agrees (fuel : Nat) (backtrace : Bool) {t : Trace} {W : World} {d : Dialogue}
    {m' : Machine} {line : Bytes} {p : Program Binding} (hsound : terms.Sound t d.machine)
    (hsim : d.machine.atTopLevel.Similar False W m') (h : Whole lenient line)
    (hlike : Stmt.AllLike False [] (boundProgram lenient line) p) :
    (∃ W' t' m₁', (d.machine.runSource fuel lenient line).1 = .ok () ∧
      Run.interpretAll fuel p m' = .done () m₁' ∧
      (step fuel lenient backtrace d line).stderr = d.stderr ∧
      terms.Sound t' (step fuel lenient backtrace d line).machine ∧
      (step fuel lenient backtrace d line).machine.atTopLevel.Similar False W' m₁') ∨
    (∃ e e' m₁', (d.machine.runSource fuel lenient line).1 = .error (.fault (.runtime e)) ∧
      Run.interpretAll fuel p m' = .failed (.runtime e') m₁' ∧ e'.cause = e.cause ∧
      m₁'.printed = (step fuel lenient backtrace d line).machine.printed) ∨
    (d.machine.runSource fuel lenient line).1 = .error (.fault .outOfFuel) := by
  obtain ⟨hp, hr⟩ := h.errors_parse
  obtain ⟨W', t', hend, hsound', hfault⟩ :=
    Terms.interpret_agrees trivial fuel hsound hsim (fit_boundProgram h) hlike
  obtain ⟨hmachine, hstderr⟩ := step_eq fuel backtrace h d
  obtain ⟨henv, line', hstack⟩ := Run.interpret_after fuel (boundProgram lenient line) d.machine
  rw [Machine.runSource_eq hp hr]
  cases ho : Run.interpret fuel (boundProgram lenient line) d.machine with
  | done a m₁ =>
    rw [ho] at hend hsound' hmachine henv hstack
    cases ho' : Run.interpretAll fuel p m' with
    | failed f' m₁' =>
      rw [ho'] at hend
      cases hend
    | done a' m₁' =>
      rw [ho'] at hend
      cases hend with
      | done hm _ =>
        have hheap := congrArg Machine.heap hmachine
        have hfunctions := congrArg Machine.nextFunction hmachine
        refine .inl ⟨W', t', m₁', rfl, rfl, hstderr m₁ ho, hsound'.of_eq hheap hfunctions, ?_⟩
        · rw [hmachine]
          exact similar_atTopLevel hm henv hstack
  | failed f m₁ =>
    rw [ho] at hend hmachine
    cases ho' : Run.interpretAll fuel p m' with
    | done a' m₁' =>
      rw [ho'] at hend
      cases hend
    | failed f' m₁' =>
      rw [ho'] at hend
      cases hend with
      | failed hm hf =>
        have hprinted : m₁'.printed = (step fuel lenient backtrace d line).machine.printed :=
          hm.printed.trans (congrArg Machine.printed hmachine).symm
        have hforeseen := hfault f m₁ ho
        cases f with
        | runtime e =>
          cases hf with
          | runtime hcause _ => exact .inr (.inl ⟨e, _, m₁', rfl, rfl, hcause, hprinted⟩)
          | refl => exact .inr (.inl ⟨e, e, m₁', rfl, rfl, rfl, hprinted⟩)
        | call e => exact hforeseen.elim
        | outOfFuel => exact .inr (.inr rfl)
        | stuck =>
          obtain ⟨b, hb, hnot⟩ := hforeseen
          exact absurd hb hnot

-- All lines and the whole file end alike.
private theorem foldl_agrees {t : Trace} {W : World} {d : Dialogue} {m' : Machine}
    {lines : List Bytes} {p : Program Binding} (hsound : terms.Sound t d.machine)
    (hsim : d.machine.atTopLevel.Similar False W m') (h : ∀ line ∈ lines, Whole lenient line)
    (hlike : Stmt.AllLike False [] (lines.flatMap (boundProgram lenient)) p)
    (hfuel : ∀ result ∈ results fuel lenient backtrace d lines,
      result ≠ .error (.fault .outOfFuel)) :
    ((∀ result ∈ results fuel lenient backtrace d lines, ∀ e,
        result ≠ .error (.fault (.runtime e))) →
      ∃ m₁', Run.interpretAll fuel p m' = .done () m₁' ∧
        m₁'.printed = (lines.foldl (step fuel lenient backtrace) d).machine.printed ∧
        (lines.foldl (step fuel lenient backtrace) d).stderr = d.stderr) ∧
    ∀ i e, (results fuel lenient backtrace d lines)[i]? = some (.error (.fault (.runtime e))) →
      (∀ j < i, ∀ e', (results fuel lenient backtrace d lines)[j]? ≠
        some (.error (.fault (.runtime e')))) →
      ∃ e' m₁', Run.interpretAll fuel p m' = .failed (.runtime e') m₁' ∧ e'.cause = e.cause ∧
        m₁'.printed =
          ((lines.take (i + 1)).foldl (step fuel lenient backtrace) d).machine.printed := by
  induction lines generalizing t W d m' p with
  | nil =>
    cases hlike
    exact ⟨fun _ ↦ ⟨m', rfl, hsim.printed, rfl⟩, fun i e hi ↦ nomatch hi⟩
  | cons line lines ih =>
    obtain ⟨q, r, rfl, hq, hr⟩ := hlike.of_append
    have hw := h line List.mem_cons_self
    have hmore := fun l hl ↦ h l (List.mem_cons_of_mem _ hl)
    rw [interpretAll_append]
    rcases step_agrees fuel backtrace hsound hsim hw hq with
      ⟨W', t', m₁', hok, hrun, hstderr, hsound', hsim'⟩ |
        ⟨e, e', m₁', hfail, hrun, hcause, hprinted⟩
        | hout
    · have hseq : (Run.interpretAll fuel q >>= fun _ ↦ Run.interpretAll fuel r) m' =
          Run.interpretAll fuel r m₁' := by
        change Run.andThen _ _ m' = _
        simp only [Run.andThen, hrun]
      obtain ⟨hall, hfirst⟩ := ih hsound' hsim' hmore hr fun result hmem ↦
        hfuel result (List.mem_cons_of_mem _ hmem)
      rw [hseq]
      refine ⟨fun hno ↦ ?_, fun i e hi hmin ↦ ?_⟩
      · obtain ⟨m₂', hrun', hprinted, hstderr'⟩ := hall fun result hmem ↦
          hno result (List.mem_cons_of_mem _ hmem)
        exact ⟨m₂', hrun', hprinted, hstderr'.trans hstderr⟩
      · cases i with
        | zero =>
          rw [results, List.getElem?_cons_zero, hok] at hi
          cases hi
        | succ i => exact hfirst i e hi fun j hj ↦ hmin (j + 1) (Nat.succ_lt_succ hj)
    · have hseq : (Run.interpretAll fuel q >>= fun _ ↦ Run.interpretAll fuel r) m' =
          .failed (.runtime e') m₁' := by
        change Run.andThen _ _ m' = _
        simp only [Run.andThen, hrun]
      rw [hseq]
      refine ⟨fun hno ↦ absurd hfail (hno _ List.mem_cons_self e), fun i e₁ hi hmin ↦ ?_⟩
      have hzero : (results fuel lenient backtrace d (line :: lines))[0]? =
          some (.error (.fault (.runtime e))) := congrArg some hfail
      cases i with
      | zero =>
        rw [hzero] at hi
        cases hi
        exact ⟨e', m₁', rfl, hcause, hprinted⟩
      | succ i => exact absurd hzero (hmin 0 (Nat.succ_pos i) e)
    · exact absurd hout (hfuel _ List.mem_cons_self)

end Runs

/-- Let lines be given that are programs of their own or have no tokens, and let none of them run
out of fuel when they are run one by one. If none raises an error, then running them as an input,
with or without a line end at the end, and running the file of these lines both come to their ends,
and print the same. And if one raises an error, then the file fails for the same cause as the first
one that does, and has printed what the lines up to this one had printed. -/
theorem run_agrees_with_file (fuel : Nat) (lenient backtrace : Bool) (clock : Option Int)
    (firstId : Nat) (lines : List Bytes) (h : ∀ line ∈ lines, Whole lenient line)
    (hfuel : ∀ result ∈ results fuel lenient backtrace ⟨.start clock firstId, []⟩ lines,
      result ≠ .error (.fault .outOfFuel)) :
    let outcomes := results fuel lenient backtrace ⟨.start clock firstId, []⟩ lines
    let file := (Machine.start clock firstId).runSource fuel lenient
      (Bytes.join [Bytes.newline] lines)
    ((∀ result ∈ outcomes, ∀ e, result ≠ .error (.fault (.runtime e))) →
      file.1 = .ok () ∧ ∀ final, final = [] ∨ final = [Bytes.newline] →
        run fuel lenient backtrace (.start clock firstId)
          (Bytes.join [Bytes.newline] lines ++ final) = ⟨file.2.output, [], false⟩) ∧
    ∀ i e, outcomes[i]? = some (.error (.fault (.runtime e))) →
      (∀ j < i, ∀ e', outcomes[j]? ≠ some (.error (.fault (.runtime e')))) →
      (∃ e', file.1 = .error (.fault (.runtime e')) ∧ e'.cause = e.cause) ∧
      file.2.output = ((lines.take (i + 1)).foldl (step fuel lenient backtrace)
        ⟨.start clock firstId, []⟩).machine.output := by
  intro outcomes file
  obtain ⟨hparse, hresolve, hlike⟩ := like_joined h
  have hsound : terms.Sound .empty (Machine.start clock firstId) :=
    Terms.sound_start (by rintro (h | h) <;> cases h) clock firstId
  have hsim : (Machine.start clock firstId).atTopLevel.Similar False (fun _ ↦ 1)
      (Machine.start clock firstId).atTopLevel :=
    ((Machine.similar_start False clock firstId).withEnv Machine.globals).withStack
      (.cons ⟨rfl, fun _ ↦ rfl⟩ .nil)
  have hfile : file = (Run.interpret fuel (boundProgram lenient (joined lines))
      (.start clock firstId)).result := Machine.runSource_eq hparse hresolve fuel _
  obtain ⟨hall, hfirst⟩ := foldl_agrees hsound hsim h hlike hfuel
  refine ⟨fun hno ↦ ?_, fun i e hi hmin ↦ ?_⟩
  · obtain ⟨m', hrun, hprinted, hstderr⟩ := hall hno
    have hend : file = (.ok (), m') := hfile.trans (congrArg Outcome.result hrun)
    rw [hend]
    refine ⟨rfl, fun final hfinal ↦ ?_⟩
    obtain ⟨hlines, hcut⟩ := foldl_readLines fuel backtrace h hfinal
      ⟨.start clock firstId, []⟩
    simp only [run, hlines, hcut, hstderr, Bool.false_eq_true, if_false, Machine.output, hprinted]
  · obtain ⟨e', m', hrun, hcause, hprinted⟩ := hfirst i e hi hmin
    have hend : file = (.error (.fault (.runtime e')), m') :=
      hfile.trans (congrArg Outcome.result hrun)
    rw [hend]
    refine ⟨⟨e', rfl, hcause⟩, ?_⟩
    simp only [Machine.output, hprinted]

-- A line that is a note.
private def noteLine : Bytes := Bytes.ofString "// note"

-- A line that declares a variable.
private def varLine : Bytes := Bytes.ofString "var a = true;"

-- A line that prints this variable, and then one that there is not.
private def printLine : Bytes := Bytes.ofString "print a; print b;"

private theorem whole_noteLine : Whole false noteLine where
  newline := by decide
  carriageReturn := by decide
  short := by decide
  closed := by
    have hsegments : Segment.segments noteLine = [⟨.comment, noteLine⟩] := by decide +kernel
    rw [hsegments]
    rintro s hs ⟨-, hopen, -⟩
    rw [List.mem_singleton.mp hs] at hopen
    revert hopen
    decide
  content := .inl ⟨by decide +kernel, by decide +kernel⟩

private theorem not_isOpenComment {line : Bytes}
    (h : (Segment.segments line).all (·.form != .comment)) :
    ∀ s ∈ Segment.segments line, ¬ s.IsOpenComment := by
  rintro s hs ⟨hform, -, -⟩
  have hne := List.all_eq_true.mp h s hs
  simp [hform] at hne

private theorem whole_varLine : Whole false varLine where
  newline := by decide
  carriageReturn := by decide
  short := by decide
  closed := not_isOpenComment (by decide +kernel)
  content := .inr ⟨by decide +kernel, by decide +kernel, ⟨.semicolon, [59], .nil, 1⟩,
    by decide +kernel, .inl rfl⟩

private theorem whole_printLine : Whole false printLine where
  newline := by decide
  carriageReturn := by decide
  short := by decide
  closed := not_isOpenComment (by decide +kernel)
  content := .inr ⟨by decide +kernel, by decide +kernel, ⟨.semicolon, [59], .nil, 1⟩,
    by decide +kernel, .inl rfl⟩

private theorem boundProgram_noteLine : boundProgram false noteLine = [] := by decide +kernel

private theorem boundProgram_varLine : boundProgram false varLine =
    [.var ⟨.identifier, [97], .nil, 1⟩
      (some (.literal ⟨.true, Bytes.ofString "true", .nil, 1⟩ (.bool true)))] := by
  have htokens : (scan varLine).tokens =
      [⟨.var, Bytes.ofString "var", .nil, 1⟩, ⟨.identifier, [97], .nil, 1⟩,
        ⟨.equal, [61], .nil, 1⟩, ⟨.true, Bytes.ofString "true", .nil, 1⟩,
        ⟨.semicolon, [59], .nil, 1⟩, .endOf 1] := by decide +kernel
  rw [boundProgram, parseProgram, htokens]
  rfl

private theorem boundProgram_printLine : boundProgram false printLine =
    [.print ⟨.print, Bytes.ofString "print", .nil, 1⟩
      (.variable ⟨.identifier, [97], .nil, 1⟩ .global),
      .print ⟨.print, Bytes.ofString "print", .nil, 1⟩
        (.variable ⟨.identifier, [98], .nil, 1⟩ .global)] := by
  have htokens : (scan printLine).tokens =
      [⟨.print, Bytes.ofString "print", .nil, 1⟩, ⟨.identifier, [97], .nil, 1⟩,
        ⟨.semicolon, [59], .nil, 1⟩, ⟨.print, Bytes.ofString "print", .nil, 1⟩,
        ⟨.identifier, [98], .nil, 1⟩, ⟨.semicolon, [59], .nil, 1⟩, .endOf 1] := by decide +kernel
  rw [boundProgram, parseProgram, htokens]
  rfl

private theorem results_lines :
    results 5 false false ⟨.start none 0, []⟩ [noteLine, varLine, printLine] = [.ok (), .ok (),
      .error (.fault (.runtime ⟨.undefinedVariable [98], 1, [⟨none, 1⟩]⟩))] := by
  obtain ⟨hnote, -⟩ := step_eq 5 false whole_noteLine ⟨.start none 0, []⟩
  obtain ⟨hvar, -⟩ := step_eq 5 false whole_varLine
    (step 5 false false ⟨.start none 0, []⟩ noteLine)
  -- only what the next program does not set matters of a machine
  have hrun : ∀ {line : Bytes} {m m' : Machine}, Whole false line → m.atTopLevel = m'.atTopLevel →
      (m.runSource 5 false line).1 =
        (Run.interpretAll 5 (boundProgram false line) m'.atTopLevel).result.1 := by
    intro line m m' hw hm
    rw [Machine.runSource_eq hw.errors_parse.1 hw.errors_parse.2, Run.interpret, hm]
  have hvar' := hvar.trans (congrArg (fun m ↦ (Run.interpretAll 5 (boundProgram false varLine)
    m).after.atTopLevel) hnote)
  change [_, _, _] = _
  rw [hrun whole_noteLine rfl, hrun whole_varLine hnote, hrun whole_printLine hvar',
    Run.interpret, boundProgram_noteLine, boundProgram_varLine, boundProgram_printLine]
  decide +kernel

/-- The last line fails in the dialogue and in the file, after the variable was printed. -/
theorem run_agrees_with_file_undefined :
    let lines := [noteLine, varLine, printLine]
    let outcomes := results 5 false false ⟨.start none 0, []⟩ lines
    let file := (Machine.start none 0).runSource 5 false (Bytes.join [Bytes.newline] lines)
    (∀ line ∈ lines, Whole false line) ∧
    (∀ result ∈ outcomes, result ≠ .error (.fault .outOfFuel)) ∧
    ∃ e, outcomes[2]? = some (.error (.fault (.runtime e))) ∧
      (∃ e', file.1 = .error (.fault (.runtime e')) ∧ e'.cause = e.cause) ∧
      file.2.output = (lines.foldl (step 5 false false) ⟨.start none 0, []⟩).machine.output := by
  intro lines outcomes file
  have hwhole : ∀ line ∈ lines, Whole false line := by
    intro line hline
    rcases List.mem_cons.mp hline with rfl | hline
    · exact whole_noteLine
    rcases List.mem_cons.mp hline with rfl | hline
    · exact whole_varLine
    · rw [List.mem_singleton.mp hline]
      exact whole_printLine
  have houtcomes : outcomes = [.ok (), .ok (),
      .error (.fault (.runtime ⟨.undefinedVariable [98], 1, [⟨none, 1⟩]⟩))] := results_lines
  have hfuel : ∀ result ∈ outcomes, result ≠ .error (.fault .outOfFuel) := by
    rw [houtcomes]
    decide
  have hlast : outcomes[2]? = some (.error (.fault (.runtime
      ⟨.undefinedVariable [98], 1, [⟨none, 1⟩]⟩))) := by
    rw [houtcomes]
    rfl
  refine ⟨hwhole, hfuel, _, hlast, ?_⟩
  refine (run_agrees_with_file 5 false false none 0 lines hwhole hfuel).2 2 _ hlast ?_
  intro j hj e'
  change outcomes[j]? ≠ _
  rw [houtcomes]
  match j, hj with
  | 0, _ => nofun
  | 1, _ => nofun

end Repl

end Lox
