import Lox.Proofs.Bindings
import Lox.Proofs.Machine.Output
import Lox.Repl

/-!
# Sources that are rejected

A source with static errors is rejected as a whole: it does nothing on the machine, nor in a session
with one table, and all that comes of it are the errors of the first stages that found some. In a
dialogue a line that is rejected can therefore be left out, and the other lines will do and report
what they did with it (`static_errors_change_nothing`).
-/

namespace Lox

/-! ## Errors by stages -/

/-- The static errors of a source, by the stages that find them. -/
structure Findings where
  scanning : List StaticError
  parsing : List StaticError
  resolving : List StaticError
  deriving DecidableEq

namespace Findings

/-- The static errors of a program. -/
def ofProgram (lenient : Bool) (src : Bytes) : Findings :=
  let scanned := scan src
  let parsed := parseTokens scanned.tokens
  ⟨scanned.errors, parsed.errors, (parsed.tree.resolve lenient).errors⟩

/-- The static errors of an expression. -/
def ofExpression (src : Bytes) : Findings :=
  let scanned := scan src
  let parsed := parseExprTokens scanned.tokens
  ⟨scanned.errors, parsed.errors, parsed.tree.elim [] fun e ↦ e.resolve.errors⟩

/-- Some stage finds an error. -/
def Any (f : Findings) : Prop := f.scanning ≠ [] ∨ f.parsing ≠ [] ∨ f.resolving ≠ []

/-- Decided stage by stage. -/
instance (f : Findings) : Decidable f.Any :=
  inferInstanceAs (Decidable (f.scanning ≠ [] ∨ f.parsing ≠ [] ∨ f.resolving ≠ []))

/-- The errors that are reported. Those of the last stage are only if there are no others. -/
def reported (f : Findings) : List StaticError :=
  f.scanning ++ f.parsing ++ if f.scanning = [] ∧ f.parsing = [] then f.resolving else []

private theorem reported_of_parse {f : Findings} (h : f.scanning ++ f.parsing ≠ []) :
    f.reported = f.scanning ++ f.parsing := by
  rw [reported, if_neg fun hnil ↦ h (List.append_eq_nil_iff.mpr hnil), List.append_nil]

private theorem reported_of_resolve {f : Findings} (h : f.scanning ++ f.parsing = []) :
    f.reported = f.resolving := by
  rw [reported, if_pos (List.append_eq_nil_iff.mp h), h, List.nil_append]

private theorem Any.resolving {f : Findings} (h : f.Any) (hp : f.scanning ++ f.parsing = []) :
    f.resolving ≠ [] := by
  obtain ⟨hs, hq⟩ := List.append_eq_nil_iff.mp hp
  exact (h.resolve_left (absurd hs)).resolve_left (absurd hq)

private theorem errors_parseProgram (lenient : Bool) (src : Bytes) :
    (parseProgram src).errors =
      (ofProgram lenient src).scanning ++ (ofProgram lenient src).parsing := rfl

private theorem errors_resolve (lenient : Bool) (src : Bytes) :
    ((parseProgram src).tree.resolve lenient).errors = (ofProgram lenient src).resolving := by
  simp only [ofProgram, parseProgram]

private theorem errors_parseExpr (src : Bytes) :
    (parseExpr src).errors = (ofExpression src).scanning ++ (ofExpression src).parsing := rfl

private theorem resolving_ofExpression (src : Bytes) : (ofExpression src).resolving =
    (parseExpr src).tree.elim [] fun e ↦ e.resolve.errors := by
  simp only [ofExpression, parseExpr]

end Findings

/-! ## Machines and sessions -/

namespace Machine

/-- A program with static errors is not run. -/
theorem runSource_of_any {lenient : Bool} {src : Bytes} (h : (Findings.ofProgram lenient src).Any)
    (fuel : Nat) (m : Machine) :
    m.runSource fuel lenient src =
      (.error (.static (Findings.ofProgram lenient src).reported), m) := by
  unfold runSource
  dsimp only
  rw [Findings.errors_parseProgram lenient, Findings.errors_resolve]
  by_cases hp : (Findings.ofProgram lenient src).scanning ++
      (Findings.ofProgram lenient src).parsing = []
  · rw [Findings.reported_of_resolve hp, if_pos (List.isEmpty_iff.mpr hp),
      if_neg (mt List.isEmpty_iff.mp (h.resolving hp))]
  · rw [Findings.reported_of_parse hp, if_neg (mt List.isEmpty_iff.mp hp)]

/-- An expression with static errors is not evaluated. -/
theorem evalSource_of_any {src : Bytes} (h : (Findings.ofExpression src).Any) (fuel : Nat)
    (m : Machine) :
    m.evalSource fuel src = (.error (.static (Findings.ofExpression src).reported), m) := by
  unfold evalSource
  dsimp only
  split
  · next e hp htree =>
    rw [Findings.errors_parseExpr] at hp
    have hr := h.resolving hp
    rw [Findings.reported_of_resolve hp]
    rw [Findings.resolving_ofExpression, htree, Option.elim_some] at hr ⊢
    rw [if_neg (mt List.isEmpty_iff.mp hr)]
  · next hnot =>
    by_cases hp : (parseExpr src).errors = []
    · -- without an expression there is none in which the resolver could find an error
      have hnone : (parseExpr src).tree = none :=
        Option.eq_none_iff_forall_ne_some.mpr fun e htree ↦ hnot e hp htree
      have hresolving : (Findings.ofExpression src).resolving = [] := by
        rw [Findings.resolving_ofExpression, hnone, Option.elim_none]
      rw [Findings.errors_parseExpr] at hp
      exact absurd hresolving (h.resolving hp)
    · rw [Findings.errors_parseExpr] at hp ⊢
      rw [Findings.reported_of_parse hp]

-- Errors of a source that is run are none of its static ones.
private theorem fst_result_ne_static {α : Type} (o : Outcome α) (errors : List StaticError) :
    o.result.1 ≠ .error (.static errors) := by
  cases o <;> nofun

/-- A program that is rejected leaves the machine as it was. -/
theorem snd_runSource_of_static {fuel : Nat} {lenient : Bool} {src : Bytes} {m : Machine}
    {errors : List StaticError} (h : (m.runSource fuel lenient src).1 = .error (.static errors)) :
    (m.runSource fuel lenient src).2 = m := by
  unfold runSource at h ⊢
  dsimp only at h ⊢
  split
  · next hp =>
    rw [if_pos hp] at h
    split
    · next hr =>
      rw [if_pos hr] at h
      exact absurd h (fst_result_ne_static _ errors)
    · rfl
  · rfl

/-- An expression that is rejected leaves the machine as it was. -/
theorem snd_evalSource_of_static {fuel : Nat} {src : Bytes} {m : Machine}
    {errors : List StaticError} (h : (m.evalSource fuel src).1 = .error (.static errors)) :
    (m.evalSource fuel src).2 = m := by
  unfold evalSource at h ⊢
  dsimp only at h ⊢
  split
  · next e hp htree =>
    simp only [hp, htree] at h
    split
    · next hr =>
      rw [if_pos hr] at h
      exact absurd h (fst_result_ne_static _ errors)
    · rfl
  · rfl

end Machine

namespace Shared

/-- A program with static errors leaves a session as it was, its table included. -/
theorem ask_file_of_any {lenient : Bool} {src : Bytes} (h : (Findings.ofProgram lenient src).Any)
    (fuel : Nat) (s : Shared) : s.ask fuel (.file lenient src) = s := by
  have hnone : (Ask.file lenient src).tree? = none := by
    rw [Ask.tree?, Findings.errors_parseProgram lenient, Findings.errors_resolve]
    exact if_neg fun hnone ↦
      h.resolving (List.isEmpty_iff.mp hnone.1) (List.isEmpty_iff.mp hnone.2)
  rw [ask, hnone]
  rfl

/-- An expression with static errors leaves a session as it was, its table included. -/
theorem ask_expression_of_any {src : Bytes} (h : (Findings.ofExpression src).Any) (fuel : Nat)
    (s : Shared) : s.ask fuel (.expression src) = s := by
  have hnone : (Ask.expression src).tree? = none := by
    unfold Ask.tree?
    dsimp only
    split
    · next e hp htree =>
      rw [Findings.errors_parseExpr] at hp
      have hr := h.resolving hp
      rw [Findings.resolving_ofExpression, htree, Option.elim_some] at hr
      exact if_neg (mt List.isEmpty_iff.mp hr)
    · rfl
  rw [ask, hnone]
  rfl

end Shared

/-! ## Dialogues -/

namespace Repl

/-- What a line comes to on a machine, and the machine that it leaves. -/
def process (fuel : Nat) (lenient : Bool) (m : Machine) (line : Bytes) :
    Except Failure Unit × Machine :=
  let scanned := scan line
  if scanned.tokens.length == 1 && scanned.errors.isEmpty then (.ok (), m)
  else if isExpression scanned.tokens then
    match m.evalSource fuel line with
    | (.ok v, m) => (.ok (), (Run.print v.display m).result.2)
    | (.error f, m) => (.error f, m)
  else m.runSource fuel lenient line

/-- What is reported of a line. -/
def report (backtrace : Bool) : Except Failure Unit → Bytes
  | .ok () => []
  | .error f => f.text backtrace ++ [Bytes.newline]

/-- Whether a line was rejected for its static errors. -/
def isRejection : Except Failure Unit → Bool
  | .error (.static _) => true
  | _ => false

/-- A line of a dialogue: what it came to, and what it wrote. -/
structure Entry where
  line : Bytes
  result : Except Failure Unit
  stdout : Bytes
  stderr : Bytes
  deriving DecidableEq

/-- What the lines of a dialogue come to and write, one after the other. -/
def record (fuel : Nat) (lenient backtrace : Bool) : Machine → List Bytes → List Entry
  | _, [] => []
  | m, line :: lines =>
    let (result, m') := process fuel lenient m line
    ⟨line, result, m.written m', report backtrace result⟩ :: record fuel lenient backtrace m' lines

/-- An input without the lines, line ends included, that are rejected when it is run. What comes
behind the lines that can be read is left in. -/
def withoutRejected (fuel : Nat) (lenient : Bool) (m : Machine) : Bytes → Bytes
  | [] => []
  | b :: rest =>
    let line := (b :: rest).takeWhile (· != Bytes.newline)
    if lineLimit ≤ line.length then b :: rest
    else
      let (result, m') := process fuel lenient m (Bytes.dropTrailing (Bytes.ascii '\r') line)
      let kept := withoutRejected fuel lenient m' ((b :: rest).drop (line.length + 1))
      if isRejection result then kept else (b :: rest).take (line.length + 1) ++ kept
  termination_by input => input.length
  decreasing_by simp only [List.length_drop, List.length_cons]; omega

private theorem record_cons (fuel : Nat) (lenient backtrace : Bool) (m : Machine) (line : Bytes)
    (lines : List Bytes) :
    record fuel lenient backtrace m (line :: lines) =
      ⟨line, (process fuel lenient m line).1, m.written (process fuel lenient m line).2,
          report backtrace (process fuel lenient m line).1⟩ ::
        record fuel lenient backtrace (process fuel lenient m line).2 lines := rfl

section Lines

variable {fuel : Nat} {lenient : Bool}

private theorem step_eq_process (backtrace : Bool) (d : Dialogue) (line : Bytes) :
    step fuel lenient backtrace d line =
      ⟨(process fuel lenient d.machine line).2,
        d.stderr ++ report backtrace (process fuel lenient d.machine line).1⟩ := by
  unfold step process
  dsimp only
  by_cases hempty : ((scan line).tokens.length == 1 && (scan line).errors.isEmpty) = true
  · simp [hempty, report]
  · rw [if_neg hempty, if_neg hempty]
    generalize (if isExpression (scan line).tokens = true then _ else _ :
      Except Failure Unit × Machine) = r
    obtain ⟨result, m⟩ := r
    cases result <;> simp [report]

private theorem isRejection_iff {result : Except Failure Unit} :
    isRejection result ↔ ∃ errors, result = .error (.static errors) := by
  rcases result with (errors | f) | v
  · exact ⟨fun _ ↦ ⟨errors, rfl⟩, fun _ ↦ rfl⟩
  · exact ⟨nofun, nofun⟩
  · exact ⟨nofun, nofun⟩

/-- A line that is rejected leaves the machine as it was. -/
theorem snd_process_of_isRejection {m : Machine} {line : Bytes}
    (h : isRejection (process fuel lenient m line).1) :
    (process fuel lenient m line).2 = m := by
  obtain ⟨errors, h⟩ := isRejection_iff.mp h
  unfold process at h ⊢
  dsimp only at h ⊢
  split at h
  · cases h
  next hempty =>
  rw [if_neg hempty]
  split at h
  · next hexpression =>
    rw [if_pos hexpression]
    cases heval : m.evalSource fuel line with
    | mk result m' =>
      rw [heval] at h
      cases result with
      | ok v => cases h
      | error f =>
        have hstatic : (m.evalSource fuel line).1 = .error (.static errors) := by
          rw [heval]
          exact congrArg Except.error (Except.error.inj h)
        exact (congrArg Prod.snd heval).symm.trans (Machine.snd_evalSource_of_static hstatic)
  · next hprogram =>
    rw [if_neg hprogram]
    exact Machine.snd_runSource_of_static h

/-- A line prints behind what was printed. -/
theorem process_printed (m : Machine) (line : Bytes) :
    m.printed <:+ (process fuel lenient m line).2.printed := by
  unfold process
  dsimp only
  split
  · exact List.suffix_refl _
  split
  · have heval := Machine.evalSource_printed fuel line m
    split
    · next hresult =>
      rw [hresult] at heval
      exact heval.trans (Run.prints_print _ _)
    · next hresult =>
      rw [hresult] at heval
      exact heval
  · exact Machine.runSource_printed fuel lenient line m

end Lines

/-! ### The dialogue by its lines -/

section Dialogues

variable (fuel : Nat) (lenient backtrace : Bool)

-- A dialogue writes what its lines write, one after the other.
private theorem foldl_step (d : Dialogue) (lines : List Bytes) :
    (lines.foldl (step fuel lenient backtrace) d).machine.output =
        d.machine.output ++ (record fuel lenient backtrace d.machine lines).flatMap Entry.stdout ∧
      (lines.foldl (step fuel lenient backtrace) d).stderr =
        d.stderr ++ (record fuel lenient backtrace d.machine lines).flatMap Entry.stderr := by
  induction lines generalizing d with
  | nil => simp [record]
  | cons line lines ih =>
    rw [List.foldl_cons, step_eq_process]
    obtain ⟨hout, herr⟩ := ih ⟨(process fuel lenient d.machine line).2,
      d.stderr ++ report backtrace (process fuel lenient d.machine line).1⟩
    rw [hout, herr, Machine.output_of_suffix (process_printed d.machine line)]
    simp [record]

/-- A dialogue writes what its lines write, and reports at last if it could not read on. -/
theorem run_eq_record (m : Machine) (input : Bytes) :
    let entries := record fuel lenient backtrace m (readLines input).lines
    run fuel lenient backtrace m input =
      { stdout := m.output ++ entries.flatMap Entry.stdout
        stderr := entries.flatMap Entry.stderr ++
          if (readLines input).cutOff then lineTooLong ++ [Bytes.newline] else []
        cutOff := (readLines input).cutOff } := by
  intro entries
  obtain ⟨hout, herr⟩ := foldl_step fuel lenient backtrace ⟨m, []⟩ (readLines input).lines
  rw [run, hout, herr]
  cases (readLines input).cutOff <;> simp [entries]

variable {fuel lenient backtrace}

/-- What is printed is printed by lines that are not rejected. -/
theorem flatMap_stdout_filter {m : Machine} {lines : List Bytes} :
    ((record fuel lenient backtrace m lines).filter (!isRejection ·.result)).flatMap Entry.stdout =
      (record fuel lenient backtrace m lines).flatMap Entry.stdout := by
  induction lines generalizing m with
  | nil => rfl
  | cons line lines ih =>
    rw [record_cons, List.filter_cons]
    by_cases h : isRejection (process fuel lenient m line).1
    · have hout : m.written (process fuel lenient m line).2 = [] := by
        rw [snd_process_of_isRejection h, Machine.written_self]
      simp only [h, Bool.not_true, Bool.false_eq_true, if_false, List.flatMap_cons, hout,
        List.nil_append, ih]
    · simp only [h, Bool.not_false, if_true, List.flatMap_cons, ih]

end Dialogues

/-! ### Reading what is left -/

private theorem readLines_go (acc : List Bytes) (input : Bytes) :
    readLines.go acc input =
      ⟨acc.reverse ++ (readLines input).lines, (readLines input).cutOff⟩ := by
  induction hlen : input.length using Nat.strong_induction_on generalizing acc input with
  | _ n ih =>
    cases input with
    | nil => simp [readLines, readLines.go]
    | cons b rest =>
      rw [readLines, readLines.go, readLines.go]
      split
      · simp
      · have hlt : ((b :: rest).drop
            (((b :: rest).takeWhile (· != Bytes.newline)).length + 1)).length < n := by
          simp only [List.length_drop, List.length_cons] at hlen ⊢
          omega
        rw [ih _ hlt _ _ rfl, ih _ hlt _ _ rfl]
        simp

-- Lines are read off the front.
private theorem readLines_of_takeWhile {input line : Bytes} (hne : input ≠ [])
    (hline : input.takeWhile (· != Bytes.newline) = line) :
    readLines input =
      if lineLimit ≤ line.length then ⟨[], true⟩
      else ⟨Bytes.dropTrailing (Bytes.ascii '\r') line ::
          (readLines (input.drop (line.length + 1))).lines,
        (readLines (input.drop (line.length + 1))).cutOff⟩ := by
  cases input with
  | nil => exact absurd rfl hne
  | cons b rest =>
    rw [readLines, readLines.go, hline]
    split
    · rfl
    · rw [readLines_go]
      rfl

private theorem withoutRejected_of_takeWhile {fuel : Nat} {lenient : Bool} {m : Machine}
    {input line : Bytes} (hne : input ≠ [])
    (hline : input.takeWhile (· != Bytes.newline) = line) :
    withoutRejected fuel lenient m input =
      if lineLimit ≤ line.length then input
      else
        let r := process fuel lenient m (Bytes.dropTrailing (Bytes.ascii '\r') line)
        let kept := withoutRejected fuel lenient r.2 (input.drop (line.length + 1))
        if isRejection r.1 then kept else input.take (line.length + 1) ++ kept := by
  cases input with
  | nil => exact absurd rfl hne
  | cons b rest => rw [withoutRejected, hline]

-- The line at the front of an input is all of it, or ends with a line end.
private theorem eq_takeWhile_or (input : Bytes) :
    let line := input.takeWhile (· != Bytes.newline)
    input = line ∨ ∃ rest, input = line ++ Bytes.newline :: rest := by
  intro line
  have hsplit := List.takeWhile_append_dropWhile (p := (· != Bytes.newline)) (l := input)
  cases hrest : input.dropWhile (· != Bytes.newline) with
  | nil =>
    rw [hrest, List.append_nil] at hsplit
    exact .inl hsplit.symm
  | cons c rest =>
    have hc := List.head?_dropWhile_not (· != Bytes.newline) input
    rw [hrest] at hc hsplit
    have hnewline : c = Bytes.newline := by simpa using hc
    rw [hnewline] at hsplit
    exact .inr ⟨rest, hsplit.symm⟩

-- A line is read off the front of what is put behind it.
private theorem readLines_take_append {input line kept : Bytes} (hne : input ≠ [])
    (hline : input.takeWhile (· != Bytes.newline) = line) (hshort : ¬ lineLimit ≤ line.length)
    (hkept : input.drop (line.length + 1) = [] → kept = []) :
    readLines (input.take (line.length + 1) ++ kept) =
      ⟨Bytes.dropTrailing (Bytes.ascii '\r') line :: (readLines kept).lines,
        (readLines kept).cutOff⟩ := by
  have hsplit := eq_takeWhile_or input
  rw [hline] at hsplit
  rcases hsplit with hall | ⟨rest, hrest⟩
  · -- the last line, if it has no line end
    have hdrop : input.drop (line.length + 1) = [] := by
      rw [hall]
      exact List.drop_eq_nil_of_le (Nat.le_succ _)
    rw [hkept hdrop, List.append_nil, List.take_of_length_le (hall ▸ Nat.le_succ _),
      readLines_of_takeWhile hne hline, if_neg hshort, hdrop]
  · have hfront : input.take (line.length + 1) ++ kept = line ++ Bytes.newline :: kept := by
      rw [hrest, List.take_length_add_append]
      simp
    have htake : (line ++ Bytes.newline :: kept).takeWhile (· != Bytes.newline) = line := by
      have hnewline : ∀ b ∈ line, (b != Bytes.newline) = true := by
        rw [← hline]
        exact List.all_eq_true.mp List.all_takeWhile
      rw [List.takeWhile_append_of_pos hnewline]
      simp
    rw [hfront, readLines_of_takeWhile (by simp) htake, if_neg hshort, List.drop_length_add_append]
    rfl

/-- The lines of an input without those that are rejected are the other lines, and come to what
they came to with them. -/
theorem record_withoutRejected (fuel : Nat) (lenient backtrace : Bool) (m : Machine)
    (input : Bytes) :
    record fuel lenient backtrace m (readLines (withoutRejected fuel lenient m input)).lines =
        (record fuel lenient backtrace m (readLines input).lines).filter
          (!isRejection ·.result) ∧
      (readLines (withoutRejected fuel lenient m input)).cutOff = (readLines input).cutOff := by
  induction hlen : input.length using Nat.strong_induction_on generalizing m input with
  | _ n ih =>
    by_cases hne : input = []
    · subst hne
      simp [withoutRejected, readLines, readLines.go, record]
    generalize hline : input.takeWhile (· != Bytes.newline) = line
    rw [withoutRejected_of_takeWhile hne hline, readLines_of_takeWhile hne hline]
    by_cases hlong : lineLimit ≤ line.length
    · rw [if_pos hlong, if_pos hlong, readLines_of_takeWhile hne hline, if_pos hlong]
      exact ⟨rfl, rfl⟩
    rw [if_neg hlong, if_neg hlong]
    dsimp only
    have hlt : (input.drop (line.length + 1)).length < n := by
      have hpos := List.length_pos_iff.mpr hne
      rw [List.length_drop]
      omega
    obtain ⟨hrecord, hcut⟩ := ih _ hlt (process fuel lenient m
      (Bytes.dropTrailing (Bytes.ascii '\r') line)).2 (input.drop (line.length + 1)) rfl
    rw [record_cons, List.filter_cons]
    by_cases hrejected : isRejection
        (process fuel lenient m (Bytes.dropTrailing (Bytes.ascii '\r') line)).1
    · rw [snd_process_of_isRejection hrejected] at hrecord hcut ⊢
      simp only [hrejected, if_true, Bool.not_true, Bool.false_eq_true, if_false]
      exact ⟨hrecord, hcut⟩
    · have hkept : input.drop (line.length + 1) = [] → withoutRejected fuel lenient
          (process fuel lenient m (Bytes.dropTrailing (Bytes.ascii '\r') line)).2
          (input.drop (line.length + 1)) = [] := by
        intro hnil
        rw [hnil, withoutRejected]
      simp only [hrejected, if_true, Bool.not_false, Bool.false_eq_true, if_false]
      rw [readLines_take_append hne hline hlong hkept, record_cons, hrecord]
      exact ⟨rfl, hcut⟩

end Repl

/-- A source with a static error is rejected. On every machine its run yields the errors, of which
those of the scanner come first, then those of the parser, and those of the resolver only if there
are no others; nothing is printed, and the machine is as it was, and so is a session with one table.
It follows that the lines of a dialogue that are rejected can be left out: each of the other lines
comes to the same, and writes the same. -/
theorem static_errors_change_nothing (fuel : Nat) (lenient : Bool) :
    (∀ src, (Findings.ofProgram lenient src).Any →
      (∀ m : Machine, m.runSource fuel lenient src =
        (.error (.static (Findings.ofProgram lenient src).reported), m)) ∧
      ∀ s : Shared, s.ask fuel (.file lenient src) = s) ∧
    (∀ src, (Findings.ofExpression src).Any →
      (∀ m : Machine, m.evalSource fuel src =
        (.error (.static (Findings.ofExpression src).reported), m)) ∧
      ∀ s : Shared, s.ask fuel (.expression src) = s) ∧
    (∀ errors, (Failure.static errors).status = 65) ∧
    ∀ (backtrace : Bool) (m : Machine) (input : Bytes),
      let entries := Repl.record fuel lenient backtrace m (Repl.readLines input).lines
      let kept := Repl.withoutRejected fuel lenient m input
      let ran := Repl.run fuel lenient backtrace m input
      let ranKept := Repl.run fuel lenient backtrace m kept
      ran.stdout = m.output ++ entries.flatMap Repl.Entry.stdout ∧
      ran.stderr = entries.flatMap Repl.Entry.stderr ++
        (if ran.cutOff then Repl.lineTooLong ++ [Bytes.newline] else []) ∧
      Repl.record fuel lenient backtrace m (Repl.readLines kept).lines =
        entries.filter (!Repl.isRejection ·.result) ∧
      ranKept.stdout = ran.stdout ∧
      ranKept.stderr = (entries.filter (!Repl.isRejection ·.result)).flatMap Repl.Entry.stderr ++
        (if ran.cutOff then Repl.lineTooLong ++ [Bytes.newline] else []) := by
  refine ⟨fun src h ↦ ⟨Machine.runSource_of_any h fuel, Shared.ask_file_of_any h fuel⟩,
    fun src h ↦ ⟨Machine.evalSource_of_any h fuel, Shared.ask_expression_of_any h fuel⟩,
    fun errors ↦ rfl, fun backtrace m input ↦ ?_⟩
  intro entries kept ran ranKept
  obtain ⟨hrecord, hcut⟩ := Repl.record_withoutRejected fuel lenient backtrace m input
  have hran : ran = _ := Repl.run_eq_record fuel lenient backtrace m input
  have hkept : ranKept = _ := Repl.run_eq_record fuel lenient backtrace m kept
  rw [hran, hkept]
  refine ⟨rfl, rfl, hrecord, ?_, ?_⟩
  · exact congrArg (m.output ++ ·) ((congrArg _ hrecord).trans Repl.flatMap_stdout_filter)
  · simp only [kept, hcut]
    exact congrArg (· ++ _) (congrArg _ hrecord)

-- A program in which each stage finds an error.
private def faultyProgram : Bytes := Bytes.ofString "@ print; return;"

private theorem ofProgram_faultyProgram : Findings.ofProgram false faultyProgram =
    ⟨[⟨1, .line, .unexpectedCharacter [64]⟩], [⟨1, .lexeme [59], .expectExpression⟩],
      [⟨1, .lexeme (Bytes.ofString "return"), .returnAtTopLevel⟩]⟩ := by
  decide +kernel

private theorem ofExpression_faulty : Findings.ofExpression (Bytes.ofString "a b @") =
    ⟨[⟨1, .line, .unexpectedCharacter [64]⟩], [⟨1, .lexeme [98], .expectEndOfExpression⟩], []⟩ := by
  decide +kernel

private theorem withoutRejected_faulty :
    Repl.withoutRejected 5 false (.start none 0) (Bytes.ofString "a b @\nprint true;\n") =
      Bytes.ofString "print true;\n" := by
  decide +kernel

/-- Only the errors of the scanner and of the parser are reported, and the machine is as it was. In
a dialogue the line after the rejected one prints what it prints without it. -/
theorem static_errors_change_nothing_faulty :
    (Findings.ofProgram false faultyProgram).Any ∧
    (∀ m : Machine, m.runSource 5 false faultyProgram = (.error (.static
      [⟨1, .line, .unexpectedCharacter [64]⟩, ⟨1, .lexeme [59], .expectExpression⟩]), m)) ∧
    (Findings.ofExpression (Bytes.ofString "a b @")).Any ∧
    (∀ m : Machine, m.evalSource 5 (Bytes.ofString "a b @") = (.error (.static
      [⟨1, .line, .unexpectedCharacter [64]⟩, ⟨1, .lexeme [98], .expectEndOfExpression⟩]), m)) ∧
    (Repl.run 5 false false (.start none 0) (Bytes.ofString "print true;\n")).stdout =
      (Repl.run 5 false false (.start none 0) (Bytes.ofString "a b @\nprint true;\n")).stdout := by
  obtain ⟨hprogram, hexpression, -, hdialogue⟩ := static_errors_change_nothing 5 false
  have hany : (Findings.ofProgram false faultyProgram).Any := by
    rw [ofProgram_faultyProgram]
    decide
  have hany' : (Findings.ofExpression (Bytes.ofString "a b @")).Any := by
    rw [ofExpression_faulty]
    decide
  refine ⟨hany, fun m ↦ ?_, hany', fun m ↦ ?_, ?_⟩
  · rw [(hprogram _ hany).1 m, ofProgram_faultyProgram]
    rfl
  · rw [(hexpression _ hany').1 m, ofExpression_faulty]
    rfl
  · obtain ⟨-, -, -, hstdout, -⟩ := hdialogue false (.start none 0)
      (Bytes.ofString "a b @\nprint true;\n")
    rw [withoutRejected_faulty] at hstdout
    exact hstdout

end Lox
