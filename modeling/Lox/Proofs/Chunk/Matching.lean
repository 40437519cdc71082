import Lox.Chunk.Check
import Mathlib.Data.List.Nodup

/-!
# Errors as expected

The errors of a chunk are compared with the expected ones as they come, and each of them uses up
what is expected on its line. Nothing is reported in the end just if the errors meet the
expectations (`Chunk.Meets`): one error on each line where one is expected, with a message that
fits, and no other. This says nothing of an order, so the order of the errors does not matter.
-/

namespace Lox.Chunk

variable {π : Type}

/-- The complaints when errors are given one after the other, and then no more. -/
def reports (isMatch : π → Bytes → Bool) (patternText : π → Bytes) (c : Chunk π) :
    List (Int × Bytes) → List Complaint
  | [] => c.done patternText
  | (line, message) :: errors =>
    let (c, complaints) := c.gotError isMatch patternText line message
    complaints ++ c.reports isMatch patternText errors

/-- A chunk in which nothing is expected on a line any more. -/
def without (c : Chunk π) (line : Int) : Chunk π :=
  { c with expected := c.expected.filter (·.1 != line) }

/-- Errors are as expected. -/
structure Meets (isMatch : π → Bytes → Bool) (c : Chunk π) (errors : List (Int × Bytes)) :
    Prop where
  /-- No two errors are on one line. -/
  distinct : (errors.map Prod.fst).Nodup
  /-- The lines with an error are those on which one is expected. -/
  lines : ∀ line, line ∈ errors.map Prod.fst ↔ line ∈ c.expected.map Prod.fst
  /-- Each message is as the pattern of its line says. -/
  messages : ∀ line message p, (line, message) ∈ errors → c.expected.lookup line = some p →
    isMatch p message

section One

variable {isMatch : π → Bytes → Bool} {patternText : π → Bytes} {c : Chunk π} {line : Int}
  {message : Bytes}

private theorem mem_lines_iff :
    line ∈ c.expected.map Prod.fst ↔ ∃ p, c.expected.lookup line = some p := by
  rw [← Option.isSome_iff_exists, List.lookup_isSome_iff]
  simp

/-- Nothing but what is expected on the line is taken away. -/
theorem lookup_without (line' : Int) : (c.without line).expected.lookup line' =
    if line' = line then none else c.expected.lookup line' := by
  obtain ⟨source, expected⟩ := c
  simp only [without]
  induction expected with
  | nil => simp
  | cons entry rest ih =>
    obtain ⟨l, p⟩ := entry
    by_cases hl : l = line
    · rw [List.filter_cons_of_neg (by simp [hl]), ih]
      by_cases hl' : line' = line
      · simp [hl']
      · have hne : (line' == l) = false := by simp [hl, hl']
        simp [hl', List.lookup_cons, hne]
    · rw [List.filter_cons_of_pos (by simp [hl]), List.lookup_cons, List.lookup_cons, ih]
      by_cases hl' : line' = l
      · simp [hl', hl]
      · have hne : (line' == l) = false := by simp [hl']
        simp [hne]

private theorem mem_lines_without (line' : Int) : line' ∈ (c.without line).expected.map Prod.fst ↔
    line' ≠ line ∧ line' ∈ c.expected.map Prod.fst := by
  rw [mem_lines_iff, mem_lines_iff, lookup_without]
  by_cases hl : line' = line <;> simp [hl]

/-- Whatever its message, an error uses up what is expected on its line. -/
theorem gotError_fst : (c.gotError isMatch patternText line message).1 = c.without line := by
  unfold gotError
  cases h : c.expected.lookup line with
  | some p => rfl
  | none =>
    have hkeep : c.expected.filter (·.1 != line) = c.expected := by
      rw [List.filter_eq_self]
      intro entry hentry
      have hne := List.lookup_eq_none_iff.mp h entry hentry
      rw [bne_iff_ne] at hne ⊢
      exact hne.symm
    simp only [without, hkeep]

/-- There is no complaint about an error that is expected and whose message fits. -/
theorem gotError_snd_eq_nil_iff : (c.gotError isMatch patternText line message).2 = [] ↔
    ∃ p, c.expected.lookup line = some p ∧ isMatch p message := by
  unfold gotError
  cases c.expected.lookup line with
  | none => simp
  | some p => simp

private theorem reports_cons (errors : List (Int × Bytes)) :
    c.reports isMatch patternText ((line, message) :: errors) =
      (c.gotError isMatch patternText line message).2 ++
        (c.without line).reports isMatch patternText errors := by
  have hrest : (c.gotError isMatch patternText line message).1 = c.without line := gotError_fst
  rw [← hrest]
  rfl

end One

/-! ## All errors -/

section All

variable {isMatch : π → Bytes → Bool} {patternText : π → Bytes} {c : Chunk π}
  {errors errors' : List (Int × Bytes)}

private theorem meets_nil : c.Meets isMatch [] ↔ c.expected = [] := by
  constructor
  · intro h
    have hnone : ∀ line, line ∉ c.expected.map Prod.fst := fun line hline ↦
      List.not_mem_nil ((h.lines line).mpr hline)
    simpa using List.eq_nil_iff_forall_not_mem.mpr hnone
  · intro h
    exact ⟨List.nodup_nil, by simp [h], nofun⟩

/-- The first error is expected and fits, and the others meet what is expected on the other
lines. -/
theorem meets_cons {line : Int} {message : Bytes} :
    c.Meets isMatch ((line, message) :: errors) ↔
      (∃ p, c.expected.lookup line = some p ∧ isMatch p message) ∧
        (c.without line).Meets isMatch errors := by
  constructor
  · intro h
    obtain ⟨hline, hdistinct⟩ := List.nodup_cons.mp h.distinct
    obtain ⟨p, hp⟩ := mem_lines_iff.mp ((h.lines line).mp List.mem_cons_self)
    refine ⟨⟨p, hp, h.messages line message p List.mem_cons_self hp⟩, hdistinct, ?_, ?_⟩
    · intro line'
      rw [mem_lines_without, ← h.lines line', List.map_cons, List.mem_cons]
      constructor
      · intro hmem
        exact ⟨fun heq ↦ hline (heq ▸ hmem), .inr hmem⟩
      · rintro ⟨hne, hmem⟩
        exact hmem.resolve_left hne
    · intro line' message' p' hmem hp'
      rw [lookup_without] at hp'
      split at hp'
      · cases hp'
      · exact h.messages line' message' p' (List.mem_cons_of_mem _ hmem) hp'
  · rintro ⟨⟨p, hp, hmatch⟩, h⟩
    have hother : ∀ line' ∈ errors.map Prod.fst, line' ≠ line := fun line' hmem ↦
      ((mem_lines_without line').mp ((h.lines line').mp hmem)).1
    refine ⟨List.nodup_cons.mpr ⟨fun hmem ↦ hother line hmem rfl, h.distinct⟩, ?_, ?_⟩
    · intro line'
      rw [List.map_cons, List.mem_cons, h.lines line', mem_lines_without]
      by_cases hl : line' = line
      · simp [hl, mem_lines_iff.mpr ⟨p, hp⟩]
      · simp [hl]
    · intro line' message' p' hmem hp'
      rcases List.mem_cons.mp hmem with heq | hmem
      · cases heq
        rw [hp] at hp'
        cases hp'
        exact hmatch
      · have hne := hother line' (List.mem_map_of_mem hmem)
        refine h.messages line' message' p' hmem ?_
        rw [lookup_without, if_neg hne, hp']

/-- Nothing is reported if the errors are as expected, and only then. -/
theorem reports_eq_nil_iff :
    c.reports isMatch patternText errors = [] ↔ c.Meets isMatch errors := by
  induction errors generalizing c with
  | nil =>
    rw [meets_nil]
    simp [reports, done]
  | cons e errors ih =>
    obtain ⟨line, message⟩ := e
    rw [reports_cons, List.append_eq_nil_iff, gotError_snd_eq_nil_iff, ih, meets_cons]

private theorem Meets.perm (h : c.Meets isMatch errors) (hp : errors.Perm errors') :
    c.Meets isMatch errors' where
  distinct := (hp.map Prod.fst).nodup h.distinct
  lines line := by rw [← h.lines line, (hp.map Prod.fst).mem_iff]
  messages line message p hmem := h.messages line message p (hp.mem_iff.mpr hmem)

/-- Nothing is reported just if there is one error on each line where one is expected, with a
message that fits, and no other error; in whatever order the errors are given. -/
theorem reports_nothing_iff (isMatch : π → Bytes → Bool) (patternText : π → Bytes) (c : Chunk π)
    (errors : List (Int × Bytes)) :
    (c.reports isMatch patternText errors = [] ↔ c.Meets isMatch errors) ∧
    ∀ errors', errors'.Perm errors →
      (c.reports isMatch patternText errors' = [] ↔ c.reports isMatch patternText errors = []) := by
  refine ⟨reports_eq_nil_iff, fun errors' hp ↦ ?_⟩
  rw [reports_eq_nil_iff, reports_eq_nil_iff]
  exact ⟨fun h ↦ h.perm hp, fun h ↦ h.perm hp.symm⟩

/-- A message that does not fit uses up what is expected on its line, so that the one that fits is
not expected any more. It is no better the other way round. -/
theorem reports_nothing_iff_repeated :
    let isMatch (p message : Bytes) : Bool := p == message
    let c : Chunk Bytes := ⟨[], [(3, [97]), (5, [98])]⟩
    [(5, [98]), (3, [97]), (3, [99])].Perm [((3 : Int), ([99] : Bytes)), (3, [97]), (5, [98])] ∧
    c.reports isMatch id [(3, [99]), (3, [97]), (5, [98])] =
      [.mismatch 3 [99] [97], .unexpectedError 3 [97]] ∧
    c.reports isMatch id [(5, [98]), (3, [97]), (3, [99])] ≠ [] := by
  intro isMatch c
  have hp : [(5, [98]), (3, [97]), (3, [99])].Perm
      [((3 : Int), ([99] : Bytes)), (3, [97]), (5, [98])] := by decide
  have hfirst : c.reports isMatch id [(3, [99]), (3, [97]), (5, [98])] =
      [.mismatch 3 [99] [97], .unexpectedError 3 [97]] := by decide
  refine ⟨hp, hfirst, fun h ↦ ?_⟩
  rw [(reports_nothing_iff isMatch id c _).2 _ hp, hfirst] at h
  cases h

end All

/-! ## Checking -/

/-- Checking a chunk complains about its static errors as if they were given one after the other. -/
theorem check_append (c : Chunk Pattern) : c.check.1 ++ c.check.2 =
    c.reports matchesPattern Pattern.text
      ((staticErrors (isLenient c.source) c.source).map fun e ↦ (e.line, e.reason.message)) := by
  have hall : ∀ (c : Chunk Pattern) (errors : List StaticError),
      (c.gotErrors errors).2 ++ (c.gotErrors errors).1.done Pattern.text =
        c.reports matchesPattern Pattern.text (errors.map fun e ↦ (e.line, e.reason.message)) := by
    intro c errors
    induction errors generalizing c with
    | nil => rfl
    | cons e errors ih =>
      simp only [List.map_cons, reports, ← ih]
      exact List.append_assoc _ _ _
  exact hall c _

/-- A chunk passes just if its static errors are as expected. -/
theorem check_eq_nil_iff (c : Chunk Pattern) : c.check = ([], []) ↔ c.Meets matchesPattern
    ((staticErrors (isLenient c.source) c.source).map fun e ↦ (e.line, e.reason.message)) := by
  have hall : c.check = ([], []) ↔ c.check.1 ++ c.check.2 = [] := by
    rw [List.append_eq_nil_iff, Prod.ext_iff]
  rw [hall, check_append, reports_eq_nil_iff]

end Lox.Chunk
