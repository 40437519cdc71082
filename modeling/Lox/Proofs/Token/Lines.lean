import Lox.Proofs.Syntax.Relabel
import Lox.Proofs.Token.Extent

/-!
# Lines of a source

Scanning a source of several lines gives what scanning each line gives, one after the other: no
token goes on over the end of a line, if no string and no comment is left open there.
-/

namespace Lox.Segment

/-! ## Segments one after the other -/

private theorem segments_go_append (acc acc' : List Segment) (src : Bytes) :
    segments.go (acc ++ acc') src = acc'.reverse ++ segments.go acc src := by
  fun_induction segments.go acc src with
  | case1 acc => simp [segments.go]
  | case2 acc b rest ih =>
    rw [← ih, segments.go]
    rfl

/-- An empty source has no segments. -/
@[simp] theorem segments_nil : segments [] = [] := by
  simp [segments, segments.go]

/-- The first segment of a source is followed by those of the remainder. -/
theorem segments_cons (b : UInt8) (rest : Bytes) :
    segments (b :: rest) = first b rest :: segments (remainder b rest) := by
  rw [segments, segments.go]
  exact segments_go_append [] [first b rest] (remainder b rest)

private theorem placed_go_append (acc acc' : List (Segment × Nat)) (line : Nat)
    (ss : List Segment) :
    placed.go (acc ++ acc') line ss = acc'.reverse ++ placed.go acc line ss := by
  fun_induction placed.go acc line ss with
  | case1 acc line => simp [placed.go]
  | case2 acc line s ss line' ih =>
    rw [← ih, placed.go]
    rfl

/-- No segments are on no lines. -/
@[simp] theorem placed_nil (line : Nat) : placed line [] = [] := rfl

/-- A segment is on the line that it ends on, and the next one begins there. -/
@[simp] theorem placed_cons (line : Nat) (s : Segment) (ss : List Segment) :
    placed line (s :: ss) =
      (s, line + s.text.newlines) :: placed (line + s.text.newlines) ss := by
  rw [placed, placed.go]
  exact placed_go_append [] [(s, line + s.text.newlines)] _ ss

/-- Whether a segment stands for a token or an error. -/
def matters (s : Segment) : Bool := s.form != .blank && s.form != .comment

/-- The segments of a source that matter, each with the line it ends on, when the source begins on
`line`. -/
def significant (line : Nat) (src : Bytes) : List (Segment × Nat) :=
  (placed line (segments src)).filter (·.1.matters)

/-- Nothing matters in an empty source. -/
@[simp] theorem significant_nil (line : Nat) : significant line [] = [] := by
  simp [significant]

/-- The first segment counts if it matters, and then those of the remainder. -/
theorem significant_cons (line : Nat) (b : UInt8) (rest : Bytes) :
    significant line (b :: rest) =
      (if (first b rest).matters then
          [(first b rest, line + (first b rest).text.newlines)] else []) ++
        significant (line + (first b rest).text.newlines) (remainder b rest) := by
  rw [significant, segments_cons, placed_cons, List.filter_cons]
  split <;> rfl

private theorem first_of_isBlank {b : UInt8} (hb : isBlank b) (rest : Bytes) :
    first b rest = ⟨.blank, b :: rest.take (run isBlank rest)⟩ := by
  rw [first_eq, extent_of_isBlank hb]

private theorem remainder_of_isBlank {b : UInt8} (hb : isBlank b) (rest : Bytes) :
    remainder b rest = rest.drop (run isBlank rest) := by
  rw [remainder, extent_of_isBlank hb]

-- White space at the front, up to what is none.
private theorem isBlank_of_mem_first {b : UInt8} (hb : isBlank b) {rest : Bytes} :
    ∀ c ∈ (first b rest).text, isBlank c := by
  intro c hc
  rw [first_of_isBlank hb] at hc
  rcases List.mem_cons.mp hc with rfl | hc
  · exact hb
  · rw [run, ← List.prefix_iff_eq_take.mp (List.takeWhile_prefix isBlank)] at hc
    exact List.all_eq_true.mp List.all_takeWhile c hc

private theorem significant_run {b : UInt8} (hb : isBlank b) (line : Nat) (rest : Bytes) :
    significant line (b :: rest) =
      significant (line + Bytes.newlines (b :: rest.take (run isBlank rest)))
        (rest.drop (run isBlank rest)) := by
  rw [significant_cons, first_of_isBlank hb, remainder_of_isBlank hb]
  rfl

/-- The line ends of two texts are those of both. -/
theorem newlines_append (bs bs' : Bytes) :
    Bytes.newlines (bs ++ bs') = bs.newlines + bs'.newlines :=
  List.count_append

/-- White space does not matter, but for its line ends. -/
theorem significant_blank {b : UInt8} (hb : isBlank b) (line : Nat) (rest : Bytes) :
    significant line (b :: rest) = significant (line + Bytes.newlines [b]) rest := by
  rw [significant_run hb]
  cases rest with
  | nil => rfl
  | cons c rest =>
    by_cases hc : isBlank c
    · have hrun : run isBlank (c :: rest) = run isBlank rest + 1 := by
        simp [run, List.takeWhile_cons_of_pos hc]
      rw [significant_run hc, hrun, List.take_succ_cons, List.drop_succ_cons, Nat.add_assoc,
        ← newlines_append]
      rfl
    · have hrun : run isBlank (c :: rest) = 0 := by
        simp [run, List.takeWhile_cons_of_neg hc]
      rw [hrun]
      rfl

private theorem significant_blanks {bs : Bytes} (hbs : ∀ b ∈ bs, isBlank b) (line : Nat)
    (rest : Bytes) : significant line (bs ++ rest) = significant (line + bs.newlines) rest := by
  induction bs generalizing line with
  | nil => rfl
  | cons b bs ih =>
    rw [List.cons_append, significant_blank (hbs b List.mem_cons_self),
      ih fun c hc ↦ hbs c (List.mem_cons_of_mem b hc), Nat.add_assoc, ← newlines_append]
    rfl

/-- A source that begins on a later line. -/
theorem significant_add (line k : Nat) (src : Bytes) :
    significant (line + k) src = (significant line src).map fun p ↦ (p.1, p.2 + k) := by
  have hplaced : ∀ (ss : List Segment) (line : Nat),
      placed (line + k) ss = (placed line ss).map fun p ↦ (p.1, p.2 + k) := by
    intro ss
    induction ss with
    | nil => intro line; rfl
    | cons s ss ih =>
      intro line
      rw [placed_cons, placed_cons, List.map_cons, Nat.add_right_comm, ih]
  rw [significant, significant, hplaced, List.filter_map]
  rfl

/-! ## Lines -/

/-- No string and no block comment is left open, and there is nothing else that is no part of a
program. -/
def Settled (s : Segment) : Prop :=
  s.form ≠ .stray ∧ s.form ≠ .unclosed ∧ ¬ s.IsOpenComment

private theorem looksLike_append (r rest : Bytes) : LooksLike r (r ++ Bytes.newline :: rest) := by
  cases r with
  | nil => exact ⟨.inr (.inr ⟨rfl, rfl⟩), nofun⟩
  | cons b r =>
    refine ⟨.inl rfl, fun _ ↦ ?_⟩
    cases r with
    | nil => exact .inr (.inr ⟨rfl, rfl⟩)
    | cons c r => exact .inl rfl

-- The front of a source, if it is not white space, ends where it does at the end of a line.
private theorem extent_append_line {b : UInt8} {a : Bytes} (hb : isBlank b = false)
    (hs : (first b a).Settled) (rest : Bytes) :
    extent b (a ++ Bytes.newline :: rest) = extent b a ∧ (extent b a).2 ≤ a.length := by
  obtain ⟨hstray, hunclosed, hopen⟩ := hs
  have hle : (extent b a).2 ≤ a.length := extent_le hstray
  have hext := extent_congr (extent_take_append_drop hstray)
    (looksLike_append (a.drop (extent b a).2) rest) hb hstray hunclosed fun _ _ ↦ hopen
  rw [← List.append_assoc, List.take_append_drop, List.length_take, Nat.min_eq_left hle] at hext
  exact ⟨hext, hle⟩

private theorem newlines_eq_zero {bs : Bytes} (h : Bytes.newline ∉ bs) : bs.newlines = 0 :=
  List.count_eq_zero.mpr h

/-- What is on the first line, and what is on the next ones. -/
theorem significant_append_line {a : Bytes} (ha : ∀ s ∈ segments a, s.Settled) (line : Nat)
    (hline : Bytes.newline ∉ a) (rest : Bytes) :
    significant line (a ++ Bytes.newline :: rest) =
      significant line a ++ significant (line + 1) rest := by
  induction hn : a.length using Nat.strongRecOn generalizing a line with
  | ind n ih =>
    cases a with
    | nil =>
      rw [List.nil_append, significant_blank (by decide), significant_nil]
      rfl
    | cons b a =>
      have hsegments := segments_cons b a
      have htext := text_first_append_remainder b a
      have hnone : (first b a).text.newlines = 0 :=
        newlines_eq_zero fun hmem ↦ hline (htext ▸ List.mem_append_left _ hmem)
      have hmore : significant line (remainder b a ++ Bytes.newline :: rest) =
          significant line (remainder b a) ++ significant (line + 1) rest := by
        refine ih (remainder b a).length ?_ (fun s hs ↦ ha s ?_) line (fun hmem ↦ hline ?_) rfl
        · rw [← hn]
          exact length_remainder_lt b a
        · rw [hsegments]
          exact List.mem_cons_of_mem _ hs
        · exact htext ▸ List.mem_append_right _ hmem
      by_cases hb : isBlank b
      · -- white space may go on over the end of the line
        rw [← htext, List.append_assoc, significant_blanks (isBlank_of_mem_first hb),
          significant_blanks (isBlank_of_mem_first hb), hnone]
        exact hmore
      · have hs : (first b a).Settled := ha _ (by rw [hsegments]; exact List.mem_cons_self)
        obtain ⟨hext, hle⟩ := extent_append_line (by simpa using hb) hs rest
        have hfirst : first b (a ++ Bytes.newline :: rest) = first b a := by
          rw [first_eq, first_eq, hext, List.take_append_of_le_length hle]
        have hremainder : remainder b (a ++ Bytes.newline :: rest) =
            remainder b a ++ Bytes.newline :: rest := by
          rw [remainder, remainder, hext, List.drop_append_of_le_length hle]
        rw [List.cons_append, significant_cons, significant_cons, hfirst, hremainder, hnone,
          Nat.add_zero, hmore, List.append_assoc]

end Lox.Segment

namespace Lox

open Segment

/-- The tokens of a source that begins on `line`, without the one for its end. -/
def tokensFrom (line : Nat) (src : Bytes) : List Token :=
  (significant line src).filterMap fun p ↦ p.1.token? p.2

/-- The errors in the tokens of a source that begins on `line`. -/
def tokenErrorsFrom (line : Nat) (src : Bytes) : List StaticError :=
  (significant line src).filterMap fun p ↦ p.1.error? p.2

private theorem filterMap_significant {α : Type} (f : Segment → Nat → Option α)
    (hf : ∀ s line, s.matters = false → f s line = none) (line : Nat) (src : Bytes) :
    (placed line (segments src)).filterMap (fun (s, line) ↦ f s line) =
      (significant line src).filterMap fun p ↦ f p.1 p.2 := by
  rw [significant, List.filterMap_filter]
  congr 1
  funext p
  cases hp : p.1.matters with
  | true => simp
  | false => simp [hf p.1 p.2 hp]

private theorem token?_eq_none (s : Segment) (line : Nat) (h : s.matters = false) :
    s.token? line = none := by
  obtain ⟨form, text⟩ := s
  cases form <;> simp_all [matters, token?]

private theorem error?_eq_none (s : Segment) (line : Nat) (h : s.matters = false) :
    s.error? line = none := by
  obtain ⟨form, text⟩ := s
  cases form <;> simp_all [matters, error?]

/-- The scanner yields the tokens from the first line on, and one for the end. -/
theorem tokens_scan (src : Bytes) :
    (scan src).tokens = tokensFrom 1 src ++ [.endOf (1 + src.newlines : Nat)] := by
  rw [tokensFrom, ← filterMap_significant _ token?_eq_none]
  rfl

/-- The scanner reports the errors from the first line on. -/
theorem errors_scan (src : Bytes) : (scan src).errors = tokenErrorsFrom 1 src := by
  rw [tokenErrorsFrom, ← filterMap_significant _ error?_eq_none]
  rfl

private theorem filterMap_significant_cons {α : Type} (f : Segment → Nat → Option α)
    (hf : ∀ s line, s.matters = false → f s line = none) (line : Nat) (b : UInt8) (rest : Bytes) :
    (significant line (b :: rest)).filterMap (fun p ↦ f p.1 p.2) =
      (f (first b rest) (line + (first b rest).text.newlines)).toList ++
        (significant (line + (first b rest).text.newlines) (remainder b rest)).filterMap
          fun p ↦ f p.1 p.2 := by
  rw [← filterMap_significant f hf, ← filterMap_significant f hf, segments_cons, placed_cons,
    List.filterMap_cons]
  cases h : f (first b rest) (line + (first b rest).text.newlines) <;> simp [h]

/-- The token at the front of a source, if there is one, and the tokens of what follows. -/
theorem tokensFrom_cons (line : Nat) (b : UInt8) (rest : Bytes) :
    tokensFrom line (b :: rest) =
      ((first b rest).token? (line + (first b rest).text.newlines)).toList ++
        tokensFrom (line + (first b rest).text.newlines) (remainder b rest) :=
  filterMap_significant_cons _ token?_eq_none line b rest

/-- The error at the front of a source, if there is one, and the errors of what follows. -/
theorem tokenErrorsFrom_cons (line : Nat) (b : UInt8) (rest : Bytes) :
    tokenErrorsFrom line (b :: rest) =
      ((first b rest).error? (line + (first b rest).text.newlines)).toList ++
        tokenErrorsFrom (line + (first b rest).text.newlines) (remainder b rest) :=
  filterMap_significant_cons _ error?_eq_none line b rest

/-- What is true of the segment at the front of every source is true of all segments. -/
theorem Segment.forall_segments {P : Segment → Prop} (h : ∀ b rest, P (first b rest))
    (src : Bytes) : ∀ s ∈ segments src, P s := by
  induction hn : src.length using Nat.strongRecOn generalizing src with
  | ind n ih =>
    cases src with
    | nil => simp
    | cons b rest =>
      rw [segments_cons]
      intro s hs
      rcases List.mem_cons.mp hs with rfl | hs
      · exact h b rest
      · exact ih _ (hn ▸ length_remainder_lt b rest) (remainder b rest) rfl s hs

/-- Segments that have a line are among the segments. -/
theorem fst_mem_of_mem_placed {ss : List Segment} {line : Nat} {p : Segment × Nat}
    (h : p ∈ placed line ss) : p.1 ∈ ss := by
  induction ss generalizing line with
  | nil => cases h
  | cons s ss ih =>
    rw [placed_cons] at h
    rcases List.mem_cons.mp h with rfl | h
    · exact List.mem_cons_self
    · exact List.mem_cons_of_mem s (ih h)

private theorem line_of_mem_placed {ss : List Segment} {line : Nat} {p : Segment × Nat}
    (h : p ∈ placed line ss) :
    line ≤ p.2 ∧ p.2 ≤ line + Bytes.newlines (ss.flatMap Segment.text) := by
  induction ss generalizing line with
  | nil => cases h
  | cons s ss ih =>
    rw [placed_cons] at h
    rw [List.flatMap_cons, newlines_append]
    rcases List.mem_cons.mp h with rfl | h
    · dsimp only
      omega
    · have hline := ih h
      omega

/-- What matters in a source is on one of its lines. -/
theorem line_of_mem_significant {line : Nat} {src : Bytes} {p : Segment × Nat}
    (h : p ∈ significant line src) : line ≤ p.2 ∧ p.2 ≤ line + src.newlines := by
  have hline := line_of_mem_placed (List.mem_filter.mp h).1
  rwa [flatMap_text_segments] at hline

private theorem exists_mem_placed {ss : List Segment} (line : Nat) {s : Segment} (h : s ∈ ss) :
    ∃ line', (s, line') ∈ placed line ss := by
  induction ss generalizing line with
  | nil => cases h
  | cons s' ss ih =>
    rw [placed_cons]
    rcases List.mem_cons.mp h with rfl | h
    · exact ⟨_, List.mem_cons_self⟩
    · obtain ⟨line', hmem⟩ := ih (line + s'.text.newlines) h
      exact ⟨line', List.mem_cons_of_mem _ hmem⟩

private theorem ofWord_ne_eof (word : Bytes) : Kind.ofWord word ≠ .eof := by
  unfold Kind.ofWord
  cases h : Kind.keywords.lookup word with
  | none => simp
  | some k =>
    obtain ⟨before, after, hsplit, -⟩ := List.lookup_eq_some_iff.mp h
    have hmem : k ∈ Kind.keywords.map Prod.snd := by
      rw [hsplit]
      simp
    rintro rfl
    revert hmem
    decide

/-- No token but the last one ends the source. -/
theorem kind_ne_eof_of_mem_tokensFrom {line : Nat} {src : Bytes} :
    ∀ t ∈ tokensFrom line src, t.kind ≠ .eof := by
  intro t ht
  obtain ⟨⟨s, line'⟩, hs, htoken⟩ := List.mem_filterMap.mp ht
  have hmem := fst_mem_of_mem_placed (List.mem_filter.mp hs).1
  have hform : s.form ≠ .operator .eof :=
    forall_segments (P := fun s ↦ s.form ≠ .operator .eof)
      (extent_ne_operator (by decide)) src s hmem
  obtain ⟨form, text⟩ := s
  cases form with
  | operator k =>
    cases htoken
    exact fun hk ↦ hform (congrArg Form.operator hk)
  | quoted | number =>
    cases htoken
    nofun
  | word =>
    cases htoken
    exact ofWord_ne_eof text
  | blank | comment | stray | unclosed => cases htoken

private theorem line_of_token? {s : Segment} {line : Nat} {t : Token} (h : s.token? line = some t) :
    t.line = line := by
  obtain ⟨form, text⟩ := s
  cases form <;> simp only [token?, Option.some.injEq, reduceCtorEq] at h <;> rw [← h]

private theorem line_of_error? {s : Segment} {line : Nat} {e : StaticError}
    (h : s.error? line = some e) : e.line = line := by
  obtain ⟨form, text⟩ := s
  cases form <;>
    simp only [error?, Option.ite_none_right_eq_some, Option.some.injEq, reduceCtorEq] at h
  case number => rw [← h.2]
  all_goals rw [← h]

/-- Tokens are on the lines of their source. -/
theorem line_of_mem_tokensFrom {line : Nat} {src : Bytes} {t : Token}
    (h : t ∈ tokensFrom line src) :
    (line : Int) ≤ t.line ∧ t.line ≤ (line + src.newlines : Nat) := by
  obtain ⟨p, hp, htoken⟩ := List.mem_filterMap.mp h
  have hline := line_of_mem_significant hp
  rw [line_of_token? htoken]
  omega

/-- Errors in tokens are on the lines of their source. -/
theorem line_of_mem_tokenErrorsFrom {line : Nat} {src : Bytes} {e : StaticError}
    (h : e ∈ tokenErrorsFrom line src) :
    (line : Int) ≤ e.line ∧ e.line ≤ (line + src.newlines : Nat) := by
  obtain ⟨p, hp, herror⟩ := List.mem_filterMap.mp h
  have hline := line_of_mem_significant hp
  rw [line_of_error? herror]
  omega

/-- White space at the front of a source makes its tokens stand on later lines. -/
theorem tokensFrom_blanks {bs : Bytes} (hbs : ∀ b ∈ bs, isBlank b) (line : Nat) (rest : Bytes) :
    tokensFrom line (bs ++ rest) = tokensFrom (line + bs.newlines) rest := by
  rw [tokensFrom, significant_blanks hbs]
  rfl

/-- White space in front only moves the rest down. -/
theorem tokenErrorsFrom_blanks {bs : Bytes} (hbs : ∀ b ∈ bs, isBlank b) (line : Nat)
    (rest : Bytes) :
    tokenErrorsFrom line (bs ++ rest) = tokenErrorsFrom (line + bs.newlines) rest := by
  rw [tokenErrorsFrom, significant_blanks hbs]
  rfl

/-- Without errors there is nothing that is no part of a program. -/
theorem form_ne_of_errors_scan {src : Bytes} (h : (scan src).errors = []) :
    ∀ s ∈ segments src, s.form ≠ .stray ∧ s.form ≠ .unclosed := by
  intro s hs
  obtain ⟨line, hmem⟩ := exists_mem_placed 1 hs
  have hnone : s.error? line = none := List.filterMap_eq_nil_iff.mp h (s, line) hmem
  refine ⟨fun hf ↦ ?_, fun hf ↦ ?_⟩
  · simp [error?, hf] at hnone
  · simp [error?, hf] at hnone

/-- In a source without errors, nothing but a block comment can be left open. -/
theorem settled_of_errors_scan {src : Bytes} (h : (scan src).errors = [])
    (hopen : ∀ s ∈ segments src, ¬ s.IsOpenComment) : ∀ s ∈ segments src, s.Settled := by
  intro s hs
  obtain ⟨hstray, hunclosed⟩ := form_ne_of_errors_scan h s hs
  exact ⟨hstray, hunclosed, hopen s hs⟩

section Lines

variable {line : Nat} {a : Bytes}

/-- The tokens of the first line, and those of the next ones. -/
theorem tokensFrom_append_line (ha : ∀ s ∈ segments a, s.Settled) (hline : Bytes.newline ∉ a)
    (rest : Bytes) :
    tokensFrom line (a ++ Bytes.newline :: rest) =
      tokensFrom line a ++ tokensFrom (line + 1) rest := by
  rw [tokensFrom, significant_append_line ha line hline, List.filterMap_append]
  rfl

/-- After a line that is settled, the errors of the next lines come. -/
theorem tokenErrorsFrom_append_line (ha : ∀ s ∈ segments a, s.Settled) (hline : Bytes.newline ∉ a)
    (rest : Bytes) :
    tokenErrorsFrom line (a ++ Bytes.newline :: rest) =
      tokenErrorsFrom line a ++ tokenErrorsFrom (line + 1) rest := by
  rw [tokenErrorsFrom, significant_append_line ha line hline, List.filterMap_append]
  rfl

private theorem token?_add (s : Segment) (line k : Nat) :
    s.token? (line + k) = (s.token? line).map (Relabel.shift k).token := by
  obtain ⟨form, text⟩ := s
  cases form <;> simp [token?, Relabel.token, Relabel.place, Relabel.shift]

/-- The tokens of a source that begins on a later line. -/
theorem tokensFrom_add (line k : Nat) (src : Bytes) :
    tokensFrom (line + k) src = (tokensFrom line src).map (Relabel.shift k).token := by
  rw [tokensFrom, tokensFrom, significant_add, List.filterMap_map, List.map_filterMap]
  congr 1
  funext p
  exact token?_add p.1 p.2 k

-- Whether there is an error does not depend on the line.
private theorem error?_eq_none_of_line {s : Segment} {line : Nat} (h : s.error? line = none)
    (line' : Nat) : s.error? line' = none := by
  obtain ⟨form, text⟩ := s
  cases form with
  | number =>
    simp only [error?] at h ⊢
    split at h
    · cases h
    · rename_i hnumber
      rw [if_neg hnumber]
  | stray | unclosed => cases h
  | blank | comment | operator | quoted | word => rfl

/-- A source without errors has none further down. -/
theorem tokenErrorsFrom_add (line k : Nat) {src : Bytes} (h : tokenErrorsFrom line src = []) :
    tokenErrorsFrom (line + k) src = [] := by
  rw [tokenErrorsFrom, significant_add, List.filterMap_map]
  refine List.filterMap_eq_nil_iff.mpr fun p hp ↦ ?_
  exact error?_eq_none_of_line (List.filterMap_eq_nil_iff.mp h p hp) (p.2 + k)

end Lines

end Lox
