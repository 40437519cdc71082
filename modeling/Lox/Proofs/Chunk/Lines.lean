import Lox.Proofs.Places

/-!
# Lines of chunks

A chunk is made of the lines between two dividers, and its source has these lines where the file has
them. `Chunk.Spans` says between which dividers the chunk of some number is, without regard to how
the file is read. The result is that each chunk keeps the lines that it spans: they are the same in
its source as in the file, lines in front of them are empty, and what is expected and what is found
is on them (`chunks_keep_lines`).
-/

namespace Lox

/-- Line `n` of a text. The first line is line 1. -/
def Bytes.line? (bs : Bytes) : Nat → Option Bytes
  | 0 => none
  | n + 1 => (split newline bs)[n]?

/-! ## Splitting into lines -/

namespace Bytes

-- Parts between newlines have none in them.
private theorem notMem_of_mem_split {sep : UInt8} {bs l : Bytes} (h : l ∈ split sep bs) :
    sep ∉ l := by
  induction bs generalizing l with
  | nil =>
    rw [List.mem_singleton.mp h]
    exact List.not_mem_nil
  | cons b bs ih =>
    rw [split, List.splitOnP_cons_eq_if_modifyHead] at h
    obtain ⟨l', ls, hsplit⟩ := List.exists_cons_of_ne_nil (List.splitOnP_ne_nil (· == sep) bs)
    rw [split, hsplit] at ih
    rw [hsplit] at h
    split at h
    · rcases List.mem_cons.mp h with rfl | h
      · exact List.not_mem_nil
      · exact ih h
    · next hb =>
      rcases List.mem_cons.mp h with rfl | h
      · intro hsep
        rcases List.mem_cons.mp hsep with rfl | hsep
        · exact hb (beq_self_eq_true _)
        · exact ih List.mem_cons_self hsep
      · exact ih (List.mem_cons_of_mem _ h)

private theorem length_split (sep : UInt8) (bs : Bytes) :
    (split sep bs).length = bs.count sep + 1 := by
  induction bs with
  | nil => rfl
  | cons b bs ih =>
    rw [split] at ih ⊢
    rw [List.splitOnP_cons_eq_if_modifyHead, List.count_cons]
    split <;> simp_all

private theorem split_replicate_append (sep : UInt8) (k : Nat) (bs : Bytes) :
    split sep (List.replicate k sep ++ bs) = List.replicate k [] ++ split sep bs := by
  induction k with
  | zero => rfl
  | succ k ih =>
    rw [List.replicate_succ, List.replicate_succ, List.cons_append, List.cons_append, ← ih]
    rw [split, List.splitOnP_cons_eq_if_modifyHead, if_pos (beq_self_eq_true sep), split]

-- Parts that are joined are found again.
private theorem split_join {sep : UInt8} {ls : List Bytes} (hsep : ∀ l ∈ ls, sep ∉ l)
    (hne : ls ≠ []) : split sep (join [sep] ls) = ls :=
  List.splitOn_intercalate sep hsep hne

end Bytes

namespace Chunk

/-- Line `n` of a file, without one carriage return at its end. -/
def line? (data : Bytes) (n : Nat) : Option Bytes :=
  (data.line? n).map (Bytes.dropTrailing (Bytes.ascii '\r'))

private theorem line?_succ (data : Bytes) (n : Nat) : line? data (n + 1) = (linesOf data)[n]? :=
  List.getElem?_map.symm

private theorem newline_notMem_of_mem_linesOf {data l : Bytes} (h : l ∈ linesOf data) :
    Bytes.newline ∉ l := by
  obtain ⟨l', hl', rfl⟩ := List.mem_map.mp h
  have hnewline := Bytes.notMem_of_mem_split hl'
  unfold Bytes.dropTrailing
  split
  · exact fun hmem ↦ hnewline (List.dropLast_subset l' hmem)
  · exact hnewline

/-! ## Lines between dividers -/

/-- The lines from `first` to `last`, if any, are those between two dividers that are next to each
other, or between a divider and an end of the file, and there are `i` dividers in front of them. -/
structure Spans (data : Bytes) (i first last : Nat) : Prop where
  pos : 0 < first
  le : first ≤ last + 1
  before : ((linesOf data).take (first - 1)).count divider = i
  opens : first = 1 ∨ line? data (first - 1) = some divider
  plain : ∀ n, first ≤ n → n ≤ last → ∃ l, line? data n = some l ∧ l ≠ divider
  closes : line? data (last + 1) = none ∨ line? data (last + 1) = some divider

section Unique

variable {data : Bytes} {i first last first' last' : Nat}

-- There are more dividers in front of a line behind a divider.
private theorem count_take_lt {ls : List Bytes} {m n k : Nat} (hmn : m ≤ n)
    (hn : ls[n]? = some divider) (hnk : n < k) :
    (ls.take m).count divider < (ls.take k).count divider := by
  calc (ls.take m).count divider ≤ (ls.take n).count divider :=
        (List.take_prefix_take_left hmn).sublist.count_le divider
    _ < (ls.take (n + 1)).count divider := by
      rw [List.take_add_one, hn, List.count_append]
      simp
    _ ≤ (ls.take k).count divider := (List.take_prefix_take_left hnk).sublist.count_le divider

private theorem Spans.first_le (h : Spans data i first last) (h' : Spans data i first' last') :
    first' ≤ first := by
  by_contra hlt
  have hpos := h.pos
  rcases h'.opens with hone | hdivider
  · omega
  · obtain ⟨n, hn⟩ : ∃ n, first' - 1 = n + 1 := ⟨first' - 2, by omega⟩
    rw [hn, line?_succ] at hdivider
    have hcount := count_take_lt (m := first - 1) (k := first' - 1) (by omega) hdivider (by omega)
    rw [h.before, h'.before] at hcount
    exact Nat.lt_irrefl i hcount

private theorem Spans.last_le (h : Spans data i first last) (h' : Spans data i first last') :
    last' ≤ last := by
  by_contra hlt
  obtain ⟨l, hl, hne⟩ := h'.plain (last + 1) h.le (by omega)
  rcases h.closes with hnone | hdivider
  · rw [hnone] at hl
    cases hl
  · rw [hdivider] at hl
    cases hl
    exact hne rfl

/-- Dividers leave one choice for the lines of a chunk. -/
theorem Spans.unique (h : Spans data i first last) (h' : Spans data i first' last') :
    first = first' ∧ last = last' := by
  obtain rfl : first = first' := Nat.le_antisymm (h'.first_le h) (h.first_le h')
  exact ⟨rfl, Nat.le_antisymm (h'.last_le h) (h.last_le h')⟩

end Unique

/-! ## Sections -/

/-- A section as it is cut out of the lines of a file, behind `i` dividers. -/
structure Cut (ls : List Bytes) (i : Nat) (s : Section) (front back : List Bytes) : Prop where
  eq : ls = front ++ s.lines ++ back
  first : s.first = front.length + 1
  before : front.count divider = i
  opens : ∀ l ∈ front.getLast?, l = divider
  plain : divider ∉ s.lines
  closes : ∀ l ∈ back.head?, l = divider

-- Each section is cut out of the lines, whether they were read before or not.
private theorem exists_cut_sectionsFrom {front acc rest : List Bytes} {first i : Nat} {s : Section}
    (hfirst : first = front.length + 1) (hopens : ∀ l ∈ front.getLast?, l = divider)
    (hplain : divider ∉ acc) (hs : (sectionsFrom first acc rest)[i]? = some s) :
    ∃ front' back, Cut (front ++ acc.reverse ++ rest) (front.count divider + i) s front' back := by
  induction rest generalizing front acc first i with
  | nil =>
    cases i with
    | zero =>
      cases hs
      exact ⟨front, [], rfl, hfirst, rfl, hopens, by simpa using hplain, by simp⟩
    | succ i => cases hs
  | cons l rest ih =>
    by_cases hl : l = divider
    · subst hl
      rw [sectionsFrom, if_pos rfl] at hs
      cases i with
      | zero =>
        cases hs
        exact ⟨front, divider :: rest, rfl, hfirst, rfl, hopens, by simpa using hplain, by simp⟩
      | succ i =>
        -- the divider and what is in front of it were read
        have hlength : first + acc.length + 1 = (front ++ acc.reverse ++ [divider]).length + 1 := by
          simp only [List.length_append, List.length_reverse, List.length_singleton]
          omega
        have hcut := ih hlength (by simp) List.not_mem_nil hs
        have hcount : acc.reverse.count divider = 0 := by
          rw [List.count_eq_zero]
          simpa using hplain
        rw [List.count_append, List.count_append, hcount] at hcut
        have hone : front.count divider + 0 + [divider].count divider + i =
            front.count divider + (i + 1) := by
          rw [List.count_singleton_self]
          omega
        rw [hone] at hcut
        simpa using hcut
    · rw [sectionsFrom, if_neg hl] at hs
      have hcut := ih hfirst hopens (by simpa [Ne.symm hl] using hplain) hs
      simpa using hcut

private theorem exists_cut {data : Bytes} {i : Nat} {s : Section}
    (hs : (sections data)[i]? = some s) : ∃ front back, Cut (linesOf data) i s front back := by
  have hopens : ∀ l ∈ ([] : List Bytes).getLast?, l = divider := by simp
  have hcut := exists_cut_sectionsFrom rfl hopens List.not_mem_nil hs
  simpa using hcut

-- There is one section more than dividers.
private theorem length_sectionsFrom (first : Nat) (acc rest : List Bytes) :
    (sectionsFrom first acc rest).length = rest.count divider + 1 := by
  induction rest generalizing first acc with
  | nil => rfl
  | cons l rest ih =>
    by_cases hl : l = divider
    · rw [sectionsFrom, if_pos hl, List.length_cons, ih, hl, List.count_cons_self]
    · rw [sectionsFrom, if_neg hl, ih, List.count_cons_of_ne hl]

section Cut

variable {data : Bytes} {i : Nat} {s : Section} {front back : List Bytes}

-- The lines of a section and what is behind it, by their places in the file.
private theorem Cut.line? (h : Cut (linesOf data) i s front back) (m : Nat) :
    line? data (s.first + m) = (s.lines ++ back)[m]? := by
  rw [h.first, Nat.add_right_comm, line?_succ, h.eq, List.append_assoc,
    List.getElem?_append_right (Nat.le_add_right _ m), Nat.add_sub_cancel_left]

/-- A section spans its lines. -/
theorem Cut.spans (h : Cut (linesOf data) i s front back) :
    Spans data i s.first (s.first + s.lines.length - 1) := by
  have hpos : 0 < s.first := by
    rw [h.first]
    exact Nat.succ_pos _
  constructor
  case pos => exact hpos
  case le => omega
  case before =>
    rw [h.first, Nat.add_sub_cancel, h.eq, List.append_assoc, List.take_left]
    exact h.before
  case opens =>
    rw [h.first, Nat.add_sub_cancel]
    rcases List.eq_nil_or_concat' front with rfl | ⟨front, l, rfl⟩
    · exact .inl rfl
    · rw [List.length_append, List.length_singleton, line?_succ, h.eq]
      have hl := h.opens l (by simp)
      simp [hl]
  case plain =>
    intro n hfirst hlast
    obtain ⟨m, rfl⟩ := Nat.exists_eq_add_of_le hfirst
    have hm : m < s.lines.length := by omega
    rw [h.line?, List.getElem?_append_left hm, List.getElem?_eq_getElem hm]
    refine ⟨_, rfl, fun heq ↦ h.plain ?_⟩
    rw [← heq]
    exact List.getElem_mem hm
  case closes =>
    have hlast : s.first + s.lines.length - 1 + 1 = s.first + s.lines.length := by omega
    rw [hlast, h.line?, List.getElem?_append_right (Nat.le_refl _), Nat.sub_self,
      ← List.head?_eq_getElem?]
    cases hback : back.head? with
    | none => exact .inl rfl
    | some l => exact .inr (congrArg some (h.closes l hback))

end Cut

/-! ## Sources of sections -/

namespace Section

variable {s : Section}

-- A source has as many empty lines as there are lines in front of the section, and then the lines
-- of the section; a section without lines leaves one empty line.
private theorem split_source (hlines : ∀ l ∈ s.lines, Bytes.newline ∉ l) :
    Bytes.split Bytes.newline s.source =
      List.replicate (s.first - 1) [] ++ if s.lines = [] then [[]] else s.lines := by
  rw [source, Bytes.split_replicate_append]
  split
  · next hnil =>
    rw [hnil]
    rfl
  · next hne => rw [Bytes.split_join hlines hne]

private theorem line?_source (hpos : 0 < s.first) (hlines : ∀ l ∈ s.lines, Bytes.newline ∉ l)
    (m : Nat) : s.source.line? (s.first + m) = (if s.lines = [] then [[]] else s.lines)[m]? := by
  obtain ⟨k, hk⟩ := Nat.exists_eq_succ_of_ne_zero hpos.ne'
  rw [hk, Nat.succ_add, Bytes.line?, split_source hlines, hk, Nat.succ_sub_one,
    List.getElem?_append_right (by simp), List.length_replicate, Nat.add_sub_cancel_left]

private theorem line?_source_of_lt (hlines : ∀ l ∈ s.lines, Bytes.newline ∉ l) {n : Nat}
    (hn : 0 < n) (hlt : n < s.first) : s.source.line? n = some [] := by
  obtain ⟨k, rfl⟩ := Nat.exists_eq_succ_of_ne_zero hn.ne'
  have hk : k < s.first - 1 := by omega
  rw [Bytes.line?, split_source hlines, List.getElem?_append_left (by simpa using hk),
    List.getElem?_replicate, if_pos hk]

-- Errors are expected on lines of the section.
private theorem line_of_mem_expected {e : Int × Pattern} (he : e ∈ (ofSection s).1.expected) :
    (s.first : Int) ≤ e.1 ∧ e.1 < (s.first + s.lines.length : Nat) := by
  obtain ⟨r, hr, heq⟩ := List.mem_filterMap.mp he
  obtain ⟨l, hl, rfl⟩ := List.mem_map.mp hr
  obtain ⟨⟨text, n⟩, hn, rfl⟩ := List.mem_map.mp hl
  obtain ⟨hle, hlt, -⟩ := List.mem_zipIdx hn
  dsimp only at heq
  split at heq
  · next n' p hresult =>
    obtain ⟨rfl, -⟩ := Prod.mk.inj hresult
    rw [← Option.some.inj heq]
    dsimp only
    omega
  · cases heq

-- The empty lines in front are blank.
private theorem isBlank_of_mem_replicate (k : Nat) :
    ∀ b ∈ List.replicate k Bytes.newline, Segment.isBlank b := by
  intro b hb
  rw [List.eq_of_mem_replicate hb]
  decide

-- Static errors are on lines of the section.
private theorem line_of_mem_staticErrors (hpos : 0 < s.first)
    (hlines : ∀ l ∈ s.lines, Bytes.newline ∉ l) {lenient : Bool} {e : StaticError}
    (he : e ∈ staticErrors lenient s.source) :
    (s.first : Int) ≤ e.line ∧ e.line < (s.first + s.lines.length : Nat) := by
  have hblanks := isBlank_of_mem_replicate (s.first - 1)
  by_cases hnil : s.lines = []
  · have hsource : s.source = List.replicate (s.first - 1) Bytes.newline := by
      rw [source, hnil]
      exact List.append_nil _
    rw [hsource, staticErrors_blanks hblanks] at he
    cases he
  · have hnewlines : (Bytes.join [Bytes.newline] s.lines).newlines + 1 = s.lines.length := by
      rw [Bytes.newlines, ← Bytes.length_split, Bytes.split_join hlines hnil]
    have hfront : Bytes.newlines (List.replicate (s.first - 1) Bytes.newline) = s.first - 1 :=
      List.count_replicate_self
    have hline := Lox.line_of_mem_staticErrors hblanks he
    rw [hfront] at hline
    omega

end Section

/-- A chunk has the lines of the file from `first` to `last` at their places, empty lines in front
of them and none behind. What is expected, and what is wrong with the source, is on these lines. -/
structure KeepsLines (data : Bytes) (c : Chunk Pattern) (first last : Nat) : Prop where
  own : ∀ n, first ≤ n → n ≤ last → c.source.line? n = line? data n
  padding : ∀ n, 0 < n → n < first → c.source.line? n = some []
  behind : ∀ n, first < n → last < n → c.source.line? n = none
  expected : ∀ e ∈ c.expected, (first : Int) ≤ e.1 ∧ e.1 ≤ last
  errors : ∀ lenient, ∀ e ∈ staticErrors lenient c.source, (first : Int) ≤ e.line ∧ e.line ≤ last

private theorem Cut.keepsLines {data : Bytes} {i : Nat} {s : Section} {front back : List Bytes}
    (h : Cut (linesOf data) i s front back) :
    KeepsLines data (ofSection s).1 s.first (s.first + s.lines.length - 1) := by
  have hpos : 0 < s.first := h.spans.pos
  have hlines : ∀ l ∈ s.lines, Bytes.newline ∉ l := by
    intro l hl
    have hmem : l ∈ linesOf data := by
      rw [h.eq]
      exact List.mem_append_left back (List.mem_append_right front hl)
    exact newline_notMem_of_mem_linesOf hmem
  constructor
  case own =>
    intro n hfirst hlast
    obtain ⟨m, rfl⟩ := Nat.exists_eq_add_of_le hfirst
    have hm : m < s.lines.length := by omega
    have hne : s.lines ≠ [] := List.ne_nil_of_length_pos (by omega)
    rw [h.line?, List.getElem?_append_left hm]
    exact (Section.line?_source hpos hlines m).trans (by rw [if_neg hne])
  case padding => exact fun n hn hlt ↦ Section.line?_source_of_lt hlines hn hlt
  case behind =>
    intro n hfirst hlast
    obtain ⟨m, rfl⟩ := Nat.exists_eq_add_of_lt hfirst
    refine (Section.line?_source hpos hlines (m + 1)).trans (List.getElem?_eq_none ?_)
    split
    · simp
    · omega
  case expected =>
    intro e he
    have hline := Section.line_of_mem_expected he
    omega
  case errors =>
    intro lenient e he
    have hline := Section.line_of_mem_staticErrors hpos hlines he
    omega

private theorem length_ofFile (data : Bytes) :
    (ofFile data).1.length = (linesOf data).count divider + 1 := by
  simp [ofFile, sections, length_sectionsFrom]

/-- There is one chunk more than dividers. The chunk behind `i` dividers is made of the lines up
to the next one, it has them where the file has them, and what is expected and what is wrong is
there. -/
theorem chunks_keep_lines (data : Bytes) :
    (ofFile data).1.length = (linesOf data).count divider + 1 ∧
    (∀ i, (∃ first last, Spans data i first last) ↔ i < (ofFile data).1.length) ∧
    ∀ i first last, Spans data i first last →
      ∃ c, (ofFile data).1[i]? = some c ∧ KeepsLines data c first last := by
  have hlength := length_ofFile data
  have hexists : ∀ i < (ofFile data).1.length, ∃ c first last,
      (ofFile data).1[i]? = some c ∧ Spans data i first last ∧ KeepsLines data c first last := by
    intro i hi
    have hi' : i < (sections data).length := by simpa [ofFile] using hi
    obtain ⟨front, back, hcut⟩ := exists_cut (List.getElem?_eq_getElem hi')
    exact ⟨_, _, _, by simp [ofFile, hi'], hcut.spans, hcut.keepsLines⟩
  have hlt : ∀ i first last, Spans data i first last → i < (ofFile data).1.length := by
    intro i first last h
    have hcount := (List.take_sublist (first - 1) (linesOf data)).count_le divider
    rw [h.before] at hcount
    omega
  refine ⟨hlength, fun i ↦ ⟨?_, fun hi ↦ ?_⟩, fun i first last h ↦ ?_⟩
  · rintro ⟨first, last, h⟩
    exact hlt i first last h
  · obtain ⟨c, first, last, -, h, -⟩ := hexists i hi
    exact ⟨first, last, h⟩
  · obtain ⟨c, first', last', hc, h', hkeeps⟩ := hexists i (hlt i first last h)
    obtain ⟨rfl, rfl⟩ := h.unique h'
    exact ⟨c, hc, hkeeps⟩

/-- Two dividers next to each other, with carriage returns behind them, and a string that is left
open up to the empty line at the end of the file. -/
theorem chunks_keep_lines_unclosed :
    let data := Bytes.ofString "print 1;\r\n---\r\n---\r\nprint \"\r\n"
    Spans data 1 3 2 ∧ Spans data 2 4 5 ∧
    (∃ c, (ofFile data).1[1]? = some c ∧ KeepsLines data c 3 2) ∧
    ∃ c, (ofFile data).1[2]? = some c ∧ KeepsLines data c 4 5 := by
  intro data
  have hlines : linesOf data =
      ["print 1;", "---", "---", "print \"", ""].map Bytes.ofString := by decide
  have hbetween : Spans data 1 3 2 := by
    refine ⟨by decide, by decide, ?_, .inr ?_, fun n hfirst hlast ↦ ?_, .inr ?_⟩
    · rw [hlines]
      decide
    · rw [line?_succ, hlines]
      decide
    · omega
    · rw [line?_succ, hlines]
      decide
  have hend : Spans data 2 4 5 := by
    refine ⟨by decide, by decide, ?_, .inr ?_, fun n hfirst hlast ↦ ?_, .inl ?_⟩
    · rw [hlines]
      decide
    · rw [line?_succ, hlines]
      decide
    · obtain rfl | rfl : n = 4 ∨ n = 5 := by omega
      · exact ⟨_, by rw [line?_succ, hlines]; rfl, by decide⟩
      · exact ⟨_, by rw [line?_succ, hlines]; rfl, by decide⟩
    · rw [line?_succ, hlines]
      decide
  have hkeep := (chunks_keep_lines data).2.2
  exact ⟨hbetween, hend, hkeep 1 3 2 hbetween, hkeep 2 4 5 hend⟩

end Chunk
end Lox
