import Lox.Proofs.Number.Range
import Lox.Proofs.Text.Utf8
import Lox.Proofs.Token.Lexeme

/-!
# What a source consists of

A source is a sequence of stretches: white space, comments, tokens, and text that can be part of no
program. What may stand as a stretch in front of a text is said by the lexical grammar
(`Stretch.Stands`), and the stretches say what the tokens and the errors of the source are, each on
the line that its stretch ends on. Scanning finds such stretches for every source
(`exists_stretches_scan`).
-/

namespace Lox

open Segment

/-- A stretch of source text, and what it is. -/
inductive Stretch where
  | blank (text : Bytes)
  | comment (text : Bytes)
  | token (kind : Kind) (text : Bytes) (literal : Literal)
  /-- One character that begins no token, and how it is shown. -/
  | stray (text shown : Bytes)
  /-- A string without its closing quote. -/
  | unclosed (text : Bytes)
  deriving DecidableEq, Repr

/-- A text that begins neither with white space nor with a quote, and with no token. -/
structure Unexpected (src : Bytes) : Prop where
  not_blank : ∀ b ∈ src.head?, isBlank b = false
  not_quote : ∀ b ∈ src.head?, b ≠ quote
  not_token : ∀ k w v, Lexeme k w v → ¬ w <+: src

namespace Stretch

/-- The byte that begins a comment, and that makes a comment on one line after it. -/
def slash : UInt8 := Bytes.ascii '/'

/-- The byte that makes a block comment after a slash. -/
def star : UInt8 := Bytes.ascii '*'

/-- The source text of a stretch. -/
def text : Stretch → Bytes
  | .blank w | .comment w | .token _ w _ | .stray w _ | .unclosed w => w

/-- The token that a stretch is, if it is one, on a line. -/
def token? (line : Nat) : Stretch → Option Token
  | .token k w v => some ⟨k, w, v, line⟩
  | .blank _ | .comment _ | .stray _ _ | .unclosed _ => none

/-- What is wrong with a stretch, if anything. -/
def fault? : Stretch → Option StaticError.Reason
  | .stray _ shown => some (.unexpectedCharacter shown)
  | .unclosed _ => some .unterminatedString
  | .token _ w (.number _) => if (Decimal.ofText w).Overflows then some .invalidNumber else none
  | .blank _ | .comment _ | .token _ _ _ => none

/-- The error that a stretch gives, if any, on a line. -/
def error? (line : Nat) (p : Stretch) : Option StaticError := p.fault?.map (⟨line, .line, ·⟩)

/-- Whether a stretch can stand in front of the rest of a source. -/
inductive Stands : Stretch → Bytes → Prop where
  | blank {w rest : Bytes} (hne : w ≠ []) (hw : ∀ b ∈ w, isBlank b) : Stands (.blank w) rest
  /-- A comment up to the end of its line. -/
  | line {body rest : Bytes} (hbody : Bytes.newline ∉ body)
    (hrest : ∀ b ∈ rest.head?, b = Bytes.newline) : Stands (.comment (slash :: slash :: body)) rest
  /-- A comment up to the first mark that ends it. -/
  | block {body rest : Bytes} (hbody : ¬ commentEnd <:+: body ++ [star]) :
    Stands (.comment (slash :: star :: (body ++ commentEnd))) rest
  /-- A comment that runs to the end of the source. -/
  | openBlock {body : Bytes} (hbody : ¬ commentEnd <:+: body) :
    Stands (.comment (slash :: star :: body)) []
  | token {k : Kind} {w : Bytes} {v : Literal} {rest : Bytes} (h : Longest k w v rest)
    (hcomment : ∀ c ∈ [slash, star], ¬ [slash, c] <+: w ++ rest) : Stands (.token k w v) rest
  | character (c : Char) {rest : Bytes} (h : Unexpected (String.utf8EncodeChar c ++ rest)) :
    Stands (.stray (String.utf8EncodeChar c) (String.utf8EncodeChar c)) rest
  /-- A byte that begins no character is shown as the replacement character. -/
  | byte {b : UInt8} {rest : Bytes} (h : Unexpected (b :: rest))
    (hinvalid : ∀ c : Char, ¬ String.utf8EncodeChar c <+: b :: rest) :
    Stands (.stray [b] (String.utf8EncodeChar '\uFFFD')) rest
  | unclosed {s : Bytes} (hs : quote ∉ s) : Stands (.unclosed (quote :: s)) []

/-- Whether every stretch can stand in front of the stretches that follow it. -/
def Stand : List Stretch → Prop
  | [] => True
  | p :: ps => p.Stands (ps.flatMap text) ∧ Stand ps

/-- The tokens of stretches that come after the text `read`. A token is on the line that its stretch
ends on. -/
def tokens (read : Bytes) : List Stretch → List Token
  | [] => [.endOf (1 + read.newlines : Nat)]
  | p :: ps => (p.token? (1 + (read ++ p.text).newlines)).toList ++ tokens (read ++ p.text) ps

/-- The errors of stretches that come after the text `read`. -/
def errors (read : Bytes) : List Stretch → List StaticError
  | [] => []
  | p :: ps => (p.error? (1 + (read ++ p.text).newlines)).toList ++ errors (read ++ p.text) ps

/-! ## The first stretch -/

/-- A stretch is what a segment is. -/
structure Reads (p : Stretch) (s : Segment) : Prop where
  text : p.text = s.text
  token? : ∀ line, p.token? line = s.token? line
  error? : ∀ line, p.error? line = s.error? line

section First

variable {b : UInt8} {t r rest : Bytes} {form : Form} {k : Kind} {v : Literal}

-- A text is a run and what follows it.
private theorem exists_run (q : UInt8 → Bool) (bs : Bytes) : ∃ t r, bs = t ++ r ∧
    (∀ c ∈ t, q c) ∧ (∀ c ∈ r.head?, q c = false) ∧ run q (t ++ r) = t.length := by
  have ht : ∀ c ∈ bs.takeWhile q, q c := List.all_eq_true.mp List.all_takeWhile
  have hr : ∀ c ∈ (bs.dropWhile q).head?, q c = false := by
    intro c hc
    have hnot := List.head?_dropWhile_not q bs
    rw [Option.mem_def.mp hc] at hnot
    exact hnot
  exact ⟨_, _, List.takeWhile_append_dropWhile.symm, ht, hr, run_append_eq_length.mpr ⟨ht, hr⟩⟩

private theorem not_comment (h : (extent b rest).1 ≠ .comment) :
    ∀ c ∈ [slash, star], ¬ [slash, c] <+: b :: rest := by
  intro c hc hpre
  obtain ⟨u, hu⟩ := hpre
  cases hu
  refine h ?_
  rcases List.mem_pair.mp hc with rfl | rfl <;> rfl

-- A token at the front of a source reaches as far as the first segment.
private theorem stands_token (h : extent b (t ++ r) = (form, t.length)) (hform : form ≠ .comment)
    (hlex : Lexeme k (b :: t) v) : (Stretch.token k (b :: t) v).Stands r := by
  have hcomment : (extent b (t ++ r)).1 ≠ .comment := by
    rw [h]
    exact hform
  refine .token ⟨hlex, fun k' w' v' hlex' hpre ↦ ?_⟩ (not_comment hcomment)
  obtain ⟨b', t', rfl, hshape⟩ := hlex'.exists_shape
  rw [List.cons_append, List.cons_prefix_cons] at hpre
  obtain ⟨rfl, hpre⟩ := hpre
  have hle := hshape.length_le hpre
  rw [h] at hle
  exact Nat.succ_le_succ hle

private theorem exists_first (h : extent b (t ++ r) = (form, t.length)) {p : Stretch}
    (hreads : p.Reads ⟨form, b :: t⟩) (hstands : p.Stands r) :
    ∃ p : Stretch, p.Reads (first b (t ++ r)) ∧ p.Stands (remainder b (t ++ r)) := by
  rw [first_eq, remainder, h, List.take_left, List.drop_left]
  exact ⟨p, hreads, hstands⟩

private theorem exists_blank (hb : isBlank b) (h : extent b rest = (.blank, run isBlank rest)) :
    ∃ p : Stretch, p.Reads (first b rest) ∧ p.Stands (remainder b rest) := by
  obtain ⟨t, r, rfl, ht, -, hrun⟩ := exists_run isBlank rest
  rw [hrun] at h
  exact exists_first h (p := .blank (b :: t)) ⟨rfl, fun _ ↦ rfl, fun _ ↦ rfl⟩
    (.blank (List.cons_ne_nil b t) (List.forall_mem_cons.mpr ⟨hb, ht⟩))

private theorem not_mem_of_bne {c : UInt8} (ht : ∀ d ∈ t, (d != c) = true) : c ∉ t :=
  fun hc ↦ bne_iff_ne.mp (ht c hc) rfl

private theorem exists_quoted (hlt : run (· != quote) rest < rest.length)
    (h : extent quote rest = (.quoted, run (· != quote) rest + 1)) :
    ∃ p : Stretch, p.Reads (first quote rest) ∧ p.Stands (remainder quote rest) := by
  obtain ⟨s, r, rfl, hs, hr, hrun⟩ := exists_run (· != quote) rest
  rw [hrun] at h hlt
  cases r with
  | nil => simp at hlt
  | cons c r =>
    obtain rfl : c = quote := bne_eq_false_iff_eq.mp (hr c rfl)
    rw [← List.singleton_append, ← List.append_assoc] at h ⊢
    have hext : extent quote (s ++ [quote] ++ r) = (.quoted, (s ++ [quote]).length) := by
      rw [h, List.length_append]
      rfl
    have hliteral : (quote :: (s ++ [quote])).tail.dropLast = s := List.dropLast_concat
    refine exists_first hext (p := .token .string (quote :: (s ++ [quote])) (.text s))
      ⟨rfl, fun line ↦ ?_, fun _ ↦ rfl⟩
      (stands_token hext nofun (.string (not_mem_of_bne hs)))
    rw [token?, Segment.token?, hliteral]

private theorem exists_unclosed (hle : rest.length ≤ run (· != quote) rest)
    (h : extent quote rest = (.unclosed, run (· != quote) rest)) :
    ∃ p : Stretch, p.Reads (first quote rest) ∧ p.Stands (remainder quote rest) := by
  obtain ⟨s, r, rfl, hs, -, hrun⟩ := exists_run (· != quote) rest
  rw [hrun] at h hle
  obtain rfl : r = [] := by
    rw [List.length_append] at hle
    exact List.eq_nil_of_length_eq_zero (by omega)
  exact exists_first h (p := .unclosed (quote :: s)) ⟨rfl, fun _ ↦ rfl, fun _ ↦ rfl⟩
    (.unclosed (not_mem_of_bne hs))

-- A number is digits, or digits on both sides of a point.
private theorem exists_lexeme_number (hb : Decimal.isDigit b) (rest : Bytes) :
    ∃ t r, rest = t ++ r ∧ numberSize rest = t.length ∧
      Lexeme .number (b :: t) (.number (numberValue (b :: t))) := by
  obtain ⟨ds, r, rfl, hds, -, hrun⟩ := exists_run Decimal.isDigit rest
  have hwhole : IsDigits (b :: ds) := ⟨List.cons_ne_nil b ds, List.forall_mem_cons.mpr ⟨hb, hds⟩⟩
  rcases numberSize_eq (ds ++ r) with ⟨hsize, -⟩ | ⟨d, rest', hdrop, hd, hsize⟩
  · exact ⟨ds, r, rfl, hsize.trans hrun, .integer hwhole⟩
  · rw [hrun, List.drop_left] at hdrop
    obtain ⟨fs, r', rfl, hfs, -, hrun'⟩ := exists_run Decimal.isDigit rest'
    refine ⟨ds ++ Bytes.ascii '.' :: d :: fs, r', by simp [hdrop], ?_, ?_⟩
    · rw [hsize, hrun, hrun', List.length_append, List.length_cons, List.length_cons]
      omega
    · exact .fraction hwhole ⟨List.cons_ne_nil d fs, List.forall_mem_cons.mpr ⟨hd, hfs⟩⟩

private theorem exists_number (hb : Decimal.isDigit b)
    (h : extent b rest = (.number, numberSize rest)) :
    ∃ p : Stretch, p.Reads (first b rest) ∧ p.Stands (remainder b rest) := by
  obtain ⟨t, r, rfl, hsize, hlex⟩ := exists_lexeme_number hb rest
  rw [hsize] at h
  refine exists_first h (p := .token .number (b :: t) (.number (numberValue (b :: t))))
    ⟨rfl, fun _ ↦ rfl, fun line ↦ ?_⟩ (stands_token h nofun hlex)
  simp only [error?, fault?, Segment.error?, Option.isNone_iff_eq_none,
    Decimal.toNumber?_eq_none_iff]
  split <;> rfl

private theorem exists_word (hb : isWordStart b)
    (h : extent b rest = (.word, run isWordPart rest)) :
    ∃ p : Stretch, p.Reads (first b rest) ∧ p.Stands (remainder b rest) := by
  obtain ⟨t, r, rfl, ht, -, hrun⟩ := exists_run isWordPart rest
  rw [hrun] at h
  have hlex : Lexeme (Kind.ofWord (b :: t)) (b :: t) .nil :=
    .of_isWord ⟨hb, List.all_eq_true.mpr ht⟩
  exact exists_first h (p := .token (Kind.ofWord (b :: t)) (b :: t) .nil)
    ⟨rfl, fun _ ↦ rfl, fun _ ↦ rfl⟩ (stands_token h nofun hlex)

-- What begins nothing else is one character, or a byte that begins no character.
private theorem exists_stray (hblank : isBlank b = false) (hquote : b ≠ quote)
    (hdigit : Decimal.isDigit b = false) (hword : isWordStart b = false) (hk : operator? b = none)
    (h : extent b rest = (.stray, (Utf8.decode b rest).size - 1)) :
    ∃ p : Stretch, p.Reads (first b rest) ∧ p.Stands (remainder b rest) := by
  have hunexpected : Unexpected (b :: rest) := by
    refine ⟨by simpa using hblank, by simpa using hquote, fun k w v hlex hpre ↦ ?_⟩
    obtain ⟨b', t, rfl, hshape⟩ := hlex.exists_shape
    obtain ⟨rfl, -⟩ := List.cons_prefix_cons.mp hpre
    rcases hshape.first with hq | hd | hw | ho
    · exact hquote hq
    · exact absurd hd (by simp [hdigit])
    · exact absurd hw (by simp [hword])
    · exact absurd ho (by simp [hk])
  rcases Utf8.decode_cases b rest with ⟨c, hpre, hdecode⟩ | ⟨hdecode, hinvalid⟩
  · obtain ⟨t, ht⟩ : ∃ t, String.utf8EncodeChar c = b :: t := by
      cases henc : String.utf8EncodeChar c with
      | nil => exact absurd henc (by simp)
      | cons b' t =>
        rw [henc] at hpre
        exact ⟨t, by rw [(List.cons_prefix_cons.mp hpre).1]⟩
    rw [ht] at hpre hdecode
    obtain ⟨r, hr⟩ := (List.cons_prefix_cons.mp hpre).2
    subst hr
    rw [hdecode] at h
    have hshown : strayCharacter (b :: t) = b :: t := by
      have halone := Utf8.decode_of_eq_cons ht []
      rw [List.append_nil] at halone
      rw [strayCharacter, halone, Utf8.encode_toNat, ht]
    refine exists_first h (p := .stray (b :: t) (b :: t)) ⟨rfl, fun _ ↦ rfl, fun line ↦ ?_⟩ ?_
    · simp only [error?, fault?, Segment.error?, hshown]
      rfl
    · rw [← ht]
      exact .character c (ht ▸ hunexpected)
  · rw [hdecode] at h
    have hshown : strayCharacter [b] = String.utf8EncodeChar '\uFFFD' := by
      rcases Utf8.decode_cases b [] with ⟨c, hpre, -⟩ | ⟨halone, -⟩
      · exact absurd (hpre.trans (List.prefix_append [b] rest)) (hinvalid c)
      · rw [strayCharacter, halone]
        exact Utf8.encode_toNat '\uFFFD'
    refine exists_first (t := []) h (p := .stray [b] (String.utf8EncodeChar '\uFFFD'))
      ⟨rfl, fun _ ↦ rfl, fun line ↦ ?_⟩ (.byte hunexpected hinvalid)
    simp only [error?, fault?, Segment.error?, hshown]
    rfl

private theorem commentEnd_prefix_cons {bs : Bytes} :
    commentEnd <+: b :: bs ↔ b = star ∧ bs.head? = some slash := by
  cases bs <;> simp [commentEnd, star, slash, List.cons_prefix_cons, eq_comm]

-- A block comment ends with the first mark that ends it, or with the source.
private theorem blockCommentSize_cases (n : Nat) (bs : Bytes) :
    (∃ body r, bs = body ++ commentEnd ++ r ∧ ¬ commentEnd <:+: body ++ [star] ∧
      blockCommentSize n bs = n + (body ++ commentEnd).length) ∨
    ¬ commentEnd <:+: bs ∧ blockCommentSize n bs = n + bs.length := by
  fun_induction blockCommentSize n bs with
  | case1 n => exact .inr ⟨by simp [commentEnd], rfl⟩
  | case2 n b => exact .inr ⟨fun h ↦ absurd h.length_le (by simp [commentEnd]), rfl⟩
  | case3 n b c rest hend =>
    rw [Bool.and_eq_true, beq_iff_eq, beq_iff_eq] at hend
    obtain ⟨rfl, rfl⟩ := hend
    exact .inl ⟨[], rest, rfl, by decide, rfl⟩
  | case4 n b c rest hend ih =>
    rw [Bool.and_eq_true, beq_iff_eq, beq_iff_eq, not_and] at hend
    rcases ih with ⟨body, r, heq, hbody, hsize⟩ | ⟨hopen, hsize⟩
    · refine .inl ⟨b :: body, r, by rw [heq]; rfl, fun hinfix ↦ ?_, ?_⟩
      · rcases List.infix_cons_iff.mp hinfix with hpre | hinfix
        · -- the mark would begin with `b`, and what follows `b` begins as the rest does
          obtain ⟨hb, hhead⟩ := commentEnd_prefix_cons.mp hpre
          cases body with
          | nil => exact absurd hhead (by decide)
          | cons c' body =>
            cases heq
            exact hend hb (Option.some.inj hhead)
        · exact hbody hinfix
      · rw [hsize, List.cons_append, List.length_cons]
        omega
    · refine .inr ⟨fun hinfix ↦ ?_, by rw [hsize, List.length_cons (a := b)]; omega⟩
      rcases List.infix_cons_iff.mp hinfix with hpre | hinfix
      · obtain ⟨hb, hhead⟩ := commentEnd_prefix_cons.mp hpre
        exact hend hb (Option.some.inj hhead)
      · exact hopen hinfix

private theorem exists_line (h : extent slash (slash :: rest) =
      (.comment, 1 + run (· != Bytes.newline) rest)) :
    ∃ p : Stretch, p.Reads (first slash (slash :: rest)) ∧
      p.Stands (remainder slash (slash :: rest)) := by
  obtain ⟨body, r, rfl, hbody, hr, hrun⟩ := exists_run (· != Bytes.newline) rest
  rw [hrun, Nat.add_comm] at h
  exact exists_first (t := slash :: body) h (p := .comment (slash :: slash :: body))
    ⟨rfl, fun _ ↦ rfl, fun _ ↦ rfl⟩
    (.line (not_mem_of_bne hbody) fun c hc ↦ bne_eq_false_iff_eq.mp (hr c hc))

private theorem exists_block (h : extent slash (star :: rest) =
      (.comment, 1 + blockCommentSize 0 rest)) :
    ∃ p : Stretch, p.Reads (first slash (star :: rest)) ∧
      p.Stands (remainder slash (star :: rest)) := by
  rcases blockCommentSize_cases 0 rest with ⟨body, r, rfl, hbody, hsize⟩ | ⟨hopen, hsize⟩
  · rw [hsize, Nat.zero_add, Nat.add_comm] at h
    exact exists_first (t := star :: (body ++ commentEnd)) h
      (p := .comment (slash :: star :: (body ++ commentEnd)))
      ⟨rfl, fun _ ↦ rfl, fun _ ↦ rfl⟩ (.block hbody)
  · rw [hsize, Nat.zero_add, Nat.add_comm] at h
    have hext : extent slash (star :: rest ++ []) = (.comment, (star :: rest).length) := by
      rw [List.append_nil]
      exact h
    rw [← List.append_nil (star :: rest)]
    exact exists_first hext (p := .comment (slash :: star :: rest))
      ⟨rfl, fun _ ↦ rfl, fun _ ↦ rfl⟩ (.openBlock hopen)

private theorem exists_operator (hk : operator? b = some k)
    (h : extent b rest = operatorExtent k rest) :
    ∃ p : Stretch, p.Reads (first b rest) ∧ p.Stands (remainder b rest) := by
  have hlex := Lexeme.operator (Lexeme.mem_operators_of_operator? hk)
  have halone : ∀ rest, extent b rest = (.operator k, 0) →
      ∃ p : Stretch, p.Reads (first b rest) ∧ p.Stands (remainder b rest) := fun rest h ↦
    exists_first (t := []) h (p := .token k [b] .nil) ⟨rfl, fun _ ↦ rfl, fun _ ↦ rfl⟩
      (stands_token (t := []) h nofun hlex)
  cases rest with
  | nil => exact halone [] h
  | cons c rest =>
    rcases operatorExtent_cons k c with hc | ⟨rfl, rfl, hc⟩ | ⟨rfl, rfl, hc⟩ | ⟨k', hk', rfl, hc⟩
    · exact halone _ (h.trans (hc rest))
    · obtain rfl : b = slash := eq_slash hk
      exact exists_line (h.trans (hc rest))
    · obtain rfl : b = slash := eq_slash hk
      exact exists_block (h.trans (hc rest))
    · have hequal := h.trans (hc rest)
      exact exists_first (t := [Bytes.ascii '=']) hequal
        (p := .token k' [b, Bytes.ascii '='] .nil) ⟨rfl, fun _ ↦ rfl, fun _ ↦ rfl⟩
        (stands_token (t := [Bytes.ascii '=']) hequal nofun
          (.operator (Lexeme.mem_operators_of_withEqual? hk hk')))

/-- The first segment of a source is a stretch that can stand there. -/
theorem exists_reads_first (b : UInt8) (rest : Bytes) :
    ∃ p : Stretch, p.Reads (first b rest) ∧ p.Stands (remainder b rest) := by
  rcases extent_cases b rest with ⟨hb, h⟩ | ⟨rfl, hlt, h⟩ | ⟨rfl, hle, h⟩ | ⟨hb, h⟩ | ⟨hb, h⟩ |
    ⟨⟨hblank, hquote, hdigit, hword, hk⟩, h⟩ | ⟨k, hk, h⟩
  · exact exists_blank hb h
  · exact exists_quoted hlt h
  · exact exists_unclosed hle h
  · exact exists_number hb h
  · exact exists_word hb h
  · exact exists_stray hblank hquote hdigit hword hk h
  · exact exists_operator hk h

end First

/-! ## All stretches -/

-- What the segments of a source tell, when the text `read` is before them.
private theorem exists_stretches (read src : Bytes) : ∃ ps : List Stretch, ps.flatMap text = src ∧
    Stand ps ∧
    (placed (1 + read.newlines) (segments src)).filterMap (fun (s, line) ↦ s.token? line) ++
      [.endOf (1 + (read ++ src).newlines : Nat)] = tokens read ps ∧
    (placed (1 + read.newlines) (segments src)).filterMap (fun (s, line) ↦ s.error? line) =
      errors read ps := by
  -- the rest of a source is shorter than the source
  induction hn : src.length using Nat.strongRecOn generalizing read src with
  | ind n ih =>
    cases src with
    | nil => exact ⟨[], rfl, trivial, by simp [tokens], by simp [errors]⟩
    | cons b rest =>
      obtain ⟨p, hreads, hstands⟩ := exists_reads_first b rest
      obtain ⟨ps, htext, hstand, htokens, herrors⟩ := ih _ (hn ▸ length_remainder_lt b rest)
        (read ++ p.text) (remainder b rest) rfl
      have hsplit : p.text ++ remainder b rest = b :: rest := by
        rw [hreads.text, text_first_append_remainder]
      have hline :
          1 + (read ++ p.text).newlines = 1 + read.newlines + (first b rest).text.newlines := by
        rw [newlines_append, hreads.text, Nat.add_assoc]
      refine ⟨p :: ps, ?_, ?_, ?_, ?_⟩
      · rw [List.flatMap_cons, htext, hsplit]
      · rw [Stand, htext]
        exact ⟨hstands, hstand⟩
      · rw [tokens, ← htokens, segments_cons, placed_cons, hreads.token?, hline, List.append_assoc,
          hsplit]
        cases htoken : (first b rest).token? (1 + read.newlines + (first b rest).text.newlines) <;>
          simp [htoken]
      · rw [errors, ← herrors, segments_cons, placed_cons, hreads.error?, hline]
        cases herror : (first b rest).error? (1 + read.newlines + (first b rest).text.newlines) <;>
          simp [herror]

/-- A source consists of stretches, none of them lost, doubled or out of order, and each of them one
that can stand where it does. Its tokens are those of the stretches, and so are its errors. -/
theorem exists_stretches_scan (src : Bytes) :
    ∃ ps : List Stretch, ps.flatMap text = src ∧ Stand ps ∧
    (scan src).tokens = tokens [] ps ∧ (scan src).errors = errors [] ps :=
  exists_stretches [] src

end Stretch
end Lox
