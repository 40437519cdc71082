import Lox.Proofs.Token.Lines
import Mathlib.Data.List.Forall2

/-!
# Sources with another name in some places

A name in a source can be replaced by another one, in all or some of the places where it stands. The
other segments of the source stay what they are, so that its tokens are the same but for this name
(`exists_scan_respelled`).
-/

namespace Lox

/-- A token, or the same with the name `z` if its name is `x`. -/
inductive Token.Respelled (x z : Bytes) (t : Token) : Token → Prop
  | same : Token.Respelled x z t t
  | name (hkind : t.kind = .identifier) (hx : t.lexeme = x) :
    Token.Respelled x z t { t with lexeme := z }

/-- A respelled token has its kind. -/
theorem Token.Respelled.kind {x z : Bytes} {t t' : Token} (h : t.Respelled x z t') :
    t'.kind = t.kind := by
  cases h <;> rfl

/-- Tokens may all stay as they are. -/
theorem Token.respelled_all_refl (x z : Bytes) (ts : List Token) :
    List.Forall₂ (Token.Respelled x z) ts ts :=
  List.forall₂_same.mpr fun _ _ ↦ .same

namespace Segment

/-- A text that is one word. -/
def IsWord : Bytes → Prop
  | [] => False
  | b :: rest => isWordStart b ∧ rest.all isWordPart

/-- Decided byte by byte. -/
instance : (w : Bytes) → Decidable (IsWord w)
  | [] => inferInstanceAs (Decidable False)
  | b :: rest => inferInstanceAs (Decidable (isWordStart b ∧ rest.all isWordPart))

/-- A segment, or the word `z` if it is the word `x`. -/
inductive Respelled (x z : Bytes) : Segment → Segment → Prop
  | same (s : Segment) : Respelled x z s s
  | word : Respelled x z ⟨.word, x⟩ ⟨.word, z⟩

variable {x z : Bytes}

/-- All bytes of a word can continue one. -/
theorem IsWord.isWordPart (h : IsWord z) : ∀ c ∈ z, isWordPart c := by
  match z, h with
  | b :: rest, ⟨hb, hrest⟩ =>
    have hstart : Segment.isWordPart b := by simp [Segment.isWordPart, hb]
    exact List.forall_mem_cons.mpr ⟨hstart, List.all_eq_true.mp hrest⟩

private theorem IsWord.newlines (h : IsWord z) : z.newlines = 0 :=
  List.count_eq_zero.mpr fun hmem ↦ absurd (h.isWordPart _ hmem) (by decide)

/-- A segment that is called a word is one, and no part of a word follows it. -/
theorem isWord_first {b : UInt8} {rest : Bytes} (h : (first b rest).form = .word) :
    IsWord (first b rest).text ∧ ∀ c ∈ (remainder b rest).head?, isWordPart c = false := by
  have hb := isWordStart_of_extent h
  have hext := extent_of_isWordStart hb rest
  have hrun : run isWordPart (rest.take (run isWordPart rest) ++ rest.drop (run isWordPart rest)) =
      (rest.take (run isWordPart rest)).length := by
    rw [List.take_append_drop, List.length_take, Nat.min_eq_left (length_run_le isWordPart rest)]
  obtain ⟨hparts, hstop⟩ := run_append_eq_length.mp hrun
  rw [first_eq, remainder, hext]
  exact ⟨⟨hb, List.all_eq_true.mpr hparts⟩, hstop⟩

/-- What is at the front of a source up to where its first segment ends. -/
theorem segments_append {b : UInt8} {t r : Bytes} {form : Form}
    (h : extent b (t ++ r) = (form, t.length)) :
    segments (b :: (t ++ r)) = ⟨form, b :: t⟩ :: segments r := by
  rw [segments_cons, first_eq, remainder, h, List.take_left, List.drop_left]

/-- A segment that is not empty, and that is one word if it is called a word. -/
structure Proper (s : Segment) : Prop where
  text_ne_nil : s.text ≠ []
  isWord : s.form = .word → IsWord s.text

private theorem proper_segments (src : Bytes) : ∀ s ∈ segments src, s.Proper :=
  forall_segments (fun _ _ ↦ ⟨List.cons_ne_nil _ _, fun h ↦ (isWord_first h).1⟩) src

/-! ## Other words -/

section Words

variable {ss ss' : List Segment}

-- The first byte is the same, or begins a word as before.
private theorem alike_respelled (hz : IsWord z) (hss : ∀ s ∈ ss, s.Proper)
    (h : List.Forall₂ (Respelled x z) ss ss') :
    Alike (ss.flatMap text).head? (ss'.flatMap text).head? := by
  cases h with
  | nil => exact .inl rfl
  | @cons s _ _ _ hs _ =>
    have hproper := hss s List.mem_cons_self
    cases hs with
    | same =>
      obtain ⟨b, t, ht⟩ := List.exists_cons_of_ne_nil hproper.text_ne_nil
      simp only [List.flatMap_cons, ht]
      exact .inl rfl
    | word =>
      have hx : IsWord x := hproper.isWord rfl
      match x, z, hx, hz with
      | b :: _, b' :: _, hx, hz => exact .inr (.inl ⟨b, b', rfl, rfl, hx.1, hz.1⟩)

/-- Other words do not matter for what is before them. -/
theorem looksLike_respelled (hz : IsWord z) (hss : ∀ s ∈ ss, s.Proper)
    (h : List.Forall₂ (Respelled x z) ss ss') :
    LooksLike (ss.flatMap text) (ss'.flatMap text) := by
  refine ⟨alike_respelled hz hss h, ?_⟩
  cases h with
  | nil => nofun
  | @cons s _ _ _ hs hrest =>
    obtain ⟨hproper, hss⟩ := List.forall_mem_cons.mp hss
    cases hs with
    | same =>
      intro _
      obtain ⟨b, t, ht⟩ := List.exists_cons_of_ne_nil hproper.text_ne_nil
      simp only [List.flatMap_cons, ht]
      cases t with
      | nil => exact alike_respelled hz hss hrest
      | cons c t => exact .inl rfl
    | word =>
      -- no word begins with a point
      intro hpoint
      have hx : IsWord x := hproper.isWord rfl
      match x, hx with
      | b :: _, hx =>
        cases hpoint
        exact absurd hx.1 (by decide)

end Words

section Extents

variable {b : UInt8} {t r r' : Bytes} {form : Form}

private theorem isBlank_of_isWordStart (hb : isWordStart b) : isBlank b = false := by
  cases hblank : isBlank b with
  | false => rfl
  | true =>
    have hext := extent_of_isBlank hblank []
    rw [extent_of_isWordStart hb] at hext
    cases hext

-- White space ends where it did, if none follows it.
private theorem extent_blank_congr (hb : isBlank b) (h : extent b (t ++ r) = (form, t.length))
    (hr : Alike r.head? r'.head?) (hnil : r = [] → r' = []) :
    extent b (t ++ r') = (form, t.length) := by
  rw [extent_of_isBlank hb] at h ⊢
  obtain ⟨rfl, hrun⟩ := Prod.mk.inj h
  obtain ⟨ht, hstop⟩ := run_append_eq_length.mp hrun
  have hstop' : ∀ c ∈ r'.head?, isBlank c = false := by
    rcases hr with heq | ⟨c, c', -, hc', -, hword⟩ | ⟨hnone, hline⟩
    · rw [heq]
      exact hstop
    · intro d hd
      rw [hc'] at hd
      cases hd
      exact isBlank_of_isWordStart hword
    · rw [hnil (List.head?_eq_none_iff.mp hnone)] at hline
      cases hline
  rw [run_append_eq_length.mpr ⟨ht, hstop'⟩]

/-- A word ends where no part of a word follows. -/
theorem extent_word (h : IsWord (b :: t)) (hr : ∀ c ∈ r.head?, isWordPart c = false) :
    extent b (t ++ r) = (.word, t.length) := by
  rw [extent_of_isWordStart h.1, run_append_eq_length.mpr ⟨List.all_eq_true.mp h.2, hr⟩]

end Extents

/-- A source with other words has the same segments but for these, if there is nothing in it that is
no part of a program. -/
theorem segments_respelled (hz : IsWord z) {src : Bytes}
    (hsrc : ∀ s ∈ segments src, s.form ≠ .stray ∧ s.form ≠ .unclosed) {ss' : List Segment}
    (h : List.Forall₂ (Respelled x z) (segments src) ss') : segments (ss'.flatMap text) = ss' := by
  induction hn : src.length using Nat.strongRecOn generalizing src ss' with
  | ind n ih =>
    cases src with
    | nil =>
      rw [segments_nil] at h
      cases h
      exact segments_nil
    | cons b rest =>
      rw [segments_cons] at h hsrc
      obtain ⟨⟨hstray, hunclosed⟩, hsrc⟩ := List.forall_mem_cons.mp hsrc
      cases h with
      | @cons _ s' _ ss' hs hss =>
        have hmore := ih _ (hn ▸ length_remainder_lt b rest) hsrc hss rfl
        have hlike : LooksLike (remainder b rest) (ss'.flatMap text) := by
          have hlike := looksLike_respelled hz (proper_segments _) hss
          rwa [flatMap_text_segments] at hlike
        have hnil : remainder b rest = [] → ss'.flatMap text = [] := by
          intro hnil
          rw [hnil, segments_nil] at hss
          cases hss
          rfl
        rw [List.flatMap_cons]
        generalize hfirst : first b rest = s at hs
        cases hs with
        | same =>
          have hext := extent_take_append_drop hstray
          have hext' : extent b (rest.take (extent b rest).2 ++ ss'.flatMap text) =
              ((extent b rest).1, (rest.take (extent b rest).2).length) := by
            by_cases hb : isBlank b
            · exact extent_blank_congr hb hext hlike.first hnil
            · exact extent_congr hext hlike (by simpa using hb) hstray hunclosed
                fun hr hr' ↦ absurd (hnil hr) hr'
          rw [← hfirst, first_eq, List.cons_append, segments_append hext', hmore]
        | word =>
          obtain ⟨-, hstop⟩ := isWord_first (congrArg form hfirst)
          match z, hz with
          | b' :: t, hz =>
            have hext := extent_word hz (hlike.first.not_wordPart hstop)
            rw [List.cons_append, segments_append hext, hmore]

end Segment

/-! ## Tokens -/

/-- A word that is not reserved. -/
def IsName (z : Bytes) : Prop := Segment.IsWord z ∧ Kind.ofWord z = .identifier

/-- Decided by the word and the kind of its token. -/
instance (z : Bytes) : Decidable (IsName z) :=
  inferInstanceAs (Decidable (Segment.IsWord z ∧ Kind.ofWord z = .identifier))

open Segment

variable {x z : Bytes}

-- Only a word is the token of a name.
private theorem eq_word_of_token? {s : Segment} (hs : s.form ≠ .operator .identifier) {line : Nat}
    {t : Token} (ht : s.token? line = some t) (hkind : t.kind = .identifier) :
    s = ⟨.word, t.lexeme⟩ ∧ t = ⟨.identifier, t.lexeme, .nil, line⟩ := by
  obtain ⟨form, text⟩ := s
  cases form with
  | operator k =>
    cases ht
    exact absurd (congrArg Form.operator hkind) hs
  | word =>
    cases ht
    exact ⟨rfl, by rw [← hkind]⟩
  | quoted | number =>
    cases ht
    cases hkind
  | blank | comment | stray | unclosed => cases ht

-- A segment for the token with another name.
private theorem exists_respelled (hz : IsName z) {s : Segment} (hproper : s.Proper)
    (hs : s.form ≠ .operator .identifier) {line : Nat} {t t' : Token} (ht : s.token? line = some t)
    (h : t.Respelled x z t') :
    ∃ s', s.Respelled x z s' ∧ s'.token? line = some t' ∧ (∀ line, s'.error? line = s.error? line) ∧
      s'.text.newlines = s.text.newlines := by
  cases h with
  | same => exact ⟨s, .same s, ht, fun _ ↦ rfl, rfl⟩
  | name hkind hx =>
    obtain ⟨rfl, heq⟩ := eq_word_of_token? hs ht hkind
    have hnone : t.lexeme.newlines = 0 := (hproper.isWord rfl).newlines
    refine ⟨⟨.word, z⟩, hx ▸ .word, ?_, fun _ ↦ rfl, ?_⟩
    · rw [token?, heq, hz.2]
    · rw [hz.1.newlines, hnone]

-- The tokens of segments that begin on `line`.
private def tokensOf (line : Nat) (ss : List Segment) : List Token :=
  (placed line ss).filterMap fun p ↦ p.1.token? p.2

-- The errors in segments that begin on `line`.
private def errorsOf (line : Nat) (ss : List Segment) : List StaticError :=
  (placed line ss).filterMap fun p ↦ p.1.error? p.2

private theorem tokensOf_cons (line : Nat) (s : Segment) (ss : List Segment) :
    tokensOf line (s :: ss) =
      (s.token? (line + s.text.newlines)).toList ++ tokensOf (line + s.text.newlines) ss := by
  rw [tokensOf, placed_cons, List.filterMap_cons]
  cases s.token? (line + s.text.newlines) <;> rfl

private theorem errorsOf_cons (line : Nat) (s : Segment) (ss : List Segment) :
    errorsOf line (s :: ss) =
      (s.error? (line + s.text.newlines)).toList ++ errorsOf (line + s.text.newlines) ss := by
  rw [errorsOf, placed_cons, List.filterMap_cons]
  cases s.error? (line + s.text.newlines) <;> rfl

-- Segments for tokens that have another name in some places.
private theorem exists_all_respelled (hz : IsName z) {ss : List Segment}
    (hss : ∀ s ∈ ss, s.Proper ∧ s.form ≠ .operator .identifier) (line : Nat) {ts : List Token}
    (h : List.Forall₂ (Token.Respelled x z) (tokensOf line ss) ts) :
    ∃ ss', List.Forall₂ (Segment.Respelled x z) ss ss' ∧ tokensOf line ss' = ts ∧
      errorsOf line ss' = errorsOf line ss := by
  induction ss generalizing line ts with
  | nil =>
    cases h
    exact ⟨[], .nil, rfl, rfl⟩
  | cons s ss ih =>
    obtain ⟨⟨hproper, hform⟩, hss⟩ := List.forall_mem_cons.mp hss
    rw [tokensOf_cons] at h
    cases ht : s.token? (line + s.text.newlines) with
    | none =>
      rw [ht] at h
      obtain ⟨ss', hss', htokens, herrors⟩ := ih hss _ h
      refine ⟨s :: ss', .cons (.same s) hss', ?_, ?_⟩
      · rw [tokensOf_cons, ht, htokens]
        rfl
      · rw [errorsOf_cons, herrors, ← errorsOf_cons]
    | some t =>
      rw [ht] at h
      cases h with
      | cons ht' h =>
        obtain ⟨ss', hss', htokens, herrors⟩ := ih hss _ h
        obtain ⟨s', hs', htoken, herror, hlines⟩ := exists_respelled hz hproper hform ht ht'
        refine ⟨s' :: ss', .cons hs' hss', ?_, ?_⟩
        · rw [tokensOf_cons, hlines, htoken, htokens]
          rfl
        · rw [errorsOf_cons, hlines, herror, herrors, ← errorsOf_cons]

/-- For tokens that have another name in some places there is a source, which differs from the given
one in these places only. -/
theorem exists_scan_respelled (hz : IsName z) {src : Bytes} (he : (scan src).errors = [])
    {ts : List Token} {eof : Token} (hsrc : (scan src).tokens = ts ++ [eof]) {ts' : List Token}
    (h : List.Forall₂ (Token.Respelled x z) ts ts') :
    ∃ src' eof', List.Forall₂ (Segment.Respelled x z) (segments src) (segments src') ∧
      scan src' = ⟨ts' ++ [eof'], []⟩ ∧ eof'.kind = .eof := by
  have htokens : (scan src).tokens =
      tokensOf 1 (segments src) ++ [.endOf (1 + src.newlines : Nat)] :=
    rfl
  rw [hsrc] at htokens
  obtain ⟨rfl, -⟩ := List.append_inj' htokens rfl
  have hss : ∀ s ∈ segments src, s.Proper ∧ s.form ≠ .operator .identifier := fun s hs ↦
    ⟨proper_segments src s hs,
      forall_segments (P := fun s ↦ s.form ≠ .operator .identifier) (extent_ne_operator (by decide))
        src s hs⟩
  obtain ⟨ss', hss', htokens', herrors'⟩ := exists_all_respelled hz hss 1 h
  have hagain := segments_respelled hz.1 (form_ne_of_errors_scan he) hss'
  refine ⟨ss'.flatMap text, .endOf (1 + Bytes.newlines (ss'.flatMap text) : Nat),
    hagain.symm ▸ hss', ?_, rfl⟩
  have herrors : errorsOf 1 (segments src) = [] := he
  have hscan : scan (ss'.flatMap text) = ⟨tokensOf 1 (segments (ss'.flatMap text)) ++
      [.endOf (1 + Bytes.newlines (ss'.flatMap text) : Nat)],
      errorsOf 1 (segments (ss'.flatMap text))⟩ := rfl
  rw [hscan, hagain, htokens', herrors', herrors]

end Lox
