import Lox.Proofs.Token.Stretch

/-!
# Tokens with space between them

Every token of a source is a text of the lexical grammar, and every such text is scanned as one
token if white space follows it, or nothing (`Lexeme.exists_segment`). So the source texts of tokens
can be written out again with white space and comments between them, whatever was between them
before, and the same tokens are scanned (`scan_spaced`).
-/

namespace Lox

open Segment

open Stretch (slash star)

/-- What a token is apart from its line. -/
def Token.content (t : Token) : Kind × Bytes × Literal := (t.kind, t.lexeme, t.literal)

/-- The error in a number token that is too large, on the line of the token. -/
def Token.rangeError? (t : Token) : Option StaticError :=
  if t.kind = .number ∧ (Decimal.ofText t.lexeme).Overflows then
    some ⟨t.line, .line, .invalidNumber⟩
  else none

/-- White space, and comments that end before something else begins. -/
inductive IsFiller : Bytes → Prop
  | nil : IsFiller []
  | blank {b : UInt8} {w : Bytes} (hb : isBlank b) (hw : IsFiller w) : IsFiller (b :: w)
  /-- A comment up to the end of its line. -/
  | line {body w : Bytes} (hbody : Bytes.newline ∉ body) (hw : IsFiller w) :
    IsFiller (slash :: slash :: (body ++ Bytes.newline :: w))
  /-- A comment up to the first mark that ends it. -/
  | block {body w : Bytes} (hbody : ¬ commentEnd <:+: body ++ [star]) (hw : IsFiller w) :
    IsFiller (slash :: star :: (body ++ commentEnd ++ w))

/-- White space and comments, with white space at the front. -/
inductive IsSeparator : Bytes → Prop
  | blank {b : UInt8} {w : Bytes} (hb : isBlank b) (hw : IsFiller w) : IsSeparator (b :: w)

/-- The source texts of tokens, each but the first with a separator before it. -/
def Token.spaced (separators : List Bytes) : List Token → Bytes
  | [] => []
  | t :: ts => t.lexeme ++ (List.zipWith (fun w t ↦ w ++ t.lexeme) separators ts).flatten

/-! ## One token and what follows it -/

/-- White space follows, or nothing. -/
def Apart (rest : Bytes) : Prop := ∀ c ∈ rest.head?, isBlank c

/-- Nothing follows at the end. -/
theorem apart_nil : Apart [] := nofun

private theorem IsSeparator.apart {w : Bytes} (h : IsSeparator w) (rest : Bytes) :
    Apart (w ++ rest) := by
  cases h with
  | blank hb hw =>
    rintro _ ⟨⟩
    exact hb

section Ends

variable {rest : Bytes} {c : UInt8}

private theorem mem_of_isBlank (h : isBlank c) :
    c ∈ [Bytes.ascii ' ', Bytes.ascii '\t', Bytes.ascii '\r', Bytes.newline] := by
  simpa [isBlank, or_assoc] using h

private theorem Apart.not_wordPart (h : Apart rest) : ∀ c ∈ rest.head?, isWordPart c = false := by
  have htable : [Bytes.ascii ' ', Bytes.ascii '\t', Bytes.ascii '\r', Bytes.newline].any
      isWordPart = false := by decide
  exact fun c hc ↦ Bool.eq_false_iff.mpr (List.any_eq_false.mp htable c (mem_of_isBlank (h c hc)))

private theorem Apart.not_digit (h : Apart rest) : ∀ c ∈ rest.head?, Decimal.isDigit c = false := by
  intro c hc
  have hpart := h.not_wordPart c hc
  rw [isWordPart, Bool.or_eq_false_iff] at hpart
  exact hpart.2

/-- No byte follows that a token or a comment could go on with. -/
theorem Apart.head?_ne (h : Apart rest)
    (hc : c ∈ [Bytes.ascii '.', Bytes.ascii '=', slash, star]) : rest.head? ≠ some c := by
  intro hhead
  have htable : [Bytes.ascii '.', Bytes.ascii '=', slash, star].any isBlank = false := by decide
  exact List.any_eq_false.mp htable c hc (h c hhead)

/-- An operator makes nothing else with white space. -/
theorem Apart.operatorExtent (h : Apart rest) (k : Kind) :
    operatorExtent k rest = (.operator k, 0) := by
  cases rest with
  | nil => rfl
  | cons c rest =>
    rcases operatorExtent_cons k c with hc | ⟨-, rfl, -⟩ | ⟨-, rfl, -⟩ | ⟨-, -, rfl, -⟩
    · exact hc rest
    all_goals exact absurd rfl (h.head?_ne (by decide))

/-- Digits with white space behind them are a number. -/
theorem Apart.numberSize_integer (h : Apart rest) {ds : Bytes}
    (hds : ∀ d ∈ ds, Decimal.isDigit d) : numberSize (ds ++ rest) = ds.length := by
  have hrun : run Decimal.isDigit (ds ++ rest) = ds.length :=
    run_append_eq_length.mpr ⟨hds, h.not_digit⟩
  rcases numberSize_eq (ds ++ rest) with ⟨hsize, -⟩ | ⟨d, rest', hdrop, -, -⟩
  · exact hsize.trans hrun
  · rw [hrun, List.drop_left] at hdrop
    exact absurd (by rw [hdrop]; rfl) (h.head?_ne (c := Bytes.ascii '.') (by decide))

/-- Digits on both sides of a point, with white space behind them, are a number. -/
theorem Apart.numberSize_fraction (h : Apart rest) {ds fs : Bytes}
    (hds : ∀ d ∈ ds, Decimal.isDigit d) (hfs : IsDigits fs) :
    numberSize (ds ++ Bytes.ascii '.' :: fs ++ rest) =
      (ds ++ Bytes.ascii '.' :: fs).length := by
  obtain ⟨f, fs, rfl⟩ := List.exists_cons_of_ne_nil hfs.1
  obtain ⟨hf, hfs⟩ := List.forall_mem_cons.mp hfs.2
  have hrun : run Decimal.isDigit (ds ++ Bytes.ascii '.' :: f :: fs ++ rest) = ds.length := by
    rw [List.append_assoc]
    exact run_append_eq_length.mpr ⟨hds, by simp; decide⟩
  have hdrop : (ds ++ Bytes.ascii '.' :: f :: fs ++ rest).drop ds.length =
      Bytes.ascii '.' :: f :: (fs ++ rest) := by simp
  rcases numberSize_eq (ds ++ Bytes.ascii '.' :: f :: fs ++ rest) with
    ⟨-, hpoint⟩ | ⟨d, rest', hdrop', -, hsize⟩
  · rw [hrun, hdrop] at hpoint
    rw [hpoint f rfl rfl] at hf
    cases hf
  · rw [hrun, hdrop] at hdrop'
    obtain ⟨-, rfl⟩ := List.cons.inj (List.cons.inj hdrop').2
    have hfraction : run Decimal.isDigit (fs ++ rest) = fs.length :=
      run_append_eq_length.mpr ⟨hfs, h.not_digit⟩
    rw [hsize, hrun, hfraction, List.length_append, List.length_cons, List.length_cons]
    omega

end Ends

/-! ## The tokens of the lexical grammar -/

namespace Lexeme

variable {k : Kind} {w rest : Bytes} {v : Literal}

-- An operator is the mark of one byte, or that of one byte with an equals sign.
private def isMark : Bytes × Kind → Bool
  | ([b], k) => operator? b == some k
  | ([b, c], k) => c == Bytes.ascii '=' && (operator? b).bind withEqual? == some k
  | _ => false

private theorem isMark_of_mem : ∀ p ∈ Kind.operators, isMark p := by decide

private theorem ofWord_of_mem : ∀ p ∈ Kind.keywords, Kind.ofWord p.1 = p.2 := by decide

private theorem ofWord_of_free (h : ∀ k, (w, k) ∉ Kind.keywords) : Kind.ofWord w = .identifier := by
  unfold Kind.ofWord
  cases hlookup : Kind.keywords.lookup w with
  | none => rfl
  | some k => exact absurd (mem_keywords_of_lookup hlookup) (h k)

private theorem kind_ne_number_of_mem :
    ∀ p ∈ Kind.operators ++ Kind.keywords, p.2 ≠ .number := by
  decide

/-- What has the kind of a number has the value of one. -/
theorem literal_eq_number (h : Lexeme .number w v) : v = .number (numberValue w) := by
  cases h with
  | operator h => exact absurd rfl (kind_ne_number_of_mem _ (List.mem_append_left _ h))
  | keyword h => exact absurd rfl (kind_ne_number_of_mem _ (List.mem_append_right _ h))
  | integer hds => rfl
  | fraction hds hfs => rfl

-- The first segment of a text is `w` and stands for a token.
private def Begins (k : Kind) (w : Bytes) (v : Literal) (rest : Bytes) : Prop :=
  ∃ b t form, w = b :: t ∧ extent b (t ++ rest) = (form, t.length) ∧
    ∀ line, token? ⟨form, w⟩ line = some ⟨k, w, v, line⟩

private theorem begins_operator (h : (w, k) ∈ Kind.operators) (hrest : Apart rest) :
    Begins k w .nil rest := by
  have hmark := isMark_of_mem _ h
  unfold isMark at hmark
  split at hmark
  · rename_i b k heq
    cases heq
    refine ⟨b, [], .operator k, rfl, ?_, fun _ ↦ rfl⟩
    rw [List.nil_append, extent_of_operator (beq_iff_eq.mp hmark), hrest.operatorExtent]
    rfl
  · rename_i b c k heq
    cases heq
    rw [Bool.and_eq_true, beq_iff_eq, beq_iff_eq, Option.bind_eq_some_iff] at hmark
    obtain ⟨rfl, k', hk', hequal⟩ := hmark
    refine ⟨b, [Bytes.ascii '='], .operator k, rfl, ?_, fun _ ↦ rfl⟩
    have hslash : k' ≠ .slash := by
      rintro rfl
      cases hequal
    rw [extent_of_operator hk']
    simp [Segment.operatorExtent, hslash, hequal]
  · cases hmark

private theorem begins_word (hw : IsWord w) (hk : Kind.ofWord w = k) (hrest : Apart rest) :
    Begins k w .nil rest := by
  match w, hw with
  | b :: t, hw =>
    exact ⟨b, t, .word, rfl, extent_word hw hrest.not_wordPart, fun _ ↦ by rw [token?, hk]⟩

private theorem begins_string {s : Bytes} (hs : quote ∉ s) (rest : Bytes) :
    Begins .string (quote :: (s ++ [quote])) (.text s) rest := by
  have hrun : run (· != quote) (s ++ quote :: rest) = s.length :=
    run_append_eq_length.mpr
      ⟨fun c hc ↦ bne_iff_ne.mpr fun heq ↦ hs (heq ▸ hc), by simp⟩
  refine ⟨quote, s ++ [quote], .quoted, rfl, ?_, fun line ↦ ?_⟩
  · rw [List.append_assoc, List.singleton_append, extent_quote, hrun, if_pos (by simp),
      List.length_append]
    rfl
  · have hliteral : (quote :: (s ++ [quote])).tail.dropLast = s := List.dropLast_concat
    rw [token?, hliteral]

private theorem begins_number {t : Bytes} {b : UInt8} (hb : Decimal.isDigit b)
    (hsize : numberSize (t ++ rest) = t.length) :
    Begins .number (b :: t) (.number (numberValue (b :: t))) rest :=
  ⟨b, t, .number, rfl, by rw [extent_of_isDigit hb, hsize], fun _ ↦ rfl⟩

private theorem begins (h : Lexeme k w v) (hrest : Apart rest) : Begins k w v rest := by
  cases h with
  | operator h => exact begins_operator h hrest
  | keyword h => exact begins_word (isWord_of_mem_keywords _ h) (ofWord_of_mem _ h) hrest
  | identifier hw hfree => exact begins_word hw (ofWord_of_free hfree) hrest
  | string hs => exact begins_string hs rest
  | integer hds =>
    obtain ⟨d, ds, rfl⟩ := List.exists_cons_of_ne_nil hds.1
    obtain ⟨hd, hds⟩ := List.forall_mem_cons.mp hds.2
    exact begins_number hd (hrest.numberSize_integer hds)
  | fraction hds hfs =>
    obtain ⟨d, ds, rfl⟩ := List.exists_cons_of_ne_nil hds.1
    obtain ⟨hd, hds⟩ := List.forall_mem_cons.mp hds.2
    exact begins_number hd (hrest.numberSize_fraction hds hfs)

/-- A text of the lexical grammar is one segment if white space follows, or nothing, and it stands
for its token. -/
theorem exists_segment (h : Lexeme k w v) (hrest : Apart rest) :
    ∃ s : Segment, s.text = w ∧ segments (w ++ rest) = s :: segments rest ∧
      ∀ line, s.token? line = some ⟨k, w, v, line⟩ := by
  obtain ⟨b, t, form, rfl, hextent, htoken⟩ := begins h hrest
  exact ⟨_, rfl, segments_append hextent, htoken⟩

end Lexeme

section Segments

variable {s : Segment} {t : Token} {line : Nat}

/-- The tokens of a source are of the lexical grammar. -/
theorem Segment.lexeme_of_token? {src : Bytes} (hs : s ∈ segments src)
    (h : s.token? line = some t) : Lexeme t.kind t.lexeme t.literal := by
  refine forall_segments (P := fun s ↦ ∀ t, s.token? line = some t →
    Lexeme t.kind t.lexeme t.literal) (fun b rest t ht ↦ ?_) src s hs t h
  obtain ⟨p, hreads, hstands⟩ := Stretch.exists_reads_first b rest
  rw [← hreads.token?] at ht
  cases p with
  | token k w v =>
    cases ht
    cases hstands with
    | token hlongest => exact hlongest.lexeme
  | blank | comment | stray | unclosed => cases ht

/-- A token has an error if it is a number that is too large, and only then. -/
theorem Segment.error?_eq_rangeError? (h : s.token? line = some t)
    (hlex : Lexeme t.kind t.lexeme t.literal) : s.error? line = t.rangeError? := by
  have hnone : (∀ x, t.literal ≠ .number x) → t.rangeError? = none := by
    intro hne
    exact if_neg fun hlarge ↦ hne _ (hlarge.1 ▸ hlex).literal_eq_number
  obtain ⟨form, text⟩ := s
  cases form with
  | operator | quoted | word =>
    cases h
    exact (hnone nofun).symm
  | number =>
    cases h
    simp [error?, Token.rangeError?, Decimal.toNumber?_eq_none_iff]
  | blank | comment | stray | unclosed => cases h

/-- Errors in what is no token are of other sorts. -/
theorem Segment.reason_ne_of_token?_eq_none (h : s.token? line = none) :
    ∀ e ∈ s.error? line, e.reason ≠ .invalidNumber := by
  obtain ⟨form, text⟩ := s
  cases form with
  | operator | quoted | number | word => cases h
  | stray | unclosed =>
    rintro _ ⟨⟩
    nofun
  | blank | comment => nofun

end Segments

/-! ## Tokens and errors in turn -/

section Sources

variable {line : Nat} {rest : Bytes}

private theorem significant_comment {b : UInt8} {t : Bytes}
    (h : extent b (t ++ rest) = (.comment, t.length)) :
    significant line (b :: (t ++ rest)) = significant (line + Bytes.newlines (b :: t)) rest := by
  rw [significant_cons, first_eq, remainder, h, List.take_left, List.drop_left]
  rfl

private theorem blockCommentSize_closed {body : Bytes} (n : Nat)
    (hbody : ¬ commentEnd <:+: body ++ [star]) (rest : Bytes) :
    blockCommentSize n (body ++ commentEnd ++ rest) = n + (body ++ commentEnd).length := by
  induction body generalizing n with
  | nil => rfl
  | cons b body ih =>
    obtain ⟨c, u, hu⟩ : ∃ c u, body ++ commentEnd ++ rest = c :: u := by
      cases body with
      | nil => exact ⟨_, _, rfl⟩
      | cons c body => exact ⟨_, _, rfl⟩
    have hmark : ¬ (b == Bytes.ascii '*' && c == Bytes.ascii '/') = true := by
      rw [Bool.and_eq_true, beq_iff_eq, beq_iff_eq]
      rintro ⟨rfl, rfl⟩
      -- the mark would end the comment too early, or be a star
      cases body with
      | nil => cases hu
      | cons c body =>
        cases hu
        exact hbody (List.prefix_append commentEnd (body ++ [star])).isInfix
    have hinner : ¬ commentEnd <:+: body ++ [star] := fun h ↦
      hbody (h.trans (List.suffix_cons b _).isInfix)
    have hmore := ih (n + 1) hinner
    rw [hu] at hmore
    rw [List.cons_append, List.cons_append, hu, blockCommentSize, if_neg hmark, hmore,
      List.length_cons]
    omega

/-- White space and comments do not matter, but for their line ends. -/
theorem significant_filler {w : Bytes} (h : IsFiller w) (line : Nat) (rest : Bytes) :
    significant line (w ++ rest) = significant (line + w.newlines) rest := by
  induction h generalizing line with
  | nil => rfl
  | @blank b w hb hw ih =>
    rw [List.cons_append, significant_blank hb, ih, Nat.add_assoc, ← newlines_append]
    rfl
  | @line body w hbody hw ih =>
    have hrun : run (· != Bytes.newline) (body ++ Bytes.newline :: (w ++ rest)) = body.length :=
      run_append_eq_length.mpr
        ⟨fun c hc ↦ bne_iff_ne.mpr fun heq ↦ hbody (heq ▸ hc), by simp⟩
    have hextent : extent slash (slash :: body ++ Bytes.newline :: (w ++ rest)) =
        (.comment, (slash :: body).length) := by
      rw [List.length_cons, Nat.add_comm, ← hrun]
      rfl
    have htext : slash :: slash :: (body ++ Bytes.newline :: w) ++ rest =
        slash :: (slash :: body ++ Bytes.newline :: (w ++ rest)) := by simp
    rw [htext, significant_comment hextent, significant_blank (by decide), ih, Nat.add_assoc,
      Nat.add_assoc, ← newlines_append, ← newlines_append]
    simp
  | @block body w hbody hw ih =>
    have hextent : extent slash (star :: (body ++ commentEnd) ++ (w ++ rest)) =
        (Form.comment, (Stretch.star :: (body ++ commentEnd)).length) := by
      rw [List.length_cons, Nat.add_comm, ← Nat.zero_add (body ++ commentEnd).length,
        ← blockCommentSize_closed 0 hbody (w ++ rest)]
      rfl
    have htext : slash :: star :: (body ++ commentEnd ++ w) ++ rest =
        slash :: (star :: (body ++ commentEnd) ++ (w ++ rest)) := by simp
    rw [htext, significant_comment hextent, ih, Nat.add_assoc, ← newlines_append]
    simp

private theorem significant_lexeme (line : Nat) {k : Kind} {w : Bytes} {v : Literal}
    (h : Lexeme k w v) (hrest : Apart rest) :
    ∃ s : Segment, (∀ line, s.token? line = some ⟨k, w, v, line⟩) ∧
      significant line (w ++ rest) =
        (s, line + w.newlines) :: significant (line + w.newlines) rest := by
  obtain ⟨s, rfl, hsegments, htoken⟩ := h.exists_segment hrest
  have hmatters : s.matters = true := by
    obtain ⟨form, text⟩ := s
    cases form with
    | blank | comment | stray | unclosed => cases htoken 0
    | operator | quoted | number | word => rfl
  refine ⟨s, htoken, ?_⟩
  rw [significant, hsegments, placed_cons, List.filter_cons, if_pos hmatters]
  rfl

/-- A token, and then the tokens of what follows. -/
theorem tokensFrom_lexeme (line : Nat) {k : Kind} {w : Bytes} {v : Literal}
    (h : Lexeme k w v) (hrest : Apart rest) :
    tokensFrom line (w ++ rest) =
      ⟨k, w, v, (line + w.newlines : Nat)⟩ :: tokensFrom (line + w.newlines) rest := by
  obtain ⟨s, htoken, hsignificant⟩ := significant_lexeme line h hrest
  rw [tokensFrom, hsignificant, List.filterMap_cons, htoken]
  rfl

/-- The error of a token, and then the errors of what follows. -/
theorem tokenErrorsFrom_lexeme (line : Nat) {k : Kind} {w : Bytes} {v : Literal}
    (h : Lexeme k w v) (hrest : Apart rest) :
    tokenErrorsFrom line (w ++ rest) =
      (Token.rangeError? ⟨k, w, v, (line + w.newlines : Nat)⟩).toList ++
        tokenErrorsFrom (line + w.newlines) rest := by
  obtain ⟨s, htoken, hsignificant⟩ := significant_lexeme line h hrest
  rw [tokenErrorsFrom, hsignificant, List.filterMap_cons,
    Segment.error?_eq_rangeError? (htoken _) h]
  cases Token.rangeError? ⟨k, w, v, (line + w.newlines : Nat)⟩ <;> rfl

-- A text gives these tokens, but for their lines, and no errors but those of too large numbers.
private def Gives (line : Nat) (src : Bytes) (ts : List Token) : Prop :=
  (tokensFrom line src).map Token.content = ts.map Token.content ∧
    tokenErrorsFrom line src = (tokensFrom line src).filterMap Token.rangeError?

private theorem gives_lexeme {t : Token} {ts : List Token}
    (ht : Lexeme t.kind t.lexeme t.literal) (hrest : Apart rest)
    (h : ∀ line, Gives line rest ts) : Gives line (t.lexeme ++ rest) (t :: ts) := by
  obtain ⟨htokens, herrors⟩ := h (line + t.lexeme.newlines)
  refine ⟨?_, ?_⟩
  · rw [tokensFrom_lexeme line ht hrest, List.map_cons, List.map_cons, htokens]
    rfl
  · rw [tokensFrom_lexeme line ht hrest, tokenErrorsFrom_lexeme line ht hrest, herrors,
      List.filterMap_cons]
    cases Token.rangeError? _ <;> rfl

private theorem gives_filler {w : Bytes} (hw : IsFiller w) {ts : List Token}
    (h : ∀ line, Gives line rest ts) : Gives line (w ++ rest) ts := by
  have hmore := h (line + w.newlines)
  unfold Gives tokensFrom tokenErrorsFrom at hmore ⊢
  rwa [significant_filler hw]

-- Tokens behind separators. The induction is on the tokens; what follows each of them is apart from
-- it because the next separator begins with white space.
private theorem gives_tail {ts : List Token} (hts : ∀ t ∈ ts, Lexeme t.kind t.lexeme t.literal)
    {separators : List Bytes} (hseparators : ∀ w ∈ separators, IsSeparator w)
    (hlength : separators.length = ts.length) :
    Apart (List.zipWith (fun w (t : Token) ↦ w ++ t.lexeme) separators ts).flatten ∧
      ∀ line, Gives line (List.zipWith (fun w (t : Token) ↦ w ++ t.lexeme) separators ts).flatten
        ts := by
  induction ts generalizing separators with
  | nil =>
    rw [List.zipWith_nil_right]
    exact ⟨apart_nil, fun line ↦ ⟨by simp [tokensFrom], by simp [tokensFrom, tokenErrorsFrom]⟩⟩
  | cons t ts ih =>
    cases separators with
    | nil => simp at hlength
    | cons w separators =>
      obtain ⟨ht, hts⟩ := List.forall_mem_cons.mp hts
      obtain ⟨hw, hseparators⟩ := List.forall_mem_cons.mp hseparators
      obtain ⟨hapart, hgives⟩ := ih hts hseparators (by simpa using hlength)
      rw [List.zipWith_cons_cons, List.flatten_cons, List.append_assoc]
      refine ⟨hw.apart _, fun line ↦ ?_⟩
      cases hw with
      | blank hb hw =>
        exact gives_filler (.blank hb hw) fun line ↦ gives_lexeme ht hapart hgives

-- Tokens of the lexical grammar with separators between them.
private theorem gives_spaced {ts : List Token}
    (hts : ∀ t ∈ ts, Lexeme t.kind t.lexeme t.literal) {separators : List Bytes}
    (hseparators : ∀ w ∈ separators, IsSeparator w) (hlength : separators.length = ts.length - 1) :
    Gives 1 (Token.spaced separators ts) ts := by
  cases ts with
  | nil =>
    exact ⟨by simp [Token.spaced, tokensFrom],
      by simp [Token.spaced, tokensFrom, tokenErrorsFrom]⟩
  | cons t ts =>
    obtain ⟨ht, hts⟩ := List.forall_mem_cons.mp hts
    obtain ⟨hapart, hgives⟩ := gives_tail hts hseparators hlength
    exact gives_lexeme ht hapart hgives

end Sources

/-- The tokens of a source are those that do not end it. -/
theorem filter_tokens_scan (src : Bytes) :
    (scan src).tokens.filter (·.kind ≠ .eof) = tokensFrom 1 src := by
  rw [tokens_scan, List.filter_append, List.filter_eq_self.mpr]
  · exact List.append_nil _
  · simpa using kind_ne_eof_of_mem_tokensFrom

/-- Every token of a source has a text and a literal that tokens of its kind have. -/
theorem lexeme_of_mem_tokensFrom {line : Nat} {src : Bytes} :
    ∀ t ∈ tokensFrom line src, Lexeme t.kind t.lexeme t.literal := by
  intro t ht
  obtain ⟨⟨s, line'⟩, hs, htoken⟩ := List.mem_filterMap.mp ht
  exact Segment.lexeme_of_token? (fst_mem_of_mem_placed (List.mem_filter.mp hs).1) htoken

/-- The errors in the numbers of a source are those of its tokens. -/
theorem filter_errors_scan (src : Bytes) :
    (scan src).errors.filter (·.reason = .invalidNumber) =
      (tokensFrom 1 src).filterMap Token.rangeError? := by
  rw [errors_scan, tokenErrorsFrom, tokensFrom, List.filter_filterMap, List.filterMap_filterMap]
  refine List.filterMap_congr fun placed hs ↦ ?_
  obtain ⟨s, line⟩ := placed
  have hmem := fst_mem_of_mem_placed (List.mem_filter.mp hs).1
  cases htoken : s.token? line with
  | none =>
    have hother := Segment.reason_ne_of_token?_eq_none htoken
    cases herror : s.error? line with
    | none => rfl
    | some e => simp [hother e herror]
  | some t =>
    have hkept : t.rangeError?.filter (·.reason = .invalidNumber) = t.rangeError? := by
      unfold Token.rangeError?
      split <;> rfl
    rw [Segment.error?_eq_rangeError? htoken (Segment.lexeme_of_token? hmem htoken)]
    exact hkept

/-- The source texts of the tokens of any source, with any separators between them, give the same
tokens again: of the same kinds, with the same source texts and literals, in the same order. The
only errors are those in numbers that are too large, one for each of these tokens, as there were in
the source. -/
theorem scan_spaced (src : Bytes) {separators : List Bytes}
    (hseparators : ∀ w ∈ separators, IsSeparator w)
    (hlength : separators.length = ((scan src).tokens.filter (·.kind ≠ .eof)).length - 1) :
    let again := scan (Token.spaced separators ((scan src).tokens.filter (·.kind ≠ .eof)))
    again.tokens.map Token.content = (scan src).tokens.map Token.content ∧
      again.errors = again.tokens.filterMap Token.rangeError? ∧
      (scan src).errors.filter (·.reason = .invalidNumber) =
        (scan src).tokens.filterMap Token.rangeError? := by
  have hend : ∀ line, Token.rangeError? (.endOf line) = none := fun _ ↦ rfl
  rw [filter_tokens_scan] at hlength ⊢
  obtain ⟨htokens, herrors⟩ := gives_spaced lexeme_of_mem_tokensFrom hseparators hlength
  refine ⟨?_, ?_, ?_⟩
  · rw [tokens_scan, tokens_scan, List.map_append, List.map_append, htokens]
    rfl
  · rw [tokens_scan, errors_scan, herrors, List.filterMap_append]
    simp [hend]
  · rw [filter_errors_scan, tokens_scan, List.filterMap_append]
    simp [hend]

-- Operators, a stray character and a string, with nothing between them.
private def denseSource : Bytes := Bytes.ofString "!=/@\"/\"/"

private def denseTokens : List Token :=
  [⟨.bangEqual, [33, 61], .nil, 1⟩, ⟨.slash, [47], .nil, 1⟩,
    ⟨.string, [34, 47, 34], .text [47], 1⟩, ⟨.slash, [47], .nil, 1⟩]

private theorem scan_denseSource : scan denseSource =
    ⟨denseTokens ++ [.endOf 1], [⟨1, .line, .unexpectedCharacter [64]⟩]⟩ := by
  decide +kernel

-- White space, a comment up to the end of its line, and a comment with a line end in it.
private def denseSeparators : List Bytes :=
  [[32], [9, 47, 47, 34, 10], [10, 47, 42, 10, 42, 42, 47]]

private theorem isSeparator_of_mem_denseSeparators : ∀ w ∈ denseSeparators, IsSeparator w := by
  have hline : IsFiller [47, 47, 34, 10] := @IsFiller.line [34] [] (by decide) .nil
  have hblock : IsFiller [47, 42, 10, 42, 42, 47] := @IsFiller.block [10, 42] [] (by decide) .nil
  have hall : IsSeparator [32] ∧ IsSeparator [9, 47, 47, 34, 10] ∧
      IsSeparator [10, 47, 42, 10, 42, 42, 47] :=
    ⟨.blank (by decide) .nil, .blank (by decide) hline, .blank (by decide) hblock⟩
  simpa [denseSeparators] using hall

/-- The slashes and the quotes begin no comment and no string where the separators have some. -/
theorem scan_spaced_dense :
    (∀ w ∈ denseSeparators, IsSeparator w) ∧ denseSeparators.length = denseTokens.length - 1 ∧
    Token.spaced denseSeparators denseTokens =
      Bytes.ofString "!= /\t//\"\n\"/\"\n/*\n**//" ∧
    (scan (Bytes.ofString "!= /\t//\"\n\"/\"\n/*\n**//")).tokens.map Token.content =
      (denseTokens ++ [Token.endOf 1]).map Token.content := by
  have hfilter : (scan denseSource).tokens.filter (·.kind ≠ .eof) = denseTokens := by
    rw [scan_denseSource]
    rfl
  have hspaced : Token.spaced denseSeparators denseTokens =
      Bytes.ofString "!= /\t//\"\n\"/\"\n/*\n**//" := by decide
  obtain ⟨htokens, -, -⟩ := scan_spaced denseSource isSeparator_of_mem_denseSeparators
    (by rw [hfilter]; rfl)
  rw [hfilter, hspaced, scan_denseSource] at htokens
  exact ⟨isSeparator_of_mem_denseSeparators, rfl, hspaced, htokens⟩

end Lox
