import Lox.Token.Scan

/-!
# How far segments look ahead

Where a segment ends is told by what follows it, but at most two bytes of that are looked at, and
little is asked of them. What follows can therefore be replaced: a word by another word, and the end
of the source by the end of a line (`extent_congr`). Only white space goes on over the end of a
line, and only a block comment that is not closed goes on at the end of the source.
-/

namespace Lox.Segment

/-! ## Runs of bytes -/

section Runs

variable {p : UInt8 → Bool} {t r r' : Bytes}

/-- A run ends at a byte that does not belong to it. -/
theorem run_append_eq_length :
    run p (t ++ r) = t.length ↔ (∀ b ∈ t, p b = true) ∧ ∀ b ∈ r.head?, p b = false := by
  induction t with
  | nil => cases r <;> simp [run, List.takeWhile_cons]
  | cons b t ih =>
    by_cases hb : p b
    · simpa [run, hb] using ih
    · simp [run, hb]

/-- A run that ends within a text ends there whatever follows. -/
theorem run_append_of_lt (h : run p (t ++ r) < t.length) (r' : Bytes) :
    run p (t ++ r') = run p (t ++ r) := by
  induction t with
  | nil => simp at h
  | cons b t ih =>
    by_cases hb : p b
    · simp only [run, List.cons_append, List.takeWhile_cons_of_pos hb, List.length_cons] at h ih ⊢
      rw [ih (by omega)]
    · simp [run, hb]

/-- A run is not longer than the text. -/
theorem length_run_le (p : UInt8 → Bool) (bs : Bytes) : run p bs ≤ bs.length :=
  (List.takeWhile_sublist p).length_le

end Runs

/-! ## What follows a segment -/

/-- The first bytes of two texts do not matter for what is before them: they are the same, or they
begin words, or one is the end of the source and the other the end of a line. -/
def Alike (a a' : Option UInt8) : Prop :=
  a' = a ∨ (∃ b b', a = some b ∧ a' = some b' ∧ isWordStart b ∧ isWordStart b') ∨
    (a = none ∧ a' = some Bytes.newline)

/-- Two texts that do not matter for what is before them. The second byte is looked at only if the
first one is a point. -/
structure LooksLike (r r' : Bytes) : Prop where
  first : Alike r.head? r'.head?
  second : r.head? = some (Bytes.ascii '.') → Alike r.tail.head? r'.tail.head?

private theorem isDigit_of_isWordStart {b : UInt8} (h : isWordStart b) :
    Decimal.isDigit b = false := by
  unfold isWordStart at h
  unfold Decimal.isDigit
  simp [Bytes.ascii, UInt8.le_iff_toNat_le, ← UInt8.toNat_inj] at h ⊢
  omega

/-- What tells no bytes apart that begin words, and does not hold of the end of a line, holds of
neither first byte if it does not hold of one. -/
theorem Alike.not_mem {a a' : Option UInt8} (h : Alike a a') {p : UInt8 → Bool}
    (hword : ∀ b b', isWordStart b → isWordStart b' → p b = false → p b' = false)
    (hline : p Bytes.newline = false) (ha : ∀ b ∈ a, p b = false) : ∀ b ∈ a', p b = false := by
  rcases h with rfl | ⟨b, b', rfl, rfl, hb, hb'⟩ | ⟨rfl, rfl⟩
  · exact ha
  · rintro _ ⟨⟩
    exact hword b b' hb hb' (ha b rfl)
  · rintro _ ⟨⟩
    exact hline

/-- No digit follows either. -/
theorem Alike.not_digit {a a' : Option UInt8} (h : Alike a a')
    (ha : ∀ b ∈ a, Decimal.isDigit b = false) : ∀ b ∈ a', Decimal.isDigit b = false :=
  h.not_mem (fun _ _ _ hb' _ ↦ isDigit_of_isWordStart hb') (by decide) ha

/-- No part of a word follows either. -/
theorem Alike.not_wordPart {a a' : Option UInt8} (h : Alike a a')
    (ha : ∀ b ∈ a, isWordPart b = false) : ∀ b ∈ a', isWordPart b = false :=
  h.not_mem (fun b _ hb _ hpart ↦ by simp [isWordPart, hb] at hpart) (by decide) ha

private theorem Alike.eq_of_mem {a a' : Option UInt8} (h : Alike a a') {b : UInt8} (hb : b ∈ a')
    (hword : isWordStart b = false) (hline : b ≠ Bytes.newline) : a' = a := by
  rcases h with rfl | ⟨c, c', rfl, rfl, -, hc'⟩ | ⟨rfl, rfl⟩
  · rfl
  · cases hb
    rw [hc'] at hword
    cases hword
  · cases hb
    exact absurd rfl hline

/-! ## Numbers and comments -/

section Sizes

variable {t r r' : Bytes}

/-- A number ends with its digits unless a point and a digit follow them. -/
theorem numberSize_eq (rest : Bytes) :
    (numberSize rest = run Decimal.isDigit rest ∧
      ∀ d ∈ (rest.drop (run Decimal.isDigit rest)).tail.head?,
        (rest.drop (run Decimal.isDigit rest)).head? = some (Bytes.ascii '.') →
          Decimal.isDigit d = false) ∨
      ∃ d rest', rest.drop (run Decimal.isDigit rest) = Bytes.ascii '.' :: d :: rest' ∧
        Decimal.isDigit d ∧
        numberSize rest = run Decimal.isDigit rest + 2 + run Decimal.isDigit rest' := by
  unfold numberSize
  dsimp only
  rcases hdrop : rest.drop (run Decimal.isDigit rest) with _ | ⟨p, _ | ⟨d, rest'⟩⟩
  · exact .inl ⟨rfl, by simp⟩
  · exact .inl ⟨rfl, by simp⟩
  · by_cases hd : p == Bytes.ascii '.' && Decimal.isDigit d
    · obtain ⟨hp, hd'⟩ := Bool.and_eq_true_iff.mp hd
      rw [beq_iff_eq] at hp
      subst hp
      exact .inr ⟨d, rest', rfl, hd', if_pos hd⟩
    · refine .inl ⟨if_neg hd, ?_⟩
      rintro _ ⟨⟩ hp
      simp only [List.head?_cons, Option.some.injEq] at hp
      simpa [hp] using hd

private theorem numberSize_le (rest : Bytes) : numberSize rest ≤ rest.length := by
  rcases numberSize_eq rest with ⟨hsize, -⟩ | ⟨d, rest', hdrop, -, hsize⟩
  · rw [hsize]
    exact length_run_le _ rest
  · have hlen := congrArg List.length hdrop
    have hrun := length_run_le Decimal.isDigit rest'
    simp only [List.length_drop, List.length_cons] at hlen
    omega

-- A number ends where it did.
private theorem numberSize_congr (h : numberSize (t ++ r) = t.length) (hr : LooksLike r r') :
    numberSize (t ++ r') = t.length := by
  rcases numberSize_eq (t ++ r) with ⟨hsize, hpoint⟩ | ⟨d, rest, hdrop, hd, hsize⟩
  · -- there are digits only, and no fraction follows
    have hrun : run Decimal.isDigit (t ++ r) = t.length := hsize.symm.trans h
    obtain ⟨ht, hhead⟩ := run_append_eq_length.mp hrun
    have hhead' := hr.first.not_digit hhead
    have hrun' : run Decimal.isDigit (t ++ r') = t.length := run_append_eq_length.mpr ⟨ht, hhead'⟩
    rw [hrun, List.drop_left] at hpoint
    rcases numberSize_eq (t ++ r') with ⟨hsize', -⟩ | ⟨d, rest, hdrop', hd, -⟩
    · exact hsize'.trans hrun'
    · rw [hrun', List.drop_left] at hdrop'
      have heq : r'.head? = r.head? :=
        hr.first.eq_of_mem (b := Bytes.ascii '.') (by rw [hdrop']; rfl) (by decide) (by decide)
      have hpointed : r.head? = some (Bytes.ascii '.') := by
        rw [← heq, hdrop']
        rfl
      have hnot := (hr.second hpointed).not_digit fun d hd ↦ hpoint d hd hpointed
      rw [hnot d (by rw [hdrop']; rfl)] at hd
      cases hd
  · -- the point is in the number, so that what follows the number follows the fraction
    have hlt : run Decimal.isDigit (t ++ r) < t.length := by omega
    have hrun' := run_append_of_lt hlt r'
    obtain ⟨p, q, t', ht'⟩ : ∃ p q t', t.drop (run Decimal.isDigit (t ++ r)) = p :: q :: t' := by
      rcases hsplit : t.drop (run Decimal.isDigit (t ++ r)) with _ | ⟨p, _ | ⟨q, t'⟩⟩
      · have hlen := congrArg List.length hsplit
        simp only [List.length_drop, List.length_nil] at hlen
        omega
      · have hlen := congrArg List.length hsplit
        simp only [List.length_drop, List.length_singleton] at hlen
        omega
      · exact ⟨p, q, t', rfl⟩
    rw [List.drop_append_of_le_length (Nat.le_of_lt hlt), ht'] at hdrop
    simp only [List.cons_append, List.cons.injEq] at hdrop
    obtain ⟨rfl, rfl, rfl⟩ := hdrop
    have hlen := congrArg List.length ht'
    simp only [List.length_drop, List.length_cons] at hlen
    have hfraction : run Decimal.isDigit (t' ++ r) = t'.length := by omega
    obtain ⟨hdigits, hhead⟩ := run_append_eq_length.mp hfraction
    have hfraction' : run Decimal.isDigit (t' ++ r') = t'.length :=
      run_append_eq_length.mpr ⟨hdigits, hr.first.not_digit hhead⟩
    have hdrop' : (t ++ r').drop (run Decimal.isDigit (t ++ r')) =
        Bytes.ascii '.' :: q :: (t' ++ r') := by
      rw [hrun', List.drop_append_of_le_length (Nat.le_of_lt hlt), ht']
      rfl
    rcases numberSize_eq (t ++ r') with ⟨-, hpoint⟩ | ⟨d', rest', hdrop'', -, hsize'⟩
    · rw [hdrop'] at hpoint
      rw [hpoint q rfl rfl] at hd
      cases hd
    · rw [hdrop'] at hdrop''
      simp only [List.cons.injEq, true_and] at hdrop''
      rw [hsize', ← hdrop''.2, hrun', hfraction']
      omega

/-- The mark that ends a block comment. -/
def commentEnd : Bytes := [Bytes.ascii '*', Bytes.ascii '/']

-- A block comment that is closed ends there whatever follows.
private theorem blockCommentSize_append (n : Nat) {t : Bytes} (h : commentEnd <:+: t) (r : Bytes) :
    blockCommentSize n (t ++ r) = blockCommentSize n t := by
  fun_induction blockCommentSize n t with
  | case1 n => simp [commentEnd] at h
  | case2 n b =>
    have hlen := h.length_le
    simp [commentEnd] at hlen
  | case3 n b c rest hend => simp [blockCommentSize, hend]
  | case4 n b c rest hend ih =>
    rw [List.cons_append, List.cons_append, blockCommentSize, if_neg hend]
    apply ih
    rcases List.infix_cons_iff.mp h with hprefix | hinfix
    · rw [commentEnd, List.cons_prefix_cons, List.cons_prefix_cons] at hprefix
      simp [← hprefix.1, ← hprefix.2.1] at hend
    · exact hinfix

private theorem blockCommentSize_le (n : Nat) (t : Bytes) :
    blockCommentSize n t ≤ n + t.length := by
  fun_induction blockCommentSize n t with
  | case1 n => exact Nat.le_refl n
  | case2 n b => exact Nat.le_refl (n + 1)
  | case3 n b c rest hend => simp only [List.length_cons]; omega
  | case4 n b c rest hend ih => simp only [List.length_cons] at ih ⊢; omega

private theorem le_blockCommentSize (n : Nat) (t : Bytes) (h : t ≠ []) :
    n < blockCommentSize n t := by
  fun_induction blockCommentSize n t with
  | case1 n => exact absurd rfl h
  | case2 n b => omega
  | case3 n b c rest hend => omega
  | case4 n b c rest hend ih =>
    have hlt := ih (List.cons_ne_nil _ _)
    omega

-- A block comment with something behind it is closed.
private theorem commentEnd_infix {n : Nat} (h : blockCommentSize n (t ++ r) = n + t.length)
    (hr : r ≠ []) : commentEnd <:+: t := by
  induction t generalizing n with
  | nil =>
    have hlt := le_blockCommentSize n r hr
    simp only [List.nil_append, List.length_nil] at h
    omega
  | cons b t ih =>
    obtain ⟨c, u, hu⟩ := List.exists_cons_of_ne_nil (List.append_ne_nil_of_right_ne_nil t hr)
    rw [List.cons_append, hu, blockCommentSize, List.length_cons] at h
    split at h
    · -- the comment ends here, so that the mark is all there is
      rename_i hend
      cases t with
      | nil => simp at h
      | cons c' t =>
        simp only [List.cons_append, List.cons.injEq] at hu
        simp only [Bool.and_eq_true, beq_iff_eq] at hend
        rw [hu.1, hend.1, hend.2]
        exact (List.prefix_append commentEnd t).isInfix
    · rw [← hu] at h
      exact (ih (n := n + 1) (by omega)).trans (List.suffix_cons b t).isInfix

end Sizes

/-! ## Segments -/

/-- A block comment that is not closed. -/
def IsOpenComment (s : Segment) : Prop :=
  s.form = .comment ∧ [Bytes.ascii '/', Bytes.ascii '*'] <+: s.text ∧
    ¬ commentEnd <:+: s.text.drop 2

section Extents

variable {b : UInt8} {t r r' : Bytes} {form : Form}

/-- The first segment has the form and the length of its extent. -/
theorem first_eq (b : UInt8) (rest : Bytes) :
    first b rest = ⟨(extent b rest).1, b :: rest.take (extent b rest).2⟩ := rfl

/-- White space goes as far as it can. -/
theorem extent_of_isBlank (hb : isBlank b) (rest : Bytes) :
    extent b rest = (.blank, run isBlank rest) := if_pos hb

/-- The extent of what begins with an operator. -/
def operatorExtent (k : Kind) : Bytes → Form × Nat
  | [] => (.operator k, 0)
  | c :: rest =>
    if k == .slash && c == Bytes.ascii '/' then (.comment, 1 + run (· != Bytes.newline) rest)
    else if k == .slash && c == Bytes.ascii '*' then (.comment, 1 + blockCommentSize 0 rest)
    else if c == Bytes.ascii '=' then
      match withEqual? k with
      | some k' => (.operator k', 1)
      | none => (.operator k, 0)
    else (.operator k, 0)

/-- What an operator makes with a byte behind it: nothing, a comment, or another operator. -/
theorem operatorExtent_cons (k : Kind) (c : UInt8) :
    (∀ rest, operatorExtent k (c :: rest) = (.operator k, 0)) ∨
    (k = .slash ∧ c = Bytes.ascii '/' ∧ ∀ rest,
      operatorExtent k (c :: rest) = (.comment, 1 + run (· != Bytes.newline) rest)) ∨
    (k = .slash ∧ c = Bytes.ascii '*' ∧ ∀ rest,
      operatorExtent k (c :: rest) = (.comment, 1 + blockCommentSize 0 rest)) ∨
    ∃ k', withEqual? k = some k' ∧ c = Bytes.ascii '=' ∧
      ∀ rest, operatorExtent k (c :: rest) = (.operator k', 1) := by
  unfold operatorExtent
  by_cases hline : k == .slash && c == Bytes.ascii '/'
  · simp only [Bool.and_eq_true, beq_iff_eq] at hline
    exact .inr (.inl ⟨hline.1, hline.2, fun rest ↦ by simp [hline.1, hline.2]⟩)
  by_cases hblock : k == .slash && c == Bytes.ascii '*'
  · refine .inr (.inr (.inl ?_))
    simp only [hline, hblock, Bool.false_eq_true, if_false, if_true]
    simp only [Bool.and_eq_true, beq_iff_eq] at hblock
    exact ⟨hblock.1, hblock.2, fun _ ↦ trivial⟩
  simp only [hline, hblock, Bool.false_eq_true, if_false]
  by_cases heq : c == Bytes.ascii '='
  · cases hk : withEqual? k with
    | none => exact .inl fun _ ↦ by simp
    | some k' => exact .inr (.inr (.inr ⟨k', rfl, beq_iff_eq.mp heq, fun _ ↦ by simp [heq]⟩))
  · exact .inl fun _ ↦ by simp [heq]

private theorem eq_operator_of_extent {k : Kind} (h : operatorExtent k r = (form, 0)) :
    form = .operator k := by
  cases r with
  | nil => exact (congrArg Prod.fst h).symm
  | cons c r =>
    rcases operatorExtent_cons k c with hc | ⟨-, -, hc⟩ | ⟨-, -, hc⟩ | ⟨k', -, -, hc⟩
    · rw [hc] at h
      exact (congrArg Prod.fst h).symm
    · rw [hc] at h
      have hsize := congrArg Prod.snd h
      simp at hsize
    · rw [hc] at h
      have hsize := congrArg Prod.snd h
      simp at hsize
    · rw [hc] at h
      cases h

-- A byte that begins a word, or ends a line, makes nothing with an operator.
private theorem operatorExtent_of_alike {k : Kind} (h : operatorExtent k r = (form, 0))
    (hr : Alike r.head? r'.head?) : operatorExtent k r' = (form, 0) := by
  have hform := eq_operator_of_extent h
  cases r' with
  | nil => rw [hform]; rfl
  | cons c r' =>
    -- a byte that makes something with the operator is the same in both, and would have done so
    have hsame : isWordStart c = false → c ≠ Bytes.newline → ∃ rest, r = c :: rest := by
      intro hword hline
      have heq := hr.eq_of_mem rfl hword hline
      exact List.head?_eq_some_iff.mp heq.symm
    rcases operatorExtent_cons k c with hc | ⟨-, rfl, hc⟩ | ⟨-, rfl, hc⟩ | ⟨k', -, rfl, hc⟩
    · rw [hc, hform]
    all_goals
      obtain ⟨rest, rfl⟩ := hsame (by decide) (by decide)
      rw [hc] at h
      have hsize := congrArg Prod.snd h
      simp at hsize

/-- Only one byte is a slash. -/
theorem eq_slash {b : UInt8} (h : operator? b = some .slash) : b = Bytes.ascii '/' := by
  unfold operator? at h
  split at h
  case h_11 hc =>
    have hn : b.toNat = (Bytes.ascii '/').toNat := congrArg Char.toNat hc
    exact UInt8.toNat_inj.mp hn
  all_goals cases h

private theorem operatorExtent_congr {k : Kind} (hk : operator? b = some k)
    (h : operatorExtent k (t ++ r) = (form, t.length)) (hr : LooksLike r r')
    (hopen : r = [] → r' ≠ [] → ¬ IsOpenComment ⟨form, b :: t⟩) :
    operatorExtent k (t ++ r') = (form, t.length) := by
  cases t with
  | nil => exact operatorExtent_of_alike h hr.first
  | cons c t =>
    rw [List.cons_append] at h ⊢
    rcases operatorExtent_cons k c with hc | ⟨-, rfl, hc⟩ | ⟨rfl, rfl, hc⟩ | ⟨k', -, rfl, hc⟩
    · rw [hc] at h
      cases h
    · rw [hc, Prod.mk.injEq, List.length_cons] at h
      obtain ⟨rfl, hsize⟩ := h
      have hrun : run (· != Bytes.newline) (t ++ r) = t.length := by omega
      obtain ⟨ht, hstop⟩ := run_append_eq_length.mp hrun
      have hstop' := hr.first.not_mem (p := (· != Bytes.newline)) (fun b _ hb _ hline ↦ by
        rw [bne_eq_false_iff_eq.mp hline] at hb
        cases hb) (by decide) hstop
      rw [hc, run_append_eq_length.mpr ⟨ht, hstop'⟩, List.length_cons, Nat.add_comm]
    · rw [hc, Prod.mk.injEq, List.length_cons] at h
      obtain ⟨rfl, hsize⟩ := h
      have hblock : blockCommentSize 0 (t ++ r) = 0 + t.length := by omega
      rw [hc, List.length_cons, Nat.add_comm t.length]
      by_cases hr' : r = [] ∧ r' = []
      · rw [hr'.2, ← hr'.1, hblock, Nat.zero_add]
      · have hclosed : commentEnd <:+: t := by
          by_cases hr₀ : r = []
          · have hnot := hopen hr₀ fun hnil ↦ hr' ⟨hr₀, hnil⟩
            rw [eq_slash hk] at hnot
            exact Classical.byContradiction fun ht ↦ hnot ⟨rfl, ⟨t, rfl⟩, ht⟩
          · exact commentEnd_infix hblock hr₀
        rw [blockCommentSize_append 0 hclosed r', ← blockCommentSize_append 0 hclosed r, hblock,
          Nat.zero_add]
    · rw [hc] at h ⊢
      exact h

-- An operator is the one that it began with, or that one with an equals sign.
private theorem kind_operatorExtent {k k' : Kind} {rest : Bytes}
    (h : (operatorExtent k rest).1 = .operator k') : k' = k ∨ withEqual? k = some k' := by
  cases rest with
  | nil =>
    cases h
    exact .inl rfl
  | cons c rest =>
    unfold operatorExtent at h
    dsimp only at h
    split at h
    · cases h
    split at h
    · cases h
    split at h
    · cases hk : withEqual? k with
      | none =>
        rw [hk] at h
        cases h
        exact .inl rfl
      | some k'' =>
        rw [hk] at h
        cases h
        exact .inr rfl
    · cases h
      exact .inl rfl

private theorem length_operatorExtent_le (k : Kind) (rest : Bytes) :
    (operatorExtent k rest).2 ≤ rest.length := by
  cases rest with
  | nil => exact Nat.zero_le _
  | cons c rest =>
    rcases operatorExtent_cons k c with hc | ⟨-, -, hc⟩ | ⟨-, -, hc⟩ | ⟨k', -, -, hc⟩
    · rw [hc]
      exact Nat.zero_le _
    · have hrun := length_run_le (· != Bytes.newline) rest
      rw [hc, List.length_cons]
      omega
    · have hsize := blockCommentSize_le 0 rest
      rw [hc, List.length_cons]
      omega
    · rw [hc]
      exact Nat.succ_le_succ (Nat.zero_le _)

private theorem operatorExtent_ne_word (k : Kind) (rest : Bytes) :
    (operatorExtent k rest).1 ≠ .word := by
  cases rest with
  | nil => nofun
  | cons c rest =>
    rcases operatorExtent_cons k c with hc | ⟨-, -, hc⟩ | ⟨-, -, hc⟩ | ⟨k', -, -, hc⟩
    all_goals
      rw [hc]
      nofun

/-- What the front of a source can be, by its first byte. -/
theorem extent_cases (b : UInt8) (rest : Bytes) :
    (isBlank b ∧ extent b rest = (.blank, run isBlank rest)) ∨
    (b = quote ∧ run (· != quote) rest < rest.length ∧
      extent b rest = (.quoted, run (· != quote) rest + 1)) ∨
    (b = quote ∧ rest.length ≤ run (· != quote) rest ∧
      extent b rest = (.unclosed, run (· != quote) rest)) ∨
    (Decimal.isDigit b ∧ extent b rest = (.number, numberSize rest)) ∨
    (isWordStart b ∧ extent b rest = (.word, run isWordPart rest)) ∨
    ((isBlank b = false ∧ b ≠ quote ∧ Decimal.isDigit b = false ∧ isWordStart b = false ∧
      operator? b = none) ∧ extent b rest = (.stray, (Utf8.decode b rest).size - 1)) ∨
    ∃ k, operator? b = some k ∧ extent b rest = operatorExtent k rest := by
  unfold extent
  by_cases hb : isBlank b
  · exact .inl ⟨hb, if_pos hb⟩
  rw [if_neg hb]
  by_cases hq : b == quote
  · rw [if_pos hq]
    by_cases hlt : run (· != quote) rest < rest.length
    · exact .inr (.inl ⟨beq_iff_eq.mp hq, hlt, if_pos hlt⟩)
    · exact .inr (.inr (.inl ⟨beq_iff_eq.mp hq, Nat.le_of_not_lt hlt, if_neg hlt⟩))
  rw [if_neg hq]
  by_cases hd : Decimal.isDigit b
  · exact .inr (.inr (.inr (.inl ⟨hd, if_pos hd⟩)))
  rw [if_neg hd]
  by_cases hw : isWordStart b
  · exact .inr (.inr (.inr (.inr (.inl ⟨hw, if_pos hw⟩))))
  rw [if_neg hw]
  simp only [Bool.not_eq_true] at hb hd hw
  rw [beq_iff_eq] at hq
  cases hk : operator? b with
  | none => exact .inr (.inr (.inr (.inr (.inr (.inl ⟨⟨hb, hq, hd, hw, rfl⟩, rfl⟩)))))
  | some k => exact .inr (.inr (.inr (.inr (.inr (.inr ⟨k, rfl, rfl⟩)))))

/-- A segment does not go beyond the end of the source. -/
theorem extent_le (hstray : (extent b r).1 ≠ .stray) : (extent b r).2 ≤ r.length := by
  rcases extent_cases b r with
    ⟨-, h⟩ | ⟨-, hlt, h⟩ | ⟨-, -, h⟩ | ⟨-, h⟩ | ⟨-, h⟩ | ⟨-, h⟩ | ⟨k, -, h⟩
  · rw [h]
    exact length_run_le isBlank r
  · rw [h]
    exact hlt
  · rw [h]
    exact length_run_le (· != quote) r
  · rw [h]
    exact numberSize_le r
  · rw [h]
    exact length_run_le isWordPart r
  · rw [h] at hstray
    exact absurd rfl hstray
  · rw [h]
    exact length_operatorExtent_le k r

/-- The extent of a segment, with the source taken apart where the segment ends. -/
theorem extent_take_append_drop (hstray : (extent b r).1 ≠ .stray) :
    extent b (r.take (extent b r).2 ++ r.drop (extent b r).2) =
      ((extent b r).1, (r.take (extent b r).2).length) := by
  rw [List.take_append_drop, List.length_take, Nat.min_eq_left (extent_le hstray)]

/-- The token of an operator neither ends the source nor is a name. -/
theorem extent_ne_operator {k : Kind} (hk : k ∈ [Kind.eof, Kind.identifier]) (b : UInt8)
    (rest : Bytes) : (extent b rest).1 ≠ .operator k := by
  intro hform
  rcases extent_cases b rest with
    ⟨-, h⟩ | ⟨-, -, h⟩ | ⟨-, -, h⟩ | ⟨-, h⟩ | ⟨-, h⟩ | ⟨-, h⟩ | ⟨k', hfirst, h⟩
  case inr.inr.inr.inr.inr.inr =>
    rw [h] at hform
    rcases kind_operatorExtent hform with rfl | hequal
    · unfold operator? at hfirst
      split at hfirst <;> cases hfirst <;> revert hk <;> decide
    · cases k' <;> cases hequal <;> revert hk <;> decide
  all_goals
    rw [h] at hform
    cases hform

/-- A word goes as far as it can. -/
theorem extent_of_isWordStart (hb : isWordStart b) (rest : Bytes) :
    extent b rest = (.word, run isWordPart rest) := by
  have hblank : isBlank b = false := by
    unfold isWordStart at hb
    unfold isBlank
    simp [Bytes.ascii, Bytes.newline, UInt8.le_iff_toNat_le, ← UInt8.toNat_inj] at hb ⊢
    omega
  have hquote : (b == quote) = false := by
    unfold isWordStart at hb
    simp [quote, Bytes.doubleQuote, Bytes.ascii, UInt8.le_iff_toNat_le, ← UInt8.toNat_inj] at hb ⊢
    omega
  simp [extent, hblank, hquote, isDigit_of_isWordStart hb, hb]

/-- A word begins as a word can begin. -/
theorem isWordStart_of_extent (hform : (extent b r).1 = .word) : isWordStart b := by
  rcases extent_cases b r with
    ⟨-, h⟩ | ⟨-, -, h⟩ | ⟨-, -, h⟩ | ⟨-, h⟩ | ⟨hb, -⟩ | ⟨-, h⟩ | ⟨k, -, h⟩
  case inr.inr.inr.inr.inl => exact hb
  case inr.inr.inr.inr.inr.inr =>
    rw [h] at hform
    exact absurd hform (operatorExtent_ne_word k r)
  all_goals
    rw [h] at hform
    cases hform

/-- A segment ends where it did if what follows it looks like what followed it. White space is
excluded, which goes on over the end of a line, and so is what is no part of a program. -/
theorem extent_congr (h : extent b (t ++ r) = (form, t.length)) (hr : LooksLike r r')
    (hb : isBlank b = false) (hstray : form ≠ .stray) (hunclosed : form ≠ .unclosed)
    (hopen : r = [] → r' ≠ [] → ¬ IsOpenComment ⟨form, b :: t⟩) :
    extent b (t ++ r') = (form, t.length) := by
  unfold extent at h ⊢
  rw [if_neg (by simp [hb])] at h ⊢
  by_cases hq : b == quote
  · rw [if_pos hq] at h ⊢
    dsimp only at h ⊢
    split at h
    · rename_i hlt
      obtain ⟨rfl, hsize⟩ := Prod.mk.inj h
      have hin : run (· != quote) (t ++ r) < t.length := by omega
      have hrun := run_append_of_lt hin r'
      rw [hrun, if_pos (by simp only [List.length_append] at hlt ⊢; omega)]
      exact h
    · exact absurd (congrArg Prod.fst h).symm hunclosed
  rw [if_neg hq] at h ⊢
  by_cases hd : Decimal.isDigit b
  · rw [if_pos hd] at h ⊢
    obtain ⟨rfl, hsize⟩ := Prod.mk.inj h
    rw [numberSize_congr hsize hr]
  rw [if_neg hd] at h ⊢
  by_cases hw : isWordStart b
  · rw [if_pos hw] at h ⊢
    obtain ⟨rfl, hsize⟩ := Prod.mk.inj h
    obtain ⟨hpart, hstop⟩ := run_append_eq_length.mp hsize
    rw [run_append_eq_length.mpr ⟨hpart, hr.first.not_wordPart hstop⟩]
  rw [if_neg hw] at h ⊢
  cases hk : operator? b with
  | none =>
    rw [hk] at h
    exact absurd (congrArg Prod.fst h).symm hstray
  | some k =>
    rw [hk] at h
    exact operatorExtent_congr hk h hr hopen

end Extents

end Lox.Segment
