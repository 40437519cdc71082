import Lox.Syntax.Printer

/-!
# Terms in parentheses

A term is a word, or a name and operands that are terms again. Its text has parentheses around a
name and its operands, and blanks between them. If no name and no word has a blank or a parenthesis
in it, then the text can be read in one way only (`Term.text_injective`): a word ends where a blank
or a closing parenthesis comes, and so the text of a term tells where the term ends
(`Term.text_append_inj`).
-/

namespace Lox

/-- A word, or a name and what it is applied to. -/
inductive Term where
  | word (w : Bytes)
  | list (name : Bytes) (operands : List Term)

namespace Term

mutual

/-- The text of a term. -/
def text : Term → Bytes
  | .word w => w
  | .list name operands => parenthesized name (textAll operands)

/-- The texts of several terms. -/
def textAll : List Term → List Bytes
  | [] => []
  | f :: fs => f.text :: textAll fs

end

/-- Nothing in a text can be taken for its end, or for the beginning of a list. -/
def Plain (w : Bytes) : Prop :=
  ∀ c ∈ w, c ∉ [Bytes.ascii ' ', Bytes.ascii '(', Bytes.ascii ')']

/-- Decided byte by byte. -/
instance (w : Bytes) : Decidable (Plain w) := List.decidableBAll _ w

mutual

/-- All words and names in a term are plain. -/
def Proper : Term → Prop
  | .word w => Plain w
  | .list name operands => Plain name ∧ AllProper operands

/-- All words and names in several terms are plain. -/
def AllProper : List Term → Prop
  | [] => True
  | f :: fs => f.Proper ∧ AllProper fs

end

/-- Texts with a blank before each of them. -/
def spread (texts : List Bytes) : Bytes := texts.flatMap (Bytes.ascii ' ' :: ·)

private theorem join_cons (name : Bytes) (texts : List Bytes) :
    Bytes.join [Bytes.ascii ' '] (name :: texts) = name ++ spread texts := by
  induction texts generalizing name with
  | nil => simp [Bytes.join, spread]
  | cons w ws ih =>
    have hsplit : Bytes.join [Bytes.ascii ' '] (name :: w :: ws) =
        name ++ Bytes.ascii ' ' :: Bytes.join [Bytes.ascii ' '] (w :: ws) := by
      simp [Bytes.join]
    rw [hsplit, ih]
    rfl

private theorem parenthesized_append (name : Bytes) (texts : List Bytes) (r : Bytes) :
    parenthesized name texts ++ r =
      Bytes.ascii '(' :: (name ++ (spread texts ++ Bytes.ascii ')' :: r)) := by
  simp [parenthesized, join_cons]

/-- What follows ends a word: nothing, a blank or a closing parenthesis. -/
def Closes (r : Bytes) : Prop := ∀ c ∈ r.head?, c ∈ [Bytes.ascii ' ', Bytes.ascii ')']

private theorem closes_spread (texts : List Bytes) (r : Bytes) :
    Closes (spread texts ++ Bytes.ascii ')' :: r) := by
  cases texts with
  | nil => simp [Closes, spread]
  | cons w ws => simp [Closes, spread]

section Reading

variable {r s : Bytes}

-- A plain word does not begin with what ends one.
private theorem Closes.append_ne {c : UInt8} {w : Bytes} (hr : Closes r) (hw : Plain (c :: w)) :
    r ≠ c :: (w ++ s) := by
  rintro rfl
  have hclose := hr c rfl
  have hplain := hw c List.mem_cons_self
  simp only [List.mem_cons, List.not_mem_nil, or_false] at hclose hplain
  exact hplain (hclose.imp_right .inr)

/-- A plain word ends where the first thing comes that ends one. -/
theorem plain_append_inj {w w' : Bytes} (hw : Plain w) (hw' : Plain w') (hr : Closes r)
    (hs : Closes s) (h : w ++ r = w' ++ s) : w = w' ∧ r = s := by
  induction w generalizing w' with
  | nil =>
    cases w' with
    | nil => exact ⟨rfl, h⟩
    | cons c w' => exact absurd h (hr.append_ne hw')
  | cons c w ih =>
    cases w' with
    | nil => exact absurd h.symm (hs.append_ne hw)
    | cons c' w' =>
      obtain ⟨rfl, hmore⟩ := List.cons.inj h
      obtain ⟨rfl, hrest⟩ :=
        ih (fun d hd ↦ hw d (.tail _ hd)) (fun d hd ↦ hw' d (.tail _ hd)) hmore
      exact ⟨rfl, hrest⟩

-- A list does not begin as a word does.
private theorem word_ne_list {w t : Bytes} (hw : Plain w) (hr : Closes r) :
    w ++ r ≠ Bytes.ascii '(' :: t := by
  intro h
  cases w with
  | nil => exact absurd (hr (Bytes.ascii '(') (by rw [show r = _ from h]; rfl)) (by decide)
  | cons c w =>
    obtain ⟨rfl, -⟩ := List.cons.inj h
    exact hw _ List.mem_cons_self (by decide)

mutual

/-- The text of a term tells where the term ends. -/
theorem text_append_inj {r s : Bytes} (hr : Closes r) (hs : Closes s) : (f g : Term) → f.Proper →
    g.Proper → f.text ++ r = g.text ++ s → f = g ∧ r = s
  | .word w, .word w', hw, hw', h => by
    obtain ⟨rfl, hrest⟩ := plain_append_inj hw hw' hr hs h
    exact ⟨rfl, hrest⟩
  | .word w, .list name operands, hw, _, h => by
    rw [text, text, parenthesized_append] at h
    exact absurd h (word_ne_list hw hr)
  | .list name operands, .word w, _, hw, h => by
    rw [text, text, parenthesized_append] at h
    exact absurd h.symm (word_ne_list hw hs)
  | .list name fs, .list name' gs, hf, hg, h => by
    rw [text, text, parenthesized_append, parenthesized_append] at h
    obtain ⟨rfl, hmore⟩ := plain_append_inj hf.1 hg.1 (closes_spread _ _) (closes_spread _ _)
      (List.cons.inj h).2
    obtain ⟨rfl, hrest⟩ := spread_append_inj fs gs hf.2 hg.2 hmore
    exact ⟨rfl, hrest⟩

/-- The texts of operands, up to the parenthesis behind them, tell where each of them ends. -/
theorem spread_append_inj {r s : Bytes} : (fs gs : List Term) → AllProper fs → AllProper gs →
    spread (textAll fs) ++ Bytes.ascii ')' :: r = spread (textAll gs) ++ Bytes.ascii ')' :: s →
      fs = gs ∧ r = s
  | [], [], _, _, h => ⟨rfl, (List.cons.inj h).2⟩
  | [], g :: gs, _, _, h => absurd (List.cons.inj h).1 (by decide)
  | f :: fs, [], _, _, h => absurd (List.cons.inj h).1 (by decide)
  | f :: fs, g :: gs, hf, hg, h => by
    have h' : f.text ++ (spread (textAll fs) ++ Bytes.ascii ')' :: r) =
        g.text ++ (spread (textAll gs) ++ Bytes.ascii ')' :: s) := by
      simpa [spread, textAll] using h
    obtain ⟨rfl, hmore⟩ :=
      text_append_inj (closes_spread _ _) (closes_spread _ _) f g hf.1 hg.1 h'
    obtain ⟨rfl, hrest⟩ := spread_append_inj fs gs hf.2 hg.2 hmore
    exact ⟨rfl, hrest⟩

end

/-- Proper terms of one text are the same. -/
theorem text_injective {f g : Term} (hf : f.Proper) (hg : g.Proper) (h : f.text = g.text) :
    f = g := by
  have hend : Closes [] := nofun
  exact (text_append_inj hend hend f g hf hg (by rw [h])).1

end Reading

end Term
end Lox
