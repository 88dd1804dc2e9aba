import Mathlib
import Lox.Proofs.Decimal.Numerals
import Lox.Syntax.Render

/-!
Nested lists and their texts.

A listing shows numbers, words, and lists of a head and further parts.  A blank stands in front of
every part, and a parenthesis closes the list, so no part goes on where another one ends.  What a
part starts with tells a number, a word and a list apart.  So a text is written for one outline
only.
-/

namespace Lox

/-- What a listing shows. -/
inductive Outline where
  | number (x : Float)
  | word (text : String)
  | list (head : String) (parts : List Outline)

namespace Outline

mutual

def write : Outline → String
  | number x => Decimal.text x
  | word text => text
  | list head parts => listed head (writeAll parts)

def writeAll : List Outline → List String
  | [] => []
  | s :: ss => s.write :: writeAll ss

end

/-- Whether a character is part of what it stands in, and does not end it. -/
def continues (c : Char) : Bool := c != ' ' && c != ')'

/-- Whether a text starts with nothing that could belong to a part in front of it. -/
def Ends (rest : List Char) : Prop := ∀ c ∈ rest.head?, continues c = false

/-- Outlines in which numbers are finite and have no sign, words look like words, and no head ends
before its list goes on. -/
inductive Legible : Outline → Prop
  | number {x : Float} : Decimal.Unsigned x → x.isInf = false → Legible (.number x)
  | word {text : String} : Word text.toList → Legible (.word text)
  | list {head : String} {parts : List Outline} : (∀ c ∈ head.toList, continues c = true) →
      (∀ s ∈ parts, Legible s) → Legible (.list head parts)

/-- What an outline starts with. -/
def Front : Outline → Char → Prop
  | number _ => IsDigit
  | word _ => IsLetter
  | list _ _ => (· = '(')

/-- Whether an outline is the only one that its text is written for, whatever follows. -/
def Recoverable (s : Outline) : Prop := ∀ {s' : Outline} {r r' : List Char}, s'.Legible → Ends r →
  Ends r' → s.write.toList ++ r = s'.write.toList ++ r' → s = s' ∧ r = r'

/-! ## Lists -/

/-- What stands behind the head of a list. -/
def tail (parts : List String) : List Char :=
  parts.foldr (fun part rest => ' ' :: (part.toList ++ rest)) [')']

theorem toList_listed (head : String) (parts : List String) :
    (listed head parts).toList = '(' :: (head.toList ++ tail parts) := by
  have htail : (parts.foldr (fun part rest => " " ++ part ++ rest) ")").toList = tail parts := by
    induction parts with
    | nil => rfl
    | cons part parts ih =>
      rw [List.foldr_cons, String.toList_append, String.toList_append, ih]
      simp [tail]
  rw [listed, String.toList_append, String.toList_append, htail]
  rfl

theorem ends_nil : Ends [] := fun _ hc => by cases hc

theorem ends_tail (parts : List String) (r : List Char) : Ends (tail parts ++ r) := by
  intro c hc
  cases parts <;> cases hc <;> rfl

variable {s s' : Outline} {parts parts' : List Outline} {r r' : List Char}

theorem tail_append_inj (hparts : ∀ s ∈ parts, s.Recoverable) (hparts' : ∀ s ∈ parts', s.Legible)
    (h : tail (writeAll parts) ++ r = tail (writeAll parts') ++ r') : parts = parts' ∧ r = r' := by
  induction parts generalizing parts' with
  | nil =>
    cases parts' with
    | nil => exact ⟨rfl, List.tail_eq_of_cons_eq h⟩
    | cons s' parts' => exact absurd (List.head_eq_of_cons_eq h) (by decide)
  | cons s parts ih =>
    cases parts' with
    | nil => exact absurd (List.head_eq_of_cons_eq h) (by decide)
    | cons s' parts' =>
      rw [List.forall_mem_cons] at hparts hparts'
      have hrest := List.tail_eq_of_cons_eq h
      change s.write.toList ++ tail (writeAll parts) ++ r =
        s'.write.toList ++ tail (writeAll parts') ++ r' at hrest
      rw [List.append_assoc, List.append_assoc] at hrest
      obtain ⟨rfl, hmore⟩ := hparts.1 hparts'.1 (ends_tail _ r) (ends_tail _ r') hrest
      obtain ⟨rfl, hr⟩ := ih hparts.2 hparts'.2 hmore
      exact ⟨rfl, hr⟩

/-! ## Outlines -/

/-- A character with a property that no ending character has. -/
theorem continues_of {P : Char → Prop} {c : Char} (hc : P c) (hblank : ¬P ' ') (hclose : ¬P ')') :
    continues c = true := by
  have hne {d : Char} (hd : ¬P d) : (c != d) = true := bne_iff_ne.mpr fun h => hd (h ▸ hc)
  rw [continues, hne hblank, hne hclose]
  rfl

theorem continues_word {text : List Char} (h : Word text) : ∀ c ∈ text, continues c = true := by
  have hletter : ¬(IsLetter ' ' ∨ IsDigit ' ') ∧ ¬(IsLetter ')' ∨ IsDigit ')') := by
    simp [IsLetter, IsDigit]
  obtain ⟨c, rest, rfl, hc, hrest⟩ := h
  intro d hd
  refine continues_of (P := fun d => IsLetter d ∨ IsDigit d) ?_ hletter.1 hletter.2
  rcases List.mem_cons.mp hd with rfl | hd
  · exact .inl hc
  · exact hrest d hd

theorem continues_number {text : List Char} {q : ℚ} (h : Decimal.Writes text q) :
    ∀ c ∈ text, continues c = true := fun _ hc =>
  continues_of (P := fun c => IsDigit c ∨ c ∈ ['.', 'e', '+', '-']) (h.mem hc) (by simp [IsDigit])
    (by simp [IsDigit])

theorem Legible.front (h : s.Legible) : ∃ c rest, s.write.toList = c :: rest ∧ s.Front c := by
  cases h with
  | number hx hinf =>
    obtain ⟨q, hq⟩ := Decimal.exists_writes hx hinf
    exact hq.starts
  | word hword =>
    obtain ⟨c, rest, htext, hc, -⟩ := hword
    exact ⟨c, rest, htext, hc⟩
  | list => exact ⟨'(', _, toList_listed _ _, rfl⟩

/-- Numbers, words and lists start differently. -/
theorem exists_front (h : s.Legible) (h' : s'.Legible)
    (heq : s.write.toList ++ r = s'.write.toList ++ r') : ∃ c, s.Front c ∧ s'.Front c := by
  obtain ⟨c, rest, htext, hc⟩ := h.front
  obtain ⟨c', rest', htext', hc'⟩ := h'.front
  rw [htext, htext'] at heq
  obtain rfl : c = c' := List.head_eq_of_cons_eq heq
  exact ⟨c, hc, hc'⟩

theorem not_isLetter_of_digit {c : Char} (h : IsDigit c) : ¬IsLetter c := by
  rintro (hletter | hletter | rfl)
  · exact absurd (hletter.1.trans h.2) (by decide)
  · exact absurd (hletter.1.trans h.2) (by decide)
  · exact absurd h.2 (by decide)

theorem Legible.recoverable (h : s.Legible) : s.Recoverable := by
  induction h with
  | @number x hx hinf =>
    intro s' r r' h' hr hr' heq
    obtain ⟨c, hc, hc'⟩ := exists_front (.number hx hinf) h' heq
    cases h' with
    | @number y hy hyinf =>
      obtain ⟨q, hq⟩ := Decimal.exists_writes hx hinf
      obtain ⟨q', hq'⟩ := Decimal.exists_writes hy hyinf
      obtain ⟨htext, hrest⟩ :=
        append_inj_of_boundary (continues_number hq) (continues_number hq') hr hr' heq
      have hsame := Decimal.text_injective hx hy hinf hyinf (String.toList_inj.mp htext)
      exact ⟨congrArg Outline.number hsame, hrest⟩
    | word => exact absurd hc' (not_isLetter_of_digit hc)
    | list =>
      obtain rfl : c = '(' := hc'
      exact absurd hc (by simp [Front, IsDigit])
  | @word text hword =>
    intro s' r r' h' hr hr' heq
    obtain ⟨c, hc, hc'⟩ := exists_front (.word hword) h' heq
    cases h' with
    | number => exact absurd hc (not_isLetter_of_digit hc')
    | @word text' hword' =>
      obtain ⟨htext, hrest⟩ :=
        append_inj_of_boundary (continues_word hword) (continues_word hword') hr hr' heq
      exact ⟨congrArg Outline.word (String.toList_inj.mp htext), hrest⟩
    | list =>
      obtain rfl : c = '(' := hc'
      exact absurd hc (by simp [Front, IsLetter])
  | @list head parts hhead hparts ih =>
    intro s' r r' h' hr hr' heq
    obtain ⟨c, hc, hc'⟩ := exists_front (.list hhead hparts) h' heq
    obtain rfl : c = '(' := hc
    cases h' with
    | number => exact absurd hc' (by simp [Front, IsDigit])
    | word => exact absurd hc' (by simp [Front, IsLetter])
    | @list head' parts' hhead' hparts' =>
      rw [write, write, toList_listed, toList_listed] at heq
      have hinside := List.tail_eq_of_cons_eq heq
      change head.toList ++ tail (writeAll parts) ++ r =
        head'.toList ++ tail (writeAll parts') ++ r' at hinside
      rw [List.append_assoc, List.append_assoc] at hinside
      obtain ⟨htext, hbehind⟩ := append_inj_of_boundary hhead hhead' (ends_tail _ r)
        (ends_tail _ r') hinside
      obtain ⟨rfl, hrest⟩ := tail_append_inj ih hparts' hbehind
      exact ⟨congrArg (Outline.list · parts) (String.toList_inj.mp htext), hrest⟩

/-- Texts are written for one row of outlines only. -/
theorem writeAll_injective (h : ∀ s ∈ parts, s.Legible) (h' : ∀ s ∈ parts', s.Legible)
    (heq : writeAll parts = writeAll parts') : parts = parts' := by
  have hrecoverable : ∀ s ∈ parts, s.Recoverable := fun s hs => (h s hs).recoverable
  have htail : tail (writeAll parts) ++ [] = tail (writeAll parts') ++ [] := by rw [heq]
  exact (tail_append_inj hrecoverable h' htail).1

end Outline
end Lox
