import Lox.Proofs.Source.Joining
import Lox.Proofs.Source.Lexemes

/-!
Scanning line by line.

A source can be scanned in pieces that end where its lines do, one behind the other, as long as no
string is open where a piece ends.  Nothing else can be open there: numbers, words, operators and
comments end with their line.
-/

namespace Lox
namespace Scan

/-- Whether `s` is the scan `a` up to its end and then the scan `b`, some lines further down. -/
structure Joins (a b : Scan) (lines : Nat) (s : Scan) : Prop where
  tokens : ∃ words stop, a.tokens = words ++ [stop] ∧ stop.kind = .eof ∧
    (∀ t ∈ words, t.kind ≠ .eof) ∧ s.tokens = words ++ b.tokens.map (·.down lines)
  errors : s.errors = a.errors ++ b.errors.map (·.down lines)

/-- Behind a newline a scan starts anew, unless a string is open there. -/
theorem joins_of_closed {a : List Char} (b : List Char) (h : (ofText .start a).Closed) :
    (ofText .start a).Joins (ofText .start b) (a.count '\n' + 1)
      (ofText .start (a ++ '\n' :: b)) := by
  obtain ⟨words, stop, hwords, hstop, hne⟩ := tokens_eq .start a
  rw [ofText_join b h]
  refine ⟨⟨words, stop, hwords, hstop, hne, ?_⟩, rfl⟩
  simp only [append, down, hwords, List.dropLast_concat]

/-- How many strings are left open. -/
def openStrings (s : Scan) : Nat := s.errors.countP (·.fault = .unterminatedString)

theorem openStrings_eq_zero {s : Scan} : s.openStrings = 0 ↔ s.Closed := by
  simp only [openStrings, List.countP_eq_zero, decide_eq_true_eq, Closed]

theorem openStrings_addPiece {piece : Piece} (h : piece ≠ .unterminated) (text : List Char)
    (start stop : Position) (s : Scan) :
    (s.addPiece piece text start stop).openStrings = s.openStrings := by
  cases piece with
  | layout | token form => rfl
  | unexpected => exact List.countP_cons_of_neg (by simp)
  | unterminated => exact absurd rfl h

/-- A string that is left open takes everything behind it. -/
theorem rest_of_unterminated {c : Char} {rest : List Char}
    (h : (cut c rest).piece = .unterminated) : (cut c rest).rest = [] := by
  rcases cut_lexeme c rest with hlexeme | ⟨hcut, -⟩ | ⟨hcut, -⟩
  · rw [h] at hlexeme
    cases hlexeme
  · rw [hcut] at h
    cases h
  · rw [hcut]

/-- So at most one is. -/
theorem openStrings_le_one (p : Position) (a : List Char) : (ofText p a).openStrings ≤ 1 := by
  induction p, a using ofText.induct with
  | case1 p =>
    rw [ofText]
    exact Nat.zero_le 1
  | case2 p c rest k stop ih =>
    rw [ofText]
    by_cases h : (cut c rest).piece = .unterminated
    · rw [rest_of_unterminated h, ofText, h]
      exact Nat.le_refl 1
    · rw [openStrings_addPiece h]
      exact ih

theorem openStrings_of_joins {a b s : Scan} {lines : Nat} (h : a.Joins b lines s) :
    s.openStrings = a.openStrings + b.openStrings := by
  rw [openStrings, h.errors, List.countP_append, List.countP_map]
  rfl

end Scan

/-- The sources that leave no string open are those behind which scanning goes on as if the next
line were the first one: whatever stands there, its tokens and its faults follow those of the
source, and only their lines are others. -/
theorem closed_iff_joins (a : String) : (scan a).Closed ↔
    ∀ b : String, (scan a).Joins (scan b) (a.toList.count '\n' + 1) (scan (a ++ "\n" ++ b)) := by
  have htext : ∀ b : String,
      scan (a ++ "\n" ++ b) = .ofText .start (a.toList ++ '\n' :: b.toList) := by
    intro b
    rw [scan, String.toList_append, String.toList_append, List.append_assoc]
    rfl
  constructor
  · intro h b
    rw [htext]
    exact Scan.joins_of_closed b.toList h
  · intro h
    -- Two strings cannot both be left open.
    have hcount := Scan.openStrings_of_joins (h "\"")
    have hquote : (scan "\"").openStrings = 1 := by
      rw [scan]
      show (Scan.ofText .start ['"']).openStrings = 1
      rw [Scan.ofText, Scan.rest_of_unterminated rfl, Scan.ofText]
      rfl
    have hle := Scan.openStrings_le_one .start (a ++ "\n" ++ "\"").toList
    rw [← scan, hcount, hquote] at hle
    exact Scan.openStrings_eq_zero.mp (Nat.le_zero.mp (Nat.le_of_succ_le_succ hle))

end Lox
