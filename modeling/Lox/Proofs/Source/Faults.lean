import Mathlib
import Lox.Proofs.Source.Lexemes

/-!
Where faults of spelling are said to be.

The column of a fault is taken where its text starts and the line where its text stops.  A character
that starts nothing is one character long, so there the two agree.  An open string goes on to the
end of the source: as soon as a line ends in it, the line and the column belong to two places.
-/

namespace Lox

/-- A part of a source that is a fault, with what stands in front of it. -/
structure Offence where
  fault : ScanFault
  before : List Char
  text : List Char

namespace Offence

/-- The line of the first byte. -/
def line (o : Offence) : Nat := 1 + o.before.count '\n'

/-- The column of the first byte. -/
def column (o : Offence) : Nat := 1 + bytes (lastLine o.before)

/-- The report that points at the first byte. -/
def atStart (o : Offence) : ScanError := ⟨o.fault, o.line, o.column⟩

/-- The report that is made.  Its line is the one behind the text. -/
def reported (o : Offence) : ScanError :=
  ⟨o.fault, 1 + (o.before ++ o.text).count '\n', o.column⟩

theorem reported_eq_atStart {o : Offence} : o.reported = o.atStart ↔ '\n' ∉ o.text := by
  rw [← List.count_eq_zero, reported, atStart, line, List.count_append]
  simp

end Offence

/-- The fault that a piece is. -/
def Piece.fault? : Piece → Option ScanFault
  | unexpected => some .unexpectedCharacter
  | unterminated => some .unterminatedString
  | layout | token _ => none

/-- The faults among the pieces that follow each other behind `before`. -/
def offences (before : List Char) : List (Piece × List Char) → List Offence
  | [] => []
  | (piece, text) :: pieces =>
    (piece.fault?.map (Offence.mk · before text)).toList ++ offences (before ++ text) pieces

/-- A character that starts nothing is no newline. -/
theorem newline_not_mem_of_unexpected {c : Char} {rest : List Char}
    (h : (cut c rest).piece = .unexpected) : '\n' ∉ (cut c rest).text := by
  intro hmem
  rcases cut_lexeme c rest with hlexeme | ⟨hcut, -⟩ | ⟨hcut, -⟩
  · rw [h] at hlexeme
    cases hlexeme
  · rw [hcut, List.mem_singleton] at hmem
    have hblank : cut c rest = ⟨.layout, [c], rest⟩ := cut_of_blank (by rw [← hmem]; rfl)
    rw [hblank] at hcut
    cases hcut
  · rw [hcut] at h
    cases h

open Cursor (place place_append)

theorem error?_eq_reported (before : List Char) (c : Char) (rest : List Char) :
    (cut c rest).piece.error? (place before) (place (before ++ (cut c rest).text)) =
      ((cut c rest).piece.fault?.map (Offence.mk · before (cut c rest).text)).map
        Offence.reported := by
  have hstart := Position.advance_start before
  have hstop := Position.advance_start (before ++ (cut c rest).text)
  cases h : (cut c rest).piece with
  | layout | token form => rfl
  | unterminated =>
    show some (⟨_, (place _).line, (place _).column⟩ : ScanError) = _
    rw [place, place, hstart, hstop]
    rfl
  | unexpected =>
    have hline := Offence.reported_eq_atStart (o := ⟨.unexpectedCharacter, before, _⟩) |>.mpr
      (newline_not_mem_of_unexpected h)
    show some (⟨_, (place _).line, (place _).column⟩ : ScanError) = some (Offence.reported _)
    rw [hline, place, hstart]
    rfl

/-- The faults of a text are reported in the order of the pieces that they are. -/
theorem exists_offences {p : Position} {before rest : List Char} (hp : p = place before) :
    ∃ pieces, Lexes rest pieces ∧
      (Scan.ofText p rest).errors = (offences before pieces).map Offence.reported := by
  induction p, rest using Scan.ofText.induct generalizing before with
  | case1 p =>
    rw [Scan.ofText]
    exact ⟨[], .done, rfl⟩
  | case2 p c rest k stop =>
    rename_i ih
    have hstop : stop = place (before ++ k.text) := by
      rw [place_append, ← hp]
    obtain ⟨pieces, hlexes, herrors⟩ := ih hstop
    refine ⟨_, hlexes.of_cut, ?_⟩
    rw [Scan.ofText, Scan.addPiece_eq, offences, List.map_append, ← herrors, ← Option.toList_map,
      ← error?_eq_reported, ← hp, place_append, ← hp]

/-- Only a string that is left open is more than one line long. -/
theorem newline_not_mem_of_offence {source before : List Char}
    {pieces : List (Piece × List Char)} (h : Lexes source pieces) {o : Offence}
    (ho : o ∈ offences before pieces) (hfault : o.fault ≠ .unterminatedString) :
    '\n' ∉ o.text := by
  induction h generalizing before with
  | done => exact absurd ho List.not_mem_nil
  | longest hlongest _ _ ih =>
    have hnone : ∀ {piece : Piece} {text : List Char}, Lexeme piece text →
        piece.fault? = none := by
      intro piece text hlexeme
      cases hlexeme <;> rfl
    rw [offences, hnone hlongest.lexeme] at ho
    exact ih ho
  | @unexpected c rest pieces hnone _ _ ih =>
    rcases List.mem_append.mp ho with ho | ho
    · obtain rfl := List.mem_singleton.mp ho
      intro hmem
      obtain rfl := List.mem_singleton.mp hmem
      exact hnone _ _ (.blank (by decide)) ⟨rest, rfl⟩
    · exact ih ho
  | unterminated =>
    obtain rfl := List.mem_singleton.mp ho
    exact absurd rfl hfault

/-- Every fault is reported in the column of the first byte of its text.  The lines are those of the
first bytes too, and so all reports point at what is wrong, exactly if no line ends in a string that
is left open. -/
theorem faults_at_their_texts (source : String) : ∃ s pieces, Cursor.run source = some s ∧
    (∀ others, Lexes source.toList others ↔ others = pieces) ∧
    s.errors.map (fun e => (e.fault, e.column)) =
      (offences [] pieces).map (fun o => (o.fault, o.column)) ∧
    (s.errors = (offences [] pieces).map Offence.atStart ↔
      ∀ o ∈ offences [] pieces, o.fault = .unterminatedString → '\n' ∉ o.text) := by
  obtain ⟨pieces, hlexes, herrors⟩ : ∃ pieces, Lexes source.toList pieces ∧
      (scan source).errors = (offences [] pieces).map Offence.reported := exists_offences rfl
  refine ⟨scan source, pieces, Cursor.run_eq source, fun others => ⟨hlexes.unique, ?_⟩, ?_, ?_⟩
  · rintro rfl
    exact hlexes
  · rw [herrors, List.map_map]
    rfl
  · rw [herrors, List.map_inj_left]
    refine forall₂_congr fun o ho => ?_
    rw [Offence.reported_eq_atStart]
    refine ⟨fun h _ => h, fun h => ?_⟩
    by_cases hfault : o.fault = .unterminatedString
    · exact h hfault
    · exact newline_not_mem_of_offence hlexes ho hfault

/-- A string that is left open in the third column of the first line, and goes on behind a line end,
is reported in the third column of the second line, where there is only one. -/
theorem open_string_off_place : ¬ ∀ (source : String) (pieces : List (Piece × List Char)),
    Lexes source.toList pieces →
      (scan source).errors = (offences [] pieces).map Offence.atStart := by
  intro h
  have hreported : (scan "x \"a\nb").errors = [⟨.unterminatedString, 2, 3⟩] := by cbv
  have hlexes : Lexes "x \"a\nb".toList [(.token (.bare .identifier), ['x']), (.layout, [' ']),
      (.unterminated, ['"', 'a', '\n', 'b'])] :=
    .of_cut (c := 'x') (.of_cut (c := ' ') (.of_cut (c := '"') .done))
  rw [h _ _ hlexes] at hreported
  exact absurd hreported (by decide)

end Lox
