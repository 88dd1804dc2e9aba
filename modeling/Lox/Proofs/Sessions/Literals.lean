import Mathlib
import Lox.Proofs.Decimal.Positional
import Lox.Proofs.Grammar.Programs
import Lox.Proofs.Sessions.Running
import Lox.Proofs.Source.Spacing
import Lox.Proofs.Syntax.Equality

/-!
Printed values read back.

The text of a simple value, with quotes around it if it is a string, is a lexeme of its own, and
the value is what it writes.  A semicolon ends every such lexeme.  So as a statement it is read as
the literal with that value, and printing the literal gives the text again.
-/

namespace Lox

open Grammar

namespace Value

/-- How a program writes a value. -/
def source : Value → String
  | .string text => "\"" ++ text ++ "\""
  | v => v.text

/-- The values that programs can write as they are printed.  Strings have no escapes, so none can
hold a quote, and numbers are not written with a sign or an exponent. -/
inductive Plain : Value → Prop
  | nil : Plain .nil
  | bool (b : Bool) : Plain (.bool b)
  | string {text : String} : '"' ∉ text.toList → Plain (.string text)
  | zero {x : Float} : (x == 0) = true → Plain (.number x)
  | positional {x : Float} : 1e-6 ≤ x → x < 1e21 → Plain (.number x)

namespace Plain

variable {v : Value}

theorem unsignedZero_eq {x : Float} (h : 1e-6 ≤ x) : unsignedZero x = x := by
  refine if_neg fun hzero => ?_
  obtain ⟨-, -, rfl | ⟨rfl, -⟩ | ⟨rfl, -⟩⟩ := Float.beq_iff_ne_nan_and_eq.mp hzero <;>
    exact absurd h (by decide)

/-- Reading a value back loses the sign of a zero at most, and the two are equal. -/
theorem canonical_equals (h : v.Plain) : v.canonical.equals v = true := by
  cases h with
  | nil => rfl
  | bool b => exact beq_self_eq_true b
  | string => exact beq_self_eq_true _
  | zero h =>
    show (unsignedZero _ == _) = true
    rw [unsignedZero, if_pos h]
    exact PartialEquivBEq.symm h
  | positional hlow hhigh =>
    have hx := (Decimal.text_numeral hlow hhigh).1
    refine PartialEquivBEq.symm (beq_unsignedZero.mpr ?_)
    show Float.Model.UnpackedFloat.isNaN _ = false
    rw [hx.unpack_eq]
    rfl

theorem word_lexeme {kind : Kind} (bare : kind.Bare) {text : String}
    (h : (text, kind) ∈ reserved) : Lexeme (.token (.bare kind bare)) text.toList :=
  .keyword bare (word_of_mem_reserved h) (by rwa [String.ofList_toList])

/-- What a program writes for a value is a literal, and the value of that literal. -/
theorem lexeme (h : v.Plain) : ∃ form, Lexeme (.token form) v.source.toList ∧
    ∀ text line column, Token.literal? ⟨form, text, line, column⟩ = some v.canonical := by
  cases h with
  | nil => exact ⟨.bare .kwNil, word_lexeme _ (by decide), fun _ _ _ => rfl⟩
  | bool b =>
    cases b with
    | true => exact ⟨.bare .kwTrue, word_lexeme _ (by decide), fun _ _ _ => rfl⟩
    | false => exact ⟨.bare .kwFalse, word_lexeme _ (by decide), fun _ _ _ => rfl⟩
  | @string text h =>
    refine ⟨.string text, ?_, fun _ _ _ => rfl⟩
    have hlexeme := Lexeme.string h
    rw [String.ofList_toList] at hlexeme
    simpa [source] using hlexeme
  | @zero x h =>
    have htext : text (.number x) = Decimal.text 0 :=
      (Decimal.layout.number_zero h).trans Decimal.text_zero.symm
    have hcanonical : canonical (.number x) = .number 0 := congrArg number (if_pos h)
    rw [hcanonical]
    refine ⟨.number 0, ?_, fun _ _ _ => rfl⟩
    show Lexeme _ (text (.number x)).toList
    rw [htext]
    exact Decimal.text_zero_lexeme
  | @positional x hlow hhigh =>
    have hcanonical : canonical (.number x) = .number x := congrArg number (unsignedZero_eq hlow)
    rw [hcanonical]
    exact ⟨.number x, Decimal.text_lexeme hlow hhigh, fun _ _ _ => rfl⟩

end Plain
end Value

/-! ## Programs of one literal -/

theorem Grammar.Derives.of_statement {ts : List Token} {s : Stmt}
    (h : Statement nearestIf false .closed ts s) : Derives nearestIf ts [s] := by
  have hone := Declarations.cons (.statement h) .nil
  rwa [List.append_nil] at hone

theorem Grammar.Operators.of_unary {ts : List Token} {e : Expr} (h : Unary ts e) :
    ∀ levels, Operators levels ts e
  | [] => .operand h
  | _ :: levels => .tighter (of_unary h levels)

theorem Grammar.Assignment.of_literal {t : Token} {v : Value} (h : t.literal? = some v) :
    Assignment [t] (.literal v) :=
  .operators (.of_unary (.call (.primary (.literal h))) _)

namespace Value.Plain

variable {v : Value}

/-- As a source, the text is one token with nothing to complain about. -/
theorem scan_source (h : v.Plain) : ∃ t stop, scan v.source = ⟨[t, stop], []⟩ ∧
    t.literal? = some v.canonical ∧ stop.kind = .eof := by
  obtain ⟨form, hlexeme, hliteral⟩ := h.lexeme
  obtain ⟨stop, hstop, hscan⟩ := Scan.ofText_end hlexeme .start
  exact ⟨_, stop, hscan, hliteral _ _ _, hstop⟩

/-- A semicolon behind the text is a token of its own. -/
theorem scan_statement (h : v.Plain) (p : Position) : ∃ t semicolon stop : Token,
    Scan.ofText p (v.source.toList ++ [';']) = ⟨[t, semicolon] ++ [stop], []⟩ ∧
      Assignment [t] (.literal v.canonical) ∧ semicolon.kind = .semicolon := by
  obtain ⟨form, hlexeme, hliteral⟩ := h.lexeme
  have hsemicolon : Lexeme (.token (.bare .semicolon)) [';'] := .sign (by decide) (by decide)
  have hseparates : ∀ b ∈ [';'].head?, Separates b := fun b hb => by
    cases hb
    exact separates_semicolon
  have hscan := Scan.ofText_token hlexeme hseparates p
  obtain ⟨stop, -, hrest⟩ := Scan.ofText_end hsemicolon (p.advance v.source.toList)
  rw [hrest] at hscan
  exact ⟨_, _, stop, hscan, .of_literal (hliteral _ _ _), rfl⟩

theorem ofSource_statement (h : v.Plain) :
    Program.ofSource (v.source ++ ";") = ⟨[.expression (.literal v.canonical)], []⟩ := by
  obtain ⟨t, semicolon, stop, hscan, hliteral, hsemicolon⟩ := h.scan_statement .start
  rw [← String.toList_ofList (l := [';']), ← String.toList_append] at hscan
  exact Program.ofSource_of_derives hscan (.of_statement (.expression (.mk hliteral hsemicolon)))

theorem ofSource_print (h : v.Plain) : ∃ keyword, Program.ofSource ("print " ++ v.source ++ ";") =
    ⟨[.print keyword (.literal v.canonical)], []⟩ := by
  have hkeyword : Lexeme (.token (.bare .kwPrint)) "print".toList :=
    word_lexeme _ (by decide)
  have hblank : Apart (' ' :: (v.source.toList ++ [';'])) := fun b hb => by
    cases hb
    rfl
  have hfront := Scan.ofText_token hkeyword hblank.separates .start
  obtain ⟨t, semicolon, stop, hscan, hliteral, hsemicolon⟩ :=
    h.scan_statement ((Position.start.advance "print".toList).step ' ')
  rw [Scan.ofText_blank rfl, hscan] at hfront
  have htext : ("print " ++ v.source ++ ";").toList =
      "print".toList ++ ' ' :: (v.source.toList ++ [';']) := by
    rw [String.toList_append, String.toList_append, List.append_assoc]
    rfl
  rw [← htext] at hfront
  let keyword : Token := ⟨.bare .kwPrint, "print", 1, 1⟩
  have hprint : Statement nearestIf false .closed (keyword :: [t] ++ [semicolon]) _ :=
    .print rfl hliteral hsemicolon
  have hscan : scan ("print " ++ v.source ++ ";") = ⟨keyword :: [t] ++ [semicolon] ++ [stop], []⟩ :=
    hfront
  exact ⟨keyword, Program.ofSource_of_derives hscan (.of_statement hprint)⟩

end Value.Plain

/-! ## Running them -/

/-- Printing the literal that a value is read back as prints the text of the value. -/
theorem Value.execute_print (v : Value) (host : Host) (fuel : Nat) (site : Site) (keyword : Token) :
    execute host (fuel + 2) site (.print keyword (.literal v.canonical)) =
      do Action.print keyword v; return .normal := by
  have hprint : Action.print keyword v.canonical = Action.print keyword v := by
    unfold Action.print
    rw [v.text_canonical]
  rw [← hprint]
  rfl

namespace Value.Plain

variable {v : Value}

theorem run_statement (h : v.Plain) (s : Session) (host : Host) (fuel : Nat) :
    s.run host (fuel + 2) (v.source ++ ";") =
      (⟨.completed, []⟩, { s with loaded := s.loaded + 1 }) := by
  have hprogram := h.ofSource_statement
  rw [s.run_of_clean host _ (by rw [hprogram]), hprogram]
  rfl

theorem run_print (h : v.Plain) (s : Session) (host : Host) (fuel : Nat) :
    (s.run host (fuel + 2) ("print " ++ v.source ++ ";")).2.machine =
      { s.machine with sink := (s.machine.sink.print v.text).2 } := by
  obtain ⟨keyword, hprogram⟩ := h.ofSource_print
  rw [s.run_of_clean host _ (by rw [hprogram]), hprogram, Session.machine_execute]
  have hexecute : (layer host (fuel + 2)).execute = execute host (fuel + 2) := rfl
  unfold Action.after Layer.sequence
  rw [Action.bind_apply, hexecute, v.execute_print, Action.bind_apply]
  unfold Action.print
  rcases s.machine.sink.print v.text with ⟨_ | fault, sink⟩ <;> rfl

end Value.Plain

/-- Printed values read back.  What is printed of a plain value is one token that writes the value,
and as a statement it is an expression that evaluates to the value everywhere, changes nothing, and
prints as the value does.  A zero loses its sign on the way, and is equal to the one it was. -/
theorem printed_values_read_back {v : Value} (h : v.Plain) :
    v.canonical.equals v = true ∧
      (∃ t stop, scan v.source = ⟨[t, stop], []⟩ ∧ t.literal? = some v.canonical ∧
        stop.kind = .eof) ∧
      Program.ofSource (v.source ++ ";") = ⟨[.expression (.literal v.canonical)], []⟩ ∧
      (∀ host fuel m, evaluate host (fuel + 1) (.literal v.canonical) m = .ok v.canonical m) ∧
      (∀ host fuel site keyword,
        execute host (fuel + 2) site (.print keyword (.literal v.canonical)) =
          do Action.print keyword v; return .normal) ∧
      ∀ (s : Session) host fuel,
        s.run host (fuel + 2) (v.source ++ ";") =
            (⟨.completed, []⟩, { s with loaded := s.loaded + 1 }) ∧
          (s.run host (fuel + 2) ("print " ++ v.source ++ ";")).2.machine =
            { s.machine with sink := (s.machine.sink.print v.text).2 } :=
  ⟨h.canonical_equals, h.scan_source, h.ofSource_statement, fun _ _ _ => rfl,
    fun host fuel site keyword => v.execute_print host fuel site keyword,
    fun s host fuel => ⟨h.run_statement s host fuel, h.run_print s host fuel⟩⟩

/-- The smallest number that is written in full, and a string that holds a comment and a line
end. -/
theorem printed_values_read_back_both :
    Value.source (.number 1e-6) = "0.000001" ∧ (Value.number 1e-6).Plain ∧
      Program.ofSource "0.000001;" = ⟨[.expression (.literal (.number 1e-6))], []⟩ ∧
      (Value.string "// é\n").Plain ∧
      Program.ofSource "\"// é\n\";" = ⟨[.expression (.literal (.string "// é\n"))], []⟩ := by
  have hnumber : (Value.number 1e-6).Plain := .positional (by decide +kernel) (by decide +kernel)
  have hstring : (Value.string "// é\n").Plain := .string (by decide)
  have hsource : Value.source (.number 1e-6) = "0.000001" := by decide +kernel
  have hcanonical : (Value.number 1e-6).canonical = .number 1e-6 :=
    congrArg Value.number (Value.Plain.unsignedZero_eq (by decide +kernel))
  have h := (printed_values_read_back hnumber).2.2.1
  rw [hsource, hcanonical] at h
  exact ⟨hsource, hnumber, h, hstring, (printed_values_read_back hstring).2.2.1⟩

end Lox
