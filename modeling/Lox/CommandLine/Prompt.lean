import Lox.CommandLine.Transcript
import Lox.Session

/-!
The prompt: a session that runs what is typed, line by line.
-/

namespace Lox

/-- One line for each diagnostic. -/
def listing (diagnostics : List Diagnostic) : String :=
  diagnostics.foldr (fun d rest => d.text ++ "\n" ++ rest) ""

/-- What is said of bytes that are no text. -/
def notText : String := "stream did not contain valid UTF-8"

namespace Prompt

/-- What stands in front of each line. -/
def sign : String := "> "

/-- The byte that ends a line. -/
def newline : UInt8 := 10

/-- The byte that may stand in front of it. -/
def carriageReturn : UInt8 := 13

/-- Bytes cut behind every newline.  What follows the last newline is a piece if it is not empty. -/
def pieces : List UInt8 → List (List UInt8)
  | [] => []
  | b :: rest =>
    if b = newline then [b] :: pieces rest
    else
      match pieces rest with
      | [] => [[b]]
      | piece :: others => (b :: piece) :: others

/-- A piece without what ends it: a newline, with a carriage return in front of it or not. -/
def withoutEnd (piece : List UInt8) : List UInt8 :=
  match piece.reverse with
  | [] => []
  | last :: before =>
    if last = newline then
      match before with
      | [] => []
      | b :: text => if b = carriageReturn then text.reverse else before.reverse
    else piece

/-- The lines of an input. -/
def lines (input : List UInt8) : List (List UInt8) := (pieces input).map withoutEnd

/-- The text of a line, if its bytes encode one. -/
def decode? (line : List UInt8) : Option String := String.fromUTF8? ⟨line.toArray⟩

/-- Runs a line and gives what it wrote. -/
def feed (s : Session) (host : Host) (fuel : Nat) (line : String) : Transcript × Session :=
  let (report, s) := s.run host fuel line
  let (output, s) := s.drain
  (⟨output, listing report.diagnostics⟩, s)

/-- Runs lines in order.  The sign is written before each line is looked for, so it stands in front
of the end of the input too; a line that is no text ends the session. -/
def converse (s : Session) (host : Host) (fuel : Nat) : List (List UInt8) → Transcript
  | [] => ⟨sign, ""⟩
  | line :: rest =>
    match decode? line with
    | none => ⟨sign, notText ++ "\n"⟩
    | some text =>
      let (written, s) := feed s host fuel text
      ⟨sign, ""⟩ ++ written ++ converse s host fuel rest

end Prompt

end Lox
