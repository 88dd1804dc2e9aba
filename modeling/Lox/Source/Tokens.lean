import Lox.Diagnostic
import Lox.Source.Piece
import Lox.Source.Position

/-!
The tokens of a source text.

The text is cut into pieces from the front.  Each token is placed where its piece starts, faults
are recorded beside the tokens, and one token at the end marks where the text stops.
-/

namespace Lox

/-- The tokens of a text, ended by one of kind `eof`, and the faults of its spelling. -/
structure Scan where
  tokens : List Token
  errors : List ScanError

namespace Scan

/-- A text without pieces. -/
def atEnd (p : Position) : Scan := ⟨[⟨.bare .eof Kind.bare_eof, "", p.line, p.column⟩], []⟩

/-- Puts a piece in front, given the places where it starts and stops.  An unterminated string is
reported on the line where the text stops. -/
def addPiece (piece : Piece) (text : List Char) (start stop : Position) (s : Scan) : Scan :=
  match piece with
  | .layout => s
  | .token form =>
    { s with tokens := ⟨form, String.ofList text, start.line, start.column⟩ :: s.tokens }
  | .unexpected =>
    { s with errors := ⟨.unexpectedCharacter, start.line, start.column⟩ :: s.errors }
  | .unterminated =>
    { s with errors := ⟨.unterminatedString, stop.line, start.column⟩ :: s.errors }

/-- The tokens of a text that stands at `p`. -/
def ofText (p : Position) : List Char → Scan
  | [] => atEnd p
  | c :: rest =>
    let k := cut c rest
    let stop := p.advance k.text
    (ofText stop k.rest).addPiece k.piece k.text p stop
termination_by text => text.length
decreasing_by exact length_rest_cut_lt c rest

end Scan

/-- The tokens of a whole source text. -/
def scan (source : String) : Scan := .ofText .start source.toList

end Lox
