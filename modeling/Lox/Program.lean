import Lox.Grammar.Statement
import Lox.Source.Tokens

/-!
Programs read from tokens and from source texts.
-/

namespace Lox

/-- The statements that could be read, and the faults of the rest in the order they were found. -/
structure Parse where
  statements : List Stmt
  errors : List ParseError

/-- Reads the tokens in front of the first one of kind `eof`. -/
def parse (tokens : List Token) : Parse :=
  let body := tokens.takeWhile (·.kind != .eof)
  let stop := (tokens.dropWhile (·.kind != .eof)).headD default
  let program := Parser.declarations (· == .eof) (Parser.declaration body.length) body.length
  match program ⟨body, stop, 0, []⟩ with
  | .ok statements s => ⟨statements, s.errors⟩
  | .error e s => ⟨[], s.errors ++ [e]⟩

/-- A source text as far as it could be understood. -/
structure Program where
  statements : List Stmt
  diagnostics : List Diagnostic

/-- Reads a source text.  Faults of spelling are reported in front of those of grammar. -/
def Program.ofSource (source : String) : Program :=
  let scanned := scan source
  let parsed := parse scanned.tokens
  { statements := parsed.statements
    diagnostics :=
      scanned.errors.map ScanError.diagnostic ++ parsed.errors.map ParseError.diagnostic }

end Lox
