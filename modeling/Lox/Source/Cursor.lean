import Lox.Source.Tokens

/-!
Scanning with byte offsets.

A cursor walks over a text and keeps the offsets of three places in it: where it stands, where the
piece at hand starts, and where the line at hand starts.  Lexemes are cut out of the text by their
offsets, and columns are differences of offsets.  A difference below zero, or a cut that goes beyond
the text or through a character, gives no result at all.
-/

namespace Lox

/-- The size of a text in UTF-8. -/
def bytes : List Char → Nat
  | [] => 0
  | c :: text => c.utf8Size + bytes text

def sub? (a b : Nat) : Option Nat := if b ≤ a then some (a - b) else none

/-- What stands behind the first bytes of a text, if a character ends there. -/
def dropBytes? : List Char → Nat → Option (List Char)
  | text, 0 => some text
  | [], _ + 1 => none
  | c :: text, n + 1 =>
    if c.utf8Size ≤ n + 1 then dropBytes? text (n + 1 - c.utf8Size) else none

/-- The first bytes of a text, if a character ends there. -/
def takeBytes? : List Char → Nat → Option (List Char)
  | _, 0 => some []
  | [], _ + 1 => none
  | c :: text, n + 1 =>
    if c.utf8Size ≤ n + 1 then (takeBytes? text (n + 1 - c.utf8Size)).map (c :: ·) else none

/-- The text between two offsets. -/
def slice? (text : List Char) (start stop : Nat) : Option (List Char) := do
  let size ← sub? stop start
  takeBytes? (← dropBytes? text start) size

structure Cursor where
  source : List Char
  /-- What is still ahead, from the offset on. -/
  rest : List Char
  offset : Nat
  start : Nat
  line : Nat
  lineStart : Nat
  startColumn : Nat
  errors : List ScanError

namespace Cursor

def ofSource (source : List Char) : Cursor := ⟨source, source, 0, 0, 1, 0, 1, []⟩

/-- The offset of what is ahead.  Behind the last character that is the size of the text. -/
def current (s : Cursor) : Nat :=
  match s.rest with
  | [] => bytes s.source
  | _ :: _ => s.offset

/-! ## Moving on -/

/-- Leaves `c` behind, with `rest` ahead. -/
def pass (s : Cursor) (c : Char) (rest : List Char) : Cursor :=
  { s with rest, offset := s.offset + c.utf8Size }

/-- Starts a new line at what is ahead. -/
def newline (s : Cursor) : Cursor := { s with line := s.line + 1, lineStart := s.current }

def nextIf (s : Cursor) (expected : Char) : Bool × Cursor :=
  match s.rest with
  | [] => (false, s)
  | c :: rest => if c = expected then (true, s.pass c rest) else (false, s)

/-- Passes the characters of a text up to the first one that does not satisfy `p`. -/
def passWhile (p : Char → Bool) (s : Cursor) : List Char → Cursor
  | [] => s
  | c :: rest => if p c then (s.pass c rest).passWhile p rest else s

def nextWhile (s : Cursor) (p : Char → Bool) : Cursor := s.passWhile p s.rest

/-- Passes the characters of a text up to the first quote, and counts the lines that start on the
way. -/
def passString (s : Cursor) : List Char → Cursor
  | [] => s
  | c :: rest =>
    if c = '"' then s
    else if c = '\n' then (s.pass c rest).newline.passString rest
    else (s.pass c rest).passString rest

/-! ## Pieces -/

/-- The text of the piece at hand. -/
def lexeme (s : Cursor) : Option (List Char) := slice? s.source s.start s.current

def token (s : Cursor) (form : Form) : Option (Option Token × Cursor) := do
  let text ← s.lexeme
  return (some ⟨form, String.ofList text, s.line, s.startColumn⟩, s)

def error (s : Cursor) (fault : ScanFault) : Cursor :=
  { s with errors := s.errors ++ [⟨fault, s.line, s.startColumn⟩] }

def single (s : Cursor) (kind : Kind) (bare : decide kind.Bare = true := by decide) :
    Option (Option Token × Cursor) :=
  s.token (.bare kind (of_decide_eq_true bare))

def either (s : Cursor) (short long : Kind)
    (bare : decide short.Bare = true ∧ decide long.Bare = true := by decide) :
    Option (Option Token × Cursor) :=
  match s.nextIf '=' with
  | (true, s) => s.single long bare.2
  | (false, s) => s.single short bare.1

def slash (s : Cursor) : Option (Option Token × Cursor) :=
  match s.nextIf '/' with
  | (true, s) => some (none, s.nextWhile (· ≠ '\n'))
  | (false, s) => s.single .slash

/-- A string is placed where it starts.  One without an end is reported where the text stops. -/
def string (s : Cursor) : Option (Option Token × Cursor) :=
  let line := s.line
  let column := s.startColumn
  match (s.passString s.rest).nextIf '"' with
  | (true, s) => do
    let value ← slice? s.source (s.start + 1) (← sub? s.current 1)
    let text ← s.lexeme
    return (some ⟨.string (String.ofList value), String.ofList text, line, column⟩, s)
  | (false, s) => some (none, s.error .unterminatedString)

/-- Goes on behind a point if a digit follows it. -/
def fraction (s : Cursor) : Cursor :=
  match s.rest with
  | '.' :: d :: rest =>
    if d.isDigit then (s.pass '.' (d :: rest)).nextWhile Char.isDigit else s
  | _ => s

def number (s : Cursor) : Option (Option Token × Cursor) := do
  let s := (s.nextWhile Char.isDigit).fraction
  let text ← s.lexeme
  let value := Decimal.read (text.takeWhile (· ≠ '.')) ((text.dropWhile (· ≠ '.')).drop 1)
  s.token (.number value)

def word (s : Cursor) : Option (Option Token × Cursor) := do
  let s := s.nextWhile continuesWord
  let text ← s.lexeme
  s.token (.bare (wordKind (String.ofList text)) (wordKind_bare _))

/-- Passes one piece and gives its token, if it is one. -/
def piece (s : Cursor) : Option (Option Token × Cursor) :=
  match s.rest with
  | [] => some (none, s)
  | c :: rest =>
    let s := s.pass c rest
    match c with
    | '(' => s.single .leftParen
    | ')' => s.single .rightParen
    | '\x7b' => s.single .leftBrace
    | '\x7d' => s.single .rightBrace
    | ',' => s.single .comma
    | '.' => s.single .dot
    | '-' => s.single .minus
    | '+' => s.single .plus
    | ';' => s.single .semicolon
    | '*' => s.single .star
    | '!' => s.either .bang .bangEqual
    | '=' => s.either .equal .equalEqual
    | '<' => s.either .less .lessEqual
    | '>' => s.either .greater .greaterEqual
    | '/' => s.slash
    | '"' => s.string
    | c =>
      if c = '\n' then some (none, s.newline)
      else if isBlank c then some (none, s)
      else if c.isDigit then s.number
      else if startsWord c then s.word
      else some (none, s.error .unexpectedCharacter)

/-! ## The whole text -/

/-- The tokens of at most so many pieces, all of which have to be enough. -/
def pieces : Nat → Cursor → Option (List Token × Cursor)
  | fuel, s =>
    match s.rest, fuel with
    | [], _ => some ([], s)
    | _ :: _, 0 => none
    | _ :: _, n + 1 => do
      let column ← sub? s.offset s.lineStart
      let (token, s) ← { s with start := s.offset, startColumn := column + 1 }.piece
      let (tokens, s) ← pieces n s
      return (token.toList ++ tokens, s)

/-- The tokens of a text.  There are no more pieces than characters. -/
def run (source : String) : Option Scan := do
  let text := source.toList
  let (tokens, s) ← (ofSource text).pieces text.length
  let column ← sub? (bytes text) s.lineStart
  return ⟨tokens ++ [⟨.bare .eof Kind.bare_eof, "", s.line, column + 1⟩], s.errors⟩

end Cursor
end Lox
