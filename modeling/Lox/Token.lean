/-!
Tokens: the words of the language, each with the place where it was written.

A token's kind decides how it parses, its form adds the payload that a literal carries, and its
lexeme and place serve messages and listings only.
-/

namespace Lox

/-- The kinds of token.  The order of the constructors is the order in which the kinds are
listed. -/
inductive Kind where
  | leftParen | rightParen | leftBrace | rightBrace
  | comma | dot | minus | plus | semicolon | slash | star
  | bang | bangEqual | equal | equalEqual | greater | greaterEqual | less | lessEqual
  | identifier | string | number
  | kwAnd | kwClass | kwElse | kwFalse | kwFun | kwFor | kwIf | kwNil | kwOr
  | kwPrint | kwReturn | kwSuper | kwThis | kwTrue | kwVar | kwWhile
  | eof
deriving DecidableEq, Repr, Inhabited

namespace Kind

/-- The name under which a kind is shown. -/
def name : Kind → String
  | leftParen => "LeftParen"
  | rightParen => "RightParen"
  | leftBrace => "LeftBrace"
  | rightBrace => "RightBrace"
  | comma => "Comma"
  | dot => "Dot"
  | minus => "Minus"
  | plus => "Plus"
  | semicolon => "Semicolon"
  | slash => "Slash"
  | star => "Star"
  | bang => "Bang"
  | bangEqual => "BangEqual"
  | equal => "Equal"
  | equalEqual => "EqualEqual"
  | greater => "Greater"
  | greaterEqual => "GreaterEqual"
  | less => "Less"
  | lessEqual => "LessEqual"
  | identifier => "Identifier"
  | string => "String"
  | number => "Number"
  | kwAnd => "And"
  | kwClass => "Class"
  | kwElse => "Else"
  | kwFalse => "False"
  | kwFun => "Fun"
  | kwFor => "For"
  | kwIf => "If"
  | kwNil => "Nil"
  | kwOr => "Or"
  | kwPrint => "Print"
  | kwReturn => "Return"
  | kwSuper => "Super"
  | kwThis => "This"
  | kwTrue => "True"
  | kwVar => "Var"
  | kwWhile => "While"
  | eof => "EOF"

/-- All kinds, in order. -/
def all : List Kind :=
  [leftParen, rightParen, leftBrace, rightBrace,
   comma, dot, minus, plus, semicolon, slash, star,
   bang, bangEqual, equal, equalEqual, greater, greaterEqual, less, lessEqual,
   identifier, string, number,
   kwAnd, kwClass, kwElse, kwFalse, kwFun, kwFor, kwIf, kwNil, kwOr,
   kwPrint, kwReturn, kwSuper, kwThis, kwTrue, kwVar, kwWhile, eof]

/-- The kind shown under `name`, if there is one. -/
def ofName? (name : String) : Option Kind :=
  all.find? fun kind => kind.name == name

/-- A kind is bare when its tokens carry no payload. -/
def Bare (kind : Kind) : Prop := kind ≠ string ∧ kind ≠ number

instance (kind : Kind) : Decidable kind.Bare := inferInstanceAs (Decidable (_ ∧ _))

theorem bare_eof : eof.Bare := by decide

end Kind

/-- What a token says apart from its spelling and place: its kind, with the text of a string
literal and the value of a number literal. -/
inductive Form where
  | bare (kind : Kind) (isBare : kind.Bare := by decide)
  | string (text : String)
  | number (value : Float)

namespace Form

def kind : Form → Kind
  | bare kind _ => kind
  | string _ => .string
  | number _ => .number

/-- Numbers compare as doubles, so a form that holds NaN differs from itself. -/
def equals : Form → Form → Bool
  | bare k _, bare l _ => k == l
  | string s, string t => s == t
  | number x, number y => x == y
  | _, _ => false

instance : BEq Form := ⟨equals⟩

instance : Inhabited Form := ⟨bare .eof Kind.bare_eof⟩

end Form

/-- A token at the line and column where its first character stands. -/
structure Token where
  form : Form
  lexeme : String
  line : Nat
  column : Nat
deriving BEq, Inhabited

namespace Token

def kind (t : Token) : Kind := t.form.kind

/-- One line that shows kind, spelling and place. -/
def display (t : Token) : String :=
  t.kind.name ++ " '" ++ t.lexeme ++ "' " ++ toString t.line ++ ":" ++ toString t.column

end Token

end Lox
