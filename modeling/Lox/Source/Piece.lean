import Lox.Token
import Lox.Decimal.Literal

/-!
The lexical grammar: how one piece is cut off the front of a text.

A piece is a token, something to skip, or a fault.  Every cut takes at least one character and
loses none, which is what makes cutting a whole text terminate.
-/

namespace Lox

/-- What a piece of text turns out to be. -/
inductive Piece where
  /-- A blank character, or a comment up to the end of its line. -/
  | layout
  | token (form : Form)
  /-- A character that starts nothing. -/
  | unexpected
  /-- An opening quote that no later quote closes. -/
  | unterminated

/-- A piece, the text it was cut from, and the text behind it. -/
structure Cut where
  piece : Piece
  text : List Char
  rest : List Char

/-- The reserved words with the kinds of their tokens. -/
def reserved : List (String × Kind) :=
  [("and", .kwAnd), ("class", .kwClass), ("else", .kwElse), ("false", .kwFalse),
   ("for", .kwFor), ("fun", .kwFun), ("if", .kwIf), ("nil", .kwNil), ("or", .kwOr),
   ("print", .kwPrint), ("return", .kwReturn), ("super", .kwSuper), ("this", .kwThis),
   ("true", .kwTrue), ("var", .kwVar), ("while", .kwWhile)]

/-- The kind of a word: a reserved word has its own, every other word is an identifier. -/
def wordKind (word : String) : Kind :=
  (reserved.lookup word).getD .identifier

/-- A word starts with a letter of the ASCII alphabet or an underscore. -/
def startsWord (c : Char) : Bool := c.isAlpha || c == '_'

/-- A word goes on with letters, digits and underscores. -/
def continuesWord (c : Char) : Bool := c.isAlphanum || c == '_'

/-- Blank characters separate tokens and mean nothing else. -/
def isBlank (c : Char) : Bool := c == ' ' || c == '\t' || c == '\r' || c == '\n'

theorem wordKind_bare (word : String) : (wordKind word).Bare := by
  unfold wordKind
  cases h : reserved.lookup word with
  | none => exact ⟨by decide, by decide⟩
  | some kind =>
    have listed : ∀ entry ∈ reserved, entry.2.Bare := by decide
    have mem : (word, kind) ∈ reserved := by
      obtain ⟨before, after, split, _⟩ := List.lookup_eq_some_iff.1 h
      simp [split]
    exact listed _ mem

/-- A token of one character. -/
def Cut.single (c : Char) (kind : Kind) (rest : List Char) (bare : kind.Bare := by decide) : Cut :=
  ⟨.token (.bare kind bare), [c], rest⟩

/-- An operator that an equals sign makes longer. -/
def Cut.extensible (c : Char) (short long : Kind) (rest : List Char)
    (bare : short.Bare ∧ long.Bare := by decide) : Cut :=
  match rest with
  | '=' :: rest => ⟨.token (.bare long bare.2), [c, '='], rest⟩
  | rest => .single c short rest bare.1

/-- Two slashes start a comment, which leaves the newline that ends it. -/
def Cut.slash (rest : List Char) : Cut :=
  match rest with
  | '/' :: _ => ⟨.layout, '/' :: rest.takeWhile (· ≠ '\n'), rest.dropWhile (· ≠ '\n')⟩
  | rest => .single '/' .slash rest

/-- A string literal runs to the next quote, over line ends too. -/
def Cut.quoted (rest : List Char) : Cut :=
  let text := rest.takeWhile (· ≠ '"')
  match rest.dropWhile (· ≠ '"') with
  | [] => ⟨.unterminated, '"' :: rest, []⟩
  | quote :: rest => ⟨.token (.string (String.ofList text)), '"' :: text ++ [quote], rest⟩

/-- A number literal is a run of digits, with a fraction if a digit follows the point. -/
def Cut.digits (c : Char) (rest : List Char) : Cut :=
  let whole := c :: rest.takeWhile Char.isDigit
  let rest := rest.dropWhile Char.isDigit
  let integer : Cut := ⟨.token (.number (Decimal.read whole [])), whole, rest⟩
  match rest with
  | '.' :: d :: more =>
    if d.isDigit then
      let fraction := d :: more.takeWhile Char.isDigit
      ⟨.token (.number (Decimal.read whole fraction)), whole ++ '.' :: fraction,
        more.dropWhile Char.isDigit⟩
    else integer
  | _ => integer

/-- A word is taken whole before it is looked up, so `orchid` does not start with `or`. -/
def Cut.word (c : Char) (rest : List Char) : Cut :=
  let word := c :: rest.takeWhile continuesWord
  ⟨.token (.bare (wordKind (String.ofList word)) (wordKind_bare _)), word,
    rest.dropWhile continuesWord⟩

/-- The piece at the front of a text that starts with `c`. -/
def cut (c : Char) (rest : List Char) : Cut :=
  match c with
  | '(' => .single c .leftParen rest
  | ')' => .single c .rightParen rest
  | '\x7b' => .single c .leftBrace rest
  | '\x7d' => .single c .rightBrace rest
  | ',' => .single c .comma rest
  | '.' => .single c .dot rest
  | '-' => .single c .minus rest
  | '+' => .single c .plus rest
  | ';' => .single c .semicolon rest
  | '*' => .single c .star rest
  | '!' => .extensible c .bang .bangEqual rest
  | '=' => .extensible c .equal .equalEqual rest
  | '<' => .extensible c .less .lessEqual rest
  | '>' => .extensible c .greater .greaterEqual rest
  | '/' => .slash rest
  | '"' => .quoted rest
  | c =>
    if isBlank c then ⟨.layout, [c], rest⟩
    else if c.isDigit then .digits c rest
    else if startsWord c then .word c rest
    else ⟨.unexpected, [c], rest⟩

/-- A cut covers a text when it loses nothing of it and takes at least one character. -/
def Cut.Covers (k : Cut) (source : List Char) : Prop :=
  k.text ≠ [] ∧ k.text ++ k.rest = source

namespace Cut.Covers

theorem single (c : Char) (kind : Kind) (rest : List Char) (bare : kind.Bare) :
    (Cut.single c kind rest bare).Covers (c :: rest) :=
  ⟨List.cons_ne_nil _ _, rfl⟩

theorem extensible (c : Char) (short long : Kind) (rest : List Char)
    (bare : short.Bare ∧ long.Bare) :
    (Cut.extensible c short long rest bare).Covers (c :: rest) := by
  unfold Cut.extensible
  split
  · exact ⟨List.cons_ne_nil _ _, rfl⟩
  · exact single c short _ bare.1

theorem slash (rest : List Char) : (Cut.slash rest).Covers ('/' :: rest) := by
  unfold Cut.slash
  split
  · exact ⟨List.cons_ne_nil _ _, by
      simp only [List.cons_append, List.takeWhile_append_dropWhile]⟩
  · exact single '/' .slash _ _

theorem quoted (rest : List Char) : (Cut.quoted rest).Covers ('"' :: rest) := by
  unfold Cut.quoted
  split
  · exact ⟨List.cons_ne_nil _ _, by simp only [List.append_nil]⟩
  · rename_i quote more ended
    refine ⟨List.cons_ne_nil _ _, ?_⟩
    have whole := List.takeWhile_append_dropWhile (p := (· ≠ '"')) (l := rest)
    rw [ended] at whole
    simp only [List.cons_append, List.append_assoc, List.nil_append, whole]

theorem digits (c : Char) (rest : List Char) : (Cut.digits c rest).Covers (c :: rest) := by
  have whole := List.takeWhile_append_dropWhile (p := Char.isDigit) (l := rest)
  unfold Cut.digits
  dsimp only
  split
  · rename_i d more pointed
    rw [pointed] at whole
    split
    · refine ⟨List.cons_ne_nil _ _, ?_⟩
      simp only [List.cons_append, List.append_assoc, List.takeWhile_append_dropWhile, whole]
    · exact ⟨List.cons_ne_nil _ _, by rw [List.cons_append, pointed, whole]⟩
  · exact ⟨List.cons_ne_nil _ _, by rw [List.cons_append, whole]⟩

theorem word (c : Char) (rest : List Char) : (Cut.word c rest).Covers (c :: rest) :=
  ⟨List.cons_ne_nil _ _, by
    simp only [Cut.word, List.cons_append, List.takeWhile_append_dropWhile]⟩

end Cut.Covers

theorem cut_covers (c : Char) (rest : List Char) : (cut c rest).Covers (c :: rest) := by
  unfold cut
  split
  case h_17 =>
    split
    · exact ⟨List.cons_ne_nil _ _, rfl⟩
    · split
      · exact .digits _ _
      · split
        · exact .word _ _
        · exact ⟨List.cons_ne_nil _ _, rfl⟩
  case h_15 => exact .slash _
  case h_16 => exact .quoted _
  case h_11 | h_12 | h_13 | h_14 => exact .extensible _ _ _ _ _
  all_goals exact .single _ _ _ _

/-- A cut leaves less than it was given. -/
theorem length_rest_cut_lt (c : Char) (rest : List Char) :
    (cut c rest).rest.length < (c :: rest).length := by
  obtain ⟨nonempty, whole⟩ := cut_covers c rest
  have lengths := congrArg List.length whole
  rw [List.length_append] at lengths
  have := List.length_pos_iff.2 nonempty
  omega

end Lox
