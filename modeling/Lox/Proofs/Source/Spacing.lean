import Mathlib
import Lox.Proofs.Source.Lexemes

/-!
Words at a distance.

No piece that is longer than a word begins with that word and goes on with a blank character, or
with another one that only strings and comments go on with.  So what a word is does not depend on
the words around it: with blanks and comments in between, the words of a source can be moved apart
and together, and they are read as before.
-/

namespace Lox

/-! ## Characters that end words -/

/-- Whether a character is in no piece but strings and comments, unless it stands there alone. -/
structure Separates (b : Char) : Prop where
  digit : ¬IsDigit b
  letter : ¬IsLetter b
  point : b ≠ '.'
  slash : b ≠ '/'
  sign : ∀ entry ∈ signs, b ∈ entry.1 → entry.1 = [b]

theorem separates_of_blank {b : Char} (h : isBlank b = true) : Separates b := by
  rw [isBlank_iff] at h
  simp only [List.mem_cons, List.not_mem_nil, or_false] at h
  rcases h with rfl | rfl | rfl | rfl <;>
    exact ⟨by simp [IsDigit], by simp [IsLetter], by decide, by decide, by simp [signs]⟩

theorem separates_semicolon : Separates ';' :=
  ⟨by simp [IsDigit], by simp [IsLetter], by decide, by decide, by simp [signs]⟩

namespace Lexeme

variable {form : Form} {word more : List Char} {b : Char}

/-- Pieces with such a character in them are strings and comments, and that character itself. -/
theorem cases_of_separates {piece : Piece} {text : List Char} (h : Lexeme piece text) (hb : b ∈ text)
    (hseparates : Separates b) : (∃ body, '"' ∉ body ∧ text = '"' :: body ++ ['"']) ∨
      text = [b] ∨ ∃ body, text = '/' :: '/' :: body := by
  have hdigits : ∀ {ds : List Char}, Digits ds → b ∉ ds :=
    fun hds hb => hseparates.digit (hds.2 b hb)
  cases h with
  | sign bare hmem => exact .inr (.inl (hseparates.sign _ hmem hb))
  | integer hwhole => exact absurd hb (hdigits hwhole)
  | fraction hwhole hfraction =>
    rcases List.mem_append.mp hb with hb | hb
    · exact absurd hb (hdigits hwhole)
    · rcases List.mem_cons.mp hb with rfl | hb
      · exact absurd rfl hseparates.point
      · exact absurd hb (hdigits hfraction)
  | keyword _ h | identifier _ h =>
    obtain ⟨c, rest, rfl, hc, hrest⟩ := h
    rcases List.mem_cons.mp hb with rfl | hb
    · exact absurd hc hseparates.letter
    · exact ((hrest b hb).elim hseparates.letter hseparates.digit).elim
  | string hbody => exact .inl ⟨_, hbody, rfl⟩
  | blank => exact .inr (.inl (congrArg (fun d => [d]) (List.mem_singleton.mp hb).symm))
  | comment => exact .inr (.inr ⟨_, rfl⟩)

/-- A token that begins with neither a digit nor a letter is a sign or a string. -/
theorem sign_or_string {c : Char} (h : Lexeme (.token form) (c :: word)) (hdigit : ¬IsDigit c)
    (hletter : ¬IsLetter c) : (∃ kind, (c :: word, kind) ∈ signs) ∨
      ∃ body, '"' ∉ body ∧ c :: word = '"' :: body ++ ['"'] := by
  generalize htext : c :: word = text at h
  cases h with
  | sign _ hmem => exact .inl ⟨_, hmem⟩
  | integer h =>
    subst htext
    exact absurd (h.2 c List.mem_cons_self) hdigit
  | fraction h =>
    obtain ⟨d, whole, rfl⟩ := List.exists_cons_of_ne_nil h.1
    cases htext
    exact absurd (h.2 c List.mem_cons_self) hdigit
  | keyword _ h | identifier _ h =>
    obtain ⟨d, rest, rfl, hd, -⟩ := h
    cases htext
    exact absurd hd hletter
  | string hbody => exact .inr ⟨_, hbody, rfl⟩

/-- No piece goes on behind a token with such a character. -/
theorem not_append (h : Lexeme (.token form) word) (hb : Separates b) (piece : Piece) :
    ¬Lexeme piece (word ++ b :: more) := by
  intro hlong
  obtain ⟨c, rest, rfl⟩ := List.exists_cons_of_ne_nil h.ne_nil
  rcases hlong.cases_of_separates (List.mem_append_right _ List.mem_cons_self) hb with
    ⟨body, hbody, htext⟩ | htext | ⟨body, htext⟩
  · -- The token begins with a quote as well, so it is a string that has ended by then.
    obtain ⟨rfl, hrest⟩ := List.cons.inj htext
    rcases h.sign_or_string (by simp [IsDigit]) (by simp [IsLetter]) with ⟨kind, hsign⟩ | h
    · simp [signs] at hsign
    · obtain ⟨inner, -, hinner⟩ := h
      obtain ⟨-, rfl⟩ := List.cons.inj hinner
      have hbodies : (inner ++ ['"'] ++ b :: more).dropLast = (body ++ ['"']).dropLast :=
        congrArg List.dropLast hrest
      rw [List.dropLast_concat, List.dropLast_append_of_ne_nil (List.cons_ne_nil b more)] at hbodies
      exact hbody (hbodies ▸ by simp)
  · simp at htext
  · -- The token begins with a slash, which is followed by another one in a comment.
    obtain ⟨rfl, hrest⟩ := List.cons.inj htext
    rcases h.sign_or_string (by simp [IsDigit]) (by simp [IsLetter]) with ⟨kind, hsign⟩ | h
    · obtain ⟨rfl, -⟩ : rest = [] ∧ kind = .slash := by simpa [signs] using hsign
      exact absurd (List.cons.inj hrest).1 hb.slash
    · obtain ⟨inner, -, hinner⟩ := h
      cases hinner

end Lexeme

/-! ## Scanning words and what is between them -/

/-- Whether a text keeps what is in front of it apart from the rest: it is empty or begins with a
blank character. -/
def Apart (more : List Char) : Prop := ∀ b ∈ more.head?, isBlank b = true

theorem Apart.separates {more : List Char} (h : Apart more) : ∀ b ∈ more.head?, Separates b :=
  fun b hb => separates_of_blank (h b hb)

/-- A token is cut off as it is, if nothing follows or a character that separates. -/
theorem cut_token {form : Form} {word more : List Char} {c : Char} {rest : List Char}
    (h : Lexeme (.token form) word) (hmore : ∀ b ∈ more.head?, Separates b)
    (htext : word ++ more = c :: rest) :
    cut c rest = ⟨.token form, word, more⟩ := by
  have hbeats := cut_beats h ⟨more, htext⟩
  have hcover := (cut_covers c rest).2
  generalize cut c rest = k at hbeats hcover ⊢
  obtain ⟨piece, text, after⟩ := k
  rw [← htext] at hcover
  rcases hbeats.longer with hlt | ⟨rfl, rfl⟩
  · -- A longer piece would go on with the character that follows.
    obtain ⟨longer, rfl⟩ := List.prefix_of_prefix_length_le ⟨more, rfl⟩ ⟨after, hcover⟩
      (Nat.le_of_lt hlt)
    cases longer with
    | nil => simp at hlt
    | cons b longer =>
      rw [List.append_assoc] at hcover
      obtain rfl : b :: longer ++ after = more := List.append_cancel_left hcover
      exact absurd hbeats.lexeme (h.not_append (hmore b rfl) _)
  · obtain rfl : after = more := List.append_cancel_left hcover
    rfl

namespace Scan

theorem ofText_token {form : Form} {word more : List Char} (h : Lexeme (.token form) word)
    (hmore : ∀ b ∈ more.head?, Separates b) (p : Position) : ofText p (word ++ more) =
      (ofText (p.advance word) more).addPiece (.token form) word p (p.advance word) := by
  have hne : word ++ more ≠ [] := List.append_ne_nil_of_left_ne_nil h.ne_nil more
  obtain ⟨c, rest, htext⟩ := List.exists_cons_of_ne_nil hne
  rw [htext, ofText, cut_token h hmore htext]

theorem ofText_end {form : Form} {word : List Char} (h : Lexeme (.token form) word)
    (p : Position) : ∃ stop : Token, stop.kind = .eof ∧
      ofText p word = ⟨[⟨form, String.ofList word, p.line, p.column⟩, stop], []⟩ := by
  have hnothing : ∀ b ∈ ([] : List Char).head?, Separates b := fun b hb => by cases hb
  have hscan := ofText_token h hnothing p
  rw [List.append_nil, ofText] at hscan
  exact ⟨_, rfl, hscan⟩

theorem ofText_blank {c : Char} (hc : isBlank c = true) (more : List Char) (p : Position) :
    ofText p (c :: more) = ofText (p.step c) more := by
  rw [ofText, cut_of_blank hc]
  rfl

theorem ofText_comment {text : List Char} (htext : '\n' ∉ text) (more : List Char)
    (p : Position) : ofText p ('/' :: '/' :: text ++ '\n' :: more) =
      ofText (p.advance ('/' :: '/' :: text)) ('\n' :: more) := by
  have hline : ∀ d ∈ text, decide (d ≠ '\n') = true :=
    fun d hd => decide_eq_true fun h => htext (h ▸ hd)
  have hcut : cut '/' ('/' :: (text ++ '\n' :: more)) =
      ⟨.layout, '/' :: '/' :: text, '\n' :: more⟩ := by
    have hslash : cut '/' ('/' :: (text ++ '\n' :: more)) =
        Cut.slash ('/' :: (text ++ '\n' :: more)) := rfl
    rw [hslash, Cut.slash_slash, List.takeWhile_append_of_pos hline,
      List.dropWhile_append_of_pos hline, List.takeWhile_cons_of_neg (by decide),
      List.dropWhile_cons_of_neg (by decide), List.append_nil]
  rw [List.cons_append, List.cons_append, ofText, hcut]
  rfl

end Scan

/-- Blank characters, and comments with the newline that ends each. -/
inductive Padding : List Char → Prop
  | nil : Padding []
  | blank {c : Char} {more : List Char} : isBlank c = true → Padding more → Padding (c :: more)
  | comment {text more : List Char} : '\n' ∉ text → Padding more →
      Padding ('/' :: '/' :: text ++ '\n' :: more)

/-- What may stand between two words.  The first character is blank, and so is the one in front of
every comment. -/
inductive Gap : List Char → Prop
  | mk {c : Char} {more : List Char} : isBlank c = true → Padding more → Gap (c :: more)

theorem Gap.apart {gap : List Char} (h : Gap gap) (more : List Char) : Apart (gap ++ more) := by
  obtain ⟨hc, -⟩ := h
  rintro b hb
  cases hb
  exact hc

namespace Scan

theorem ofText_padding {padding : List Char} (h : Padding padding) (more : List Char)
    (p : Position) : ofText p (padding ++ more) = ofText (p.advance padding) more := by
  induction h generalizing p with
  | nil => rfl
  | blank hc _ ih =>
    rw [List.cons_append, ofText_blank hc, ih]
    rfl
  | @comment text rest htext _ ih =>
    rw [List.append_assoc]
    show ofText p ('/' :: '/' :: text ++ '\n' :: (rest ++ more)) = _
    rw [ofText_comment htext, ofText_blank (by decide), ih, Position.advance_append]
    rfl

theorem ofText_gap {gap : List Char} (h : Gap gap) (more : List Char) (p : Position) :
    ofText p (gap ++ more) = ofText (p.advance gap) more := by
  cases h with
  | mk hc hpadding => exact ofText_padding (.blank hc hpadding) more p

end Scan

/-! ## Spaced words -/

/-- Texts in which the given tokens are spelled one behind the other, with a gap between any
two. -/
inductive Spaced : List Token → List Char → Prop
  | none : Spaced [] []
  | one (t : Token) : Spaced [t] t.lexeme.toList
  | more {t u : Token} {ts : List Token} {gap text : List Char} : Gap gap →
      Spaced (u :: ts) text → Spaced (t :: u :: ts) (t.lexeme.toList ++ gap ++ text)

namespace Scan

/-- Whether a scan has the given words, in this order, and no faults. -/
structure Reads (words : List Token) (s : Scan) : Prop where
  errors : s.errors = []
  tokens : ∃ others stop, s.tokens = others ++ [stop] ∧ stop.kind = .eof ∧
    others.map (fun t => (t.form, t.lexeme)) = words.map fun t => (t.form, t.lexeme)

theorem Reads.addToken {words : List Token} {s : Scan} (h : s.Reads words) (t : Token)
    (start stop : Position) :
    (s.addPiece (.token t.form) t.lexeme.toList start stop).Reads (t :: words) := by
  obtain ⟨others, last, htokens, hlast, hwords⟩ := h.tokens
  refine ⟨h.errors, _ :: others, last, congrArg (List.cons _) htokens, hlast, ?_⟩
  rw [List.map_cons, hwords, List.map_cons, String.ofList_toList]

/-- Spaced words are read one by one. -/
theorem reads_of_spaced {words : List Token} {text : List Char} (h : Spaced words text)
    (hwords : ∀ t ∈ words, Lexeme (.token t.form) t.lexeme.toList) (p : Position) :
    (ofText p text).Reads words := by
  induction h generalizing p with
  | none =>
    rw [ofText]
    exact ⟨rfl, [], _, rfl, rfl, rfl⟩
  | one t =>
    obtain ⟨stop, hstop, hscan⟩ := ofText_end (hwords t List.mem_cons_self) p
    rw [hscan]
    exact ⟨rfl, [_], stop, rfl, hstop, by simp only [List.map_singleton, String.ofList_toList]⟩
  | @more t u ts gap text hgap _ ih =>
    obtain ⟨hlexeme, hwords⟩ := List.forall_mem_cons.mp hwords
    rw [List.append_assoc, ofText_token hlexeme (hgap.apart text).separates, ofText_gap hgap]
    exact (ih hwords _).addToken t _ _

end Scan

/-- The words of a source can be moved apart and together.  With whatever gaps they are written
again, they are read as the same words, and nothing else is found, not even a fault that was found
between them before. -/
theorem words_at_any_distance {source text : String} {words : List Token} {stop : Token}
    (hsource : (scan source).tokens = words ++ [stop]) (htext : Spaced words text.toList) :
    (scan text).Reads words := by
  obtain ⟨others, last, htokens, -, hne⟩ := Scan.tokens_eq .start source.toList
  rw [← scan, hsource] at htokens
  obtain ⟨rfl, -⟩ := List.append_inj' htokens rfl
  refine Scan.reads_of_spaced htext (fun t ht => ?_) .start
  have hmem : t ∈ (scan source).tokens := hsource ▸ List.mem_append_left _ ht
  exact Scan.lexeme_of_mem hmem (hne t ht)

/-- What stood side by side, with a fault in between, is read with line ends and a comment in
between, and the slashes in the string start no comment. -/
theorem words_at_any_distance_comment :
    let source := "x=@/\"a//b\""
    let text := "x = // one\n/\r\n\"a//b\""
    let words : List Token := [⟨.bare .identifier, "x", 1, 1⟩, ⟨.bare .equal, "=", 1, 2⟩,
      ⟨.bare .slash, "/", 1, 4⟩, ⟨.string "a//b", "\"a//b\"", 1, 5⟩]
    (scan source).errors = [⟨.unexpectedCharacter, 1, 3⟩] ∧
      (scan source).tokens = words ++ [⟨.bare .eof, "", 1, 11⟩] ∧
      Spaced words text.toList ∧ (scan text).Reads words := by
  intro source text words
  have hsource : (scan source).tokens = words ++ [⟨.bare .eof, "", 1, 11⟩] := by cbv
  have htext : text.toList = "x".toList ++ [' '] ++ ("=".toList ++ " // one\n".toList ++
      ("/".toList ++ "\r\n".toList ++ "\"a//b\"".toList)) := by decide
  have hcomment : Gap (' ' :: ('/' :: '/' :: [' ', 'o', 'n', 'e'] ++ ['\n'])) :=
    .mk (by decide) (.comment (by decide) .nil)
  have hspaced : Spaced words text.toList := by
    rw [htext]
    exact .more (.mk (by decide) .nil) (.more hcomment (.more (.mk (by decide)
      (.blank (by decide) .nil)) (.one _)))
  exact ⟨by cbv, hsource, hspaced, words_at_any_distance hsource hspaced⟩

end Lox
