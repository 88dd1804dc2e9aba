import Lox.Proofs.Source.Slices

/-!
Scanning with offsets never fails and finds the same tokens.

A cursor that stands behind some text has offsets that tell how much text that is, and the start of
its line that far behind it that the column comes out right.  Passing a character keeps this, if a
new line is started behind a newline, so every difference and every cut of a scan has a result.
-/

namespace Lox
namespace Cursor

variable {s s' s'' : Cursor} {before text : List Char} {c : Char} {rest : List Char}
  {p : Char → Bool}

/-- Where a piece starts that stands behind some text. -/
def place (before : List Char) : Position := Position.start.advance before

theorem place_concat (before : List Char) (c : Char) :
    place (before ++ [c]) = (place before).step c :=
  Position.advance_concat _ before c

/-- Whether the cursor stands behind `before`. -/
structure At (s : Cursor) (before : List Char) : Prop where
  source : s.source = before ++ s.rest
  offset : s.offset = bytes before
  line : s.line = (place before).line
  column : s.lineStart + (place before).column = bytes before + 1

/-- Whether the cursor stands at the front of the piece at hand. -/
structure Starts (s : Cursor) (before : List Char) : Prop extends s.At before where
  start : s.start = bytes before
  startColumn : s.startColumn = (place before).column

/-- Whether `s'` came from `s`, behind `before`, by passing `text` of the piece at hand. -/
structure Passed (s : Cursor) (before text : List Char) (s' : Cursor) : Prop where
  here : s'.At (before ++ text)
  source : s'.source = s.source
  start : s'.start = s.start
  startColumn : s'.startColumn = s.startColumn
  errors : s'.errors = s.errors

theorem At.current (h : s.At before) : s.current = bytes before := by
  unfold Cursor.current
  cases hrest : s.rest with
  | nil =>
    show bytes s.source = _
    rw [h.source, hrest, List.append_nil]
  | cons c rest => exact h.offset

namespace Passed

theorem none (h : s.At before) : s.Passed before [] s :=
  ⟨(List.append_nil before).symm ▸ h, rfl, rfl, rfl, rfl⟩

theorem trans {text' : List Char} (h : s.Passed before text s')
    (h' : s'.Passed (before ++ text) text' s'') : s.Passed before (text ++ text') s'' :=
  ⟨List.append_assoc before text text' ▸ h'.here, h'.source.trans h.source,
    h'.start.trans h.start, h'.startColumn.trans h.startColumn, h'.errors.trans h.errors⟩

/-- What is ahead is known from what was passed. -/
theorem rest_eq (h : s.Passed before text s') (hs : s.At before)
    (hrest : s.rest = text ++ rest) : s'.rest = rest := by
  have hwhole := h.here.source
  rw [h.source, hs.source, hrest, List.append_assoc, List.append_cancel_left_eq,
    List.append_cancel_left_eq] at hwhole
  exact hwhole.symm

/-- Passing a character that starts no new line. -/
theorem pass (h : s.At before) (hrest : s.rest = c :: rest) (hc : c ≠ '\n') :
    s.Passed before [c] (s.pass c rest) where
  here := by
    have hcolumn := h.column
    constructor
    · show s.source = before ++ [c] ++ rest
      rw [h.source, hrest, List.append_assoc, List.singleton_append]
    · show s.offset + c.utf8Size = _
      rw [h.offset, bytes_append, bytes_singleton]
    · show s.line = _
      rw [h.line, place_concat, Position.step, if_neg hc]
    · show s.lineStart + _ = _
      rw [place_concat, Position.step, if_neg hc, bytes_append, bytes_singleton]
      dsimp only
      omega
  source := rfl
  start := rfl
  startColumn := rfl
  errors := rfl

/-- Passing a newline and starting the line behind it. -/
theorem newline (h : s.At before) (hrest : s.rest = '\n' :: rest) :
    s.Passed before ['\n'] (s.pass '\n' rest).newline where
  here := by
    have hsource : s.source = before ++ ['\n'] ++ rest := by
      rw [h.source, hrest, List.append_assoc, List.singleton_append]
    have hoffset : (s.pass '\n' rest).offset = bytes (before ++ ['\n']) := by
      show s.offset + _ = _
      rw [h.offset, bytes_append, bytes_singleton]
    have hcurrent : (s.pass '\n' rest).current = bytes (before ++ ['\n']) := by
      unfold Cursor.current
      cases rest with
      | nil =>
        show bytes s.source = _
        rw [hsource, List.append_nil]
      | cons d rest => exact hoffset
    refine ⟨hsource, hoffset, ?_, ?_⟩
    · show s.line + 1 = _
      rw [h.line, place_concat]
      rfl
    · show (s.pass '\n' rest).current + _ = _
      rw [hcurrent, place_concat]
      rfl
  source := rfl
  start := rfl
  startColumn := rfl
  errors := rfl

/-- Passing characters of a kind that no newline is of. -/
theorem passWhile (hp : p '\n' = false) (h : s.At before) (hrest : s.rest = rest) :
    s.Passed before (rest.takeWhile p) (s.passWhile p rest) := by
  induction rest generalizing s before with
  | nil => exact none h
  | cons c rest ih =>
    rw [Cursor.passWhile, List.takeWhile_cons]
    cases hc : p c with
    | false => exact none h
    | true =>
      have hne : c ≠ '\n' := fun h => by rw [h, hp] at hc; cases hc
      have hpass := pass h hrest hne
      exact hpass.trans (ih hpass.here rfl)

theorem nextWhile (hp : p '\n' = false) (h : s.At before) (hrest : s.rest = rest) :
    s.Passed before (rest.takeWhile p) (s.nextWhile p) := by
  subst hrest
  exact passWhile hp h rfl

/-- Passing characters up to a quote, with the lines that start there. -/
theorem passString (h : s.At before) (hrest : s.rest = rest) :
    s.Passed before (rest.takeWhile (· ≠ '"')) (s.passString rest) := by
  induction rest generalizing s before with
  | nil => exact none h
  | cons c rest ih =>
    rw [Cursor.passString, List.takeWhile_cons]
    by_cases hquote : c = '"'
    · rw [if_pos hquote, if_neg (by simpa using hquote)]
      exact none h
    · rw [if_neg hquote, if_pos (by simpa using hquote)]
      by_cases hline : c = '\n'
      · subst hline
        have hnewline := newline h hrest
        exact hnewline.trans (ih hnewline.here rfl)
      · rw [if_neg hline]
        have hpass := pass h hrest hline
        exact hpass.trans (ih hpass.here rfl)

/-! ## Pieces -/

/-- What was passed of the piece at hand can be cut out. -/
theorem lexeme (hs : s.Starts before) (h : s.Passed before text s') : s'.lexeme = some text := by
  unfold Cursor.lexeme
  rw [h.here.source, h.start, hs.start, h.here.current]
  exact slice?_append before text s'.rest

/-- A piece without newlines is on one line. -/
theorem line_eq (h : s.Passed before text s') (hline : '\n' ∉ text) :
    s'.line = (place before).line := by
  rw [h.here.line, place, Position.advance_append, Position.line_advance,
    List.count_eq_zero.mpr hline, Nat.add_zero, place]

end Passed

end Cursor

/-! ## What is found -/

namespace Piece

/-- The token that a piece is, if it is one. -/
def token? (text : List Char) (start : Position) : Piece → Option Token
  | token form => some ⟨form, String.ofList text, start.line, start.column⟩
  | layout | unexpected | unterminated => none

/-- The fault that a piece is, if it is one. -/
def error? (start stop : Position) : Piece → Option ScanError
  | unexpected => some ⟨.unexpectedCharacter, start.line, start.column⟩
  | unterminated => some ⟨.unterminatedString, stop.line, start.column⟩
  | layout | token _ => none

end Piece

theorem Scan.addPiece_eq (piece : Piece) (text : List Char) (start stop : Position) (s : Scan) :
    s.addPiece piece text start stop =
      ⟨(piece.token? text start).toList ++ s.tokens,
        (piece.error? start stop).toList ++ s.errors⟩ := by
  cases piece <;> rfl

namespace Cursor

variable {s s' s'' : Cursor} {before text : List Char} {c : Char} {rest : List Char}
  {result : Option (Option Token × Cursor)}

/-- Whether the result of passing the piece at hand is what was cut off. -/
def Finds (s : Cursor) (before : List Char) (k : Cut) (result : Option (Option Token × Cursor)) :
    Prop :=
  ∃ s', result = some (k.piece.token? k.text (place before), s') ∧
    s'.At (before ++ k.text) ∧ s'.source = s.source ∧
    s'.errors = s.errors ++ (k.piece.error? (place before) (place (before ++ k.text))).toList

theorem not_mem_takeWhile {p : Char → Bool} (hc : p c = false) (text : List Char) :
    c ∉ text.takeWhile p := by
  intro h
  have hp := List.all_eq_true.mp List.all_takeWhile c h
  rw [hc] at hp
  cases hp

/-- What is dropped stops at the character that was looked for. -/
theorem eq_of_dropWhile_ne {c d : Char} {text more : List Char}
    (h : text.dropWhile (· ≠ c) = d :: more) : d = c := by
  have hhead := List.head?_dropWhile_not (· ≠ c) text
  rw [h] at hhead
  simpa using hhead

theorem nextIf_of_eq (h : s.rest = c :: rest) : s.nextIf c = (true, s.pass c rest) := by
  rw [nextIf, h]
  exact if_pos rfl

theorem nextIf_of_ne (h : ∀ rest, s.rest = c :: rest → False) : s.nextIf c = (false, s) := by
  unfold nextIf
  split
  · rfl
  · next d rest hd => exact if_neg fun hdc : d = c => h rest (hdc ▸ hd)

/-- A string without an end is a fault where the text stops. -/
theorem string_of_open (hrest : s.rest = rest) (h : (s.passString rest).rest = []) :
    s.string = some (none, (s.passString rest).error .unterminatedString) := by
  subst hrest
  unfold string
  rw [nextIf_of_ne fun more hmore => List.cons_ne_nil _ _ (hmore.symm.trans h)]

/-- The value of a string lies between its quotes. -/
theorem string_of_closed (hrest : s.rest = rest) {more value text : List Char} {size : Nat}
    (h : (s.passString rest).rest = '"' :: more)
    (hsize : sub? ((s.passString rest).pass '"' more).current 1 = some size)
    (hvalue : slice? (s.passString rest).source ((s.passString rest).start + 1) size =
      some value)
    (htext : ((s.passString rest).pass '"' more).lexeme = some text) :
    s.string = some (some ⟨.string (String.ofList value), String.ofList text, s.line,
      s.startColumn⟩, (s.passString rest).pass '"' more) := by
  subst hrest
  unfold string
  rw [nextIf_of_eq h]
  show (sub? _ 1).bind (fun size => (slice? _ _ size).bind fun value => (lexeme _).bind _) = _
  rw [hsize, Option.bind_some, htext]
  show (slice? (s.passString s.rest).source ((s.passString s.rest).start + 1) size).bind _ = _
  rw [hvalue]
  rfl

theorem fraction_of_digit {d : Char} (h : s.rest = '.' :: d :: rest) (hd : d.isDigit = true) :
    s.fraction = (s.pass '.' (d :: rest)).nextWhile Char.isDigit := by
  rw [fraction, h]
  exact if_pos hd

theorem fraction_of_none (h : ∀ d more, s.rest = '.' :: d :: more → ¬d.isDigit = true) :
    s.fraction = s := by
  unfold fraction
  split
  · next d more hrest => exact if_neg (h d more hrest)
  · rfl

/-- The digits of a number stand in front of its point and behind it. -/
theorem number_eq {whole behind : List Char} (hfraction : (s.nextWhile Char.isDigit).fraction = s')
    (hwhole : '.' ∉ whole) (hbehind : behind = [] ∨ ∃ more, behind = '.' :: more)
    (htext : s'.lexeme = some (whole ++ behind)) :
    s.number = s'.token (.number (Decimal.read whole (behind.drop 1))) := by
  have hpoint : ∀ d ∈ whole, decide (d ≠ '.') = true := fun d hd =>
    decide_eq_true fun h => hwhole (h ▸ hd)
  have hnone : behind.takeWhile (· ≠ '.') = [] ∧ behind.dropWhile (· ≠ '.') = behind := by
    rcases hbehind with rfl | ⟨more, rfl⟩ <;> exact ⟨rfl, rfl⟩
  unfold number
  dsimp only
  rw [hfraction, htext, Option.bind_eq_bind, Option.bind_some,
    List.takeWhile_append_of_pos hpoint, List.dropWhile_append_of_pos hpoint, hnone.1, hnone.2,
    List.append_nil]

namespace Finds

theorem token (hs : s.Starts before) (h : s.Passed before text s') (hline : '\n' ∉ text)
    (form : Form) (rest : List Char) :
    s.Finds before ⟨.token form, text, rest⟩ (s'.token form) := by
  refine ⟨s', ?_, h.here, h.source, ?_⟩
  · unfold Cursor.token
    rw [h.lexeme hs, h.line_eq hline, h.startColumn, hs.startColumn]
    rfl
  · rw [h.errors]
    exact (List.append_nil _).symm

theorem layout (h : s.Passed before text s') (rest : List Char) :
    s.Finds before ⟨.layout, text, rest⟩ (some (none, s')) :=
  ⟨s', rfl, h.here, h.source, by rw [h.errors]; exact (List.append_nil _).symm⟩

theorem unexpected (hs : s.Starts before) (h : s.Passed before text s') (hline : '\n' ∉ text)
    (rest : List Char) : s.Finds before ⟨.unexpected, text, rest⟩
      (some (none, s'.error .unexpectedCharacter)) := by
  refine ⟨_, rfl, ⟨h.here.source, h.here.offset, h.here.line, h.here.column⟩, h.source, ?_⟩
  show s'.errors ++ [⟨_, s'.line, s'.startColumn⟩] = _
  rw [h.errors, h.line_eq hline, h.startColumn, hs.startColumn]
  rfl

theorem single (hs : s.Starts before) (hrest : s.rest = c :: rest) (hc : c ≠ '\n') (kind : Kind)
    (bare : decide kind.Bare = true) :
    s.Finds before (Cut.single c kind rest (of_decide_eq_true bare))
      ((s.pass c rest).single kind bare) :=
  token hs (.pass hs.toAt hrest hc) (fun h => hc (List.mem_singleton.mp h).symm) _ rest

theorem extensible (hs : s.Starts before) (hrest : s.rest = c :: rest) (hc : c ≠ '\n')
    (short long : Kind) (bare : decide short.Bare = true ∧ decide long.Bare = true) :
    s.Finds before (Cut.extensible c short long rest (bare.imp of_decide_eq_true of_decide_eq_true))
      ((s.pass c rest).either short long bare) := by
  have hpass := Passed.pass hs.toAt hrest hc
  have hshort := single hs hrest hc short bare.1
  unfold Cut.extensible
  split
  · next rest =>
    rw [either, nextIf_of_eq rfl]
    refine token hs (hpass.trans (.pass hpass.here rfl (by decide))) ?_ _ rest
    simp [hc.symm]
  · next hnot =>
    rw [either, nextIf_of_ne fun more h => hnot more h]
    exact hshort

theorem slash (hs : s.Starts before) (hrest : s.rest = '/' :: rest) :
    s.Finds before (Cut.slash rest) (s.pass '/' rest).slash := by
  have hpass := Passed.pass hs.toAt hrest (by decide)
  have hsingle := single hs hrest (by decide) .slash (by decide)
  unfold Cut.slash
  split
  · next more =>
    rw [Cursor.slash, nextIf_of_eq rfl]
    have hnext := hpass.trans (.pass hpass.here rfl (by decide))
    have hcomment := Passed.nextWhile (p := (· ≠ '\n')) (by decide) hnext.here rfl
    exact layout (hnext.trans hcomment) _
  · next hnot =>
    rw [Cursor.slash, nextIf_of_ne fun more h => hnot more h]
    exact hsingle

theorem quoted (hs : s.Starts before) (hrest : s.rest = '"' :: rest) :
    s.Finds before (Cut.quoted rest) (s.pass '"' rest).string := by
  have hpass := Passed.pass hs.toAt hrest (by decide)
  have hstring : (s.pass '"' rest).Passed (before ++ ['"']) (rest.takeWhile (· ≠ '"'))
      ((s.pass '"' rest).passString rest) := .passString hpass.here rfl
  have htext := hpass.trans hstring
  have hcover := List.takeWhile_append_dropWhile (p := (· ≠ '"')) (l := rest)
  have hbehind : (s.pass '"' rest).rest = rest := rfl
  have hahead := hstring.rest_eq hpass.here hcover.symm
  unfold Cut.quoted
  dsimp only
  split
  · next hnone =>
    rw [hnone] at hahead hcover
    rw [List.append_nil] at hcover
    rw [hcover] at htext
    rw [string_of_open hbehind hahead]
    refine ⟨_, rfl, ⟨htext.here.source, htext.here.offset, htext.here.line, htext.here.column⟩,
      htext.source, ?_⟩
    show _ ++ [(⟨_, _, _⟩ : ScanError)] = _
    rw [htext.errors, htext.here.line, htext.startColumn, hs.startColumn]
    rfl
  · next quote more hsome =>
    obtain rfl := eq_of_dropWhile_ne hsome
    rw [hsome] at hahead hcover
    have hend := Passed.pass htext.here hahead (by decide)
    have hwhole := htext.trans hend
    have hsize : sub? (((s.pass '"' rest).passString rest).pass '"' more).current 1 =
        some (bytes (before ++ ['"'] ++ rest.takeWhile (· ≠ '"'))) := by
      rw [hend.here.current, ← List.append_assoc, bytes_append _ ['"'], Nat.add_comm]
      exact sub?_add _ _
    have hvalue : slice? ((s.pass '"' rest).passString rest).source
        (((s.pass '"' rest).passString rest).start + 1)
        (bytes (before ++ ['"'] ++ rest.takeWhile (· ≠ '"'))) =
          some (rest.takeWhile (· ≠ '"')) := by
      have hstart : ((s.pass '"' rest).passString rest).start + 1 = bytes (before ++ ['"']) := by
        rw [htext.start, hs.start, bytes_append]
        rfl
      rw [hstart, hstring.here.source]
      exact slice?_append _ _ _
    rw [string_of_closed hbehind hahead hsize hvalue (hwhole.lexeme hs)]
    have hline : (s.pass '"' rest).line = (place before).line := hs.line
    have hcolumn : (s.pass '"' rest).startColumn = (place before).column := hs.startColumn
    refine ⟨_, ?_, hwhole.here, hwhole.source, ?_⟩
    · rw [hline, hcolumn]
      rfl
    · rw [hwhole.errors]
      exact (List.append_nil _).symm

theorem word (hs : s.Starts before) (hrest : s.rest = c :: rest) (hc : c ≠ '\n') :
    s.Finds before (Cut.word c rest) (s.pass c rest).word := by
  have hpass := Passed.pass hs.toAt hrest hc
  have hword : s.Passed before (c :: rest.takeWhile continuesWord)
      ((s.pass c rest).nextWhile continuesWord) :=
    hpass.trans (.nextWhile (by decide) hpass.here rfl)
  have hline : '\n' ∉ c :: rest.takeWhile continuesWord := by
    rw [List.mem_cons, not_or]
    exact ⟨hc.symm, not_mem_takeWhile (by decide) rest⟩
  have hrun : (s.pass c rest).word = ((s.pass c rest).nextWhile continuesWord).token
      (.bare (wordKind (String.ofList (c :: rest.takeWhile continuesWord))) (wordKind_bare _)) := by
    unfold Cursor.word
    dsimp only
    rw [hword.lexeme hs]
    rfl
  rw [hrun]
  exact token hs hword hline _ _

theorem digits (hs : s.Starts before) (hrest : s.rest = c :: rest) (hc : c.isDigit = true) :
    s.Finds before (Cut.digits c rest) (s.pass c rest).number := by
  have hne : c ≠ '\n' := fun h => by rw [h] at hc; exact absurd hc (by decide)
  have hpass := Passed.pass hs.toAt hrest hne
  have hwhole : s.Passed before (c :: rest.takeWhile Char.isDigit)
      ((s.pass c rest).nextWhile Char.isDigit) :=
    hpass.trans (.nextWhile (by decide) hpass.here rfl)
  have hcover := List.takeWhile_append_dropWhile (p := Char.isDigit) (l := rest)
  have hahead : ((s.pass c rest).nextWhile Char.isDigit).rest = rest.dropWhile Char.isDigit := by
    refine hwhole.rest_eq hs.toAt ?_
    rw [List.cons_append, hcover, hrest]
  have hnone : ∀ d : Char, d.isDigit = false → d ∉ c :: rest.takeWhile Char.isDigit := by
    intro d hd
    rw [List.mem_cons, not_or]
    refine ⟨fun h => ?_, not_mem_takeWhile hd rest⟩
    rw [h, hc] at hd
    cases hd
  have hinteger : ((s.pass c rest).nextWhile Char.isDigit).fraction =
      (s.pass c rest).nextWhile Char.isDigit → s.Finds before
        ⟨.token (.number (Decimal.read (c :: rest.takeWhile Char.isDigit) [])),
          c :: rest.takeWhile Char.isDigit, rest.dropWhile Char.isDigit⟩
        (s.pass c rest).number := by
    intro hfraction
    have htext := hwhole.lexeme hs
    rw [← List.append_nil (c :: _)] at htext
    rw [number_eq hfraction (hnone '.' (by decide)) (.inl rfl) htext]
    exact token hs hwhole (hnone '\n' (by decide)) _ _
  unfold Cut.digits
  dsimp only
  split
  · next d more hpointed =>
    rw [hpointed] at hahead
    split
    · next hd =>
      have hpoint := hwhole.trans (.pass hwhole.here hahead (by decide))
      have hbehind : (((s.pass c rest).nextWhile Char.isDigit).pass '.' (d :: more)).rest =
          d :: more := rfl
      have hdigits := hpoint.trans (.nextWhile (p := Char.isDigit) (by decide) hpoint.here hbehind)
      rw [List.takeWhile_cons_of_pos hd, List.append_assoc, List.singleton_append] at hdigits
      rw [number_eq (fraction_of_digit hahead hd) (hnone '.' (by decide)) (.inr ⟨_, rfl⟩)
        (hdigits.lexeme hs)]
      refine token hs hdigits (fun h => ?_) _ _
      rcases List.mem_append.mp h with h | h
      · exact hnone '\n' (by decide) h
      · have htail := (List.mem_cons.mp h).resolve_left (by decide)
        rw [← List.takeWhile_cons_of_pos (p := Char.isDigit) hd] at htail
        exact not_mem_takeWhile (by decide) _ htail
    · next hd =>
      refine hinteger (fraction_of_none fun d' more' h => ?_)
      rw [hahead] at h
      cases h
      exact hd
  · next hnot =>
    refine hinteger (fraction_of_none fun d more h => ?_)
    rw [hahead] at h
    exact absurd h (hnot d more)

end Finds

/-- Passing the piece at hand finds what is cut off. -/
theorem finds_piece (hs : s.Starts before) (hrest : s.rest = c :: rest) :
    s.Finds before (cut c rest) s.piece := by
  unfold cut
  split
  all_goals
    unfold piece
    rw [hrest]
    dsimp only
  case h_17 =>
    -- The character stands for nothing by itself, in the other function as well.
    generalize hcut : (if isBlank c then _ else _ : Cut) = k
    split
    case h_17 =>
      subst hcut
      by_cases hline : c = '\n'
      · subst hline
        rw [if_pos rfl, if_pos (by decide)]
        exact .layout (.newline hs.toAt hrest) rest
      · have hpass := Passed.pass hs.toAt hrest hline
        rw [if_neg hline]
        split
        · exact .layout hpass rest
        · split
          · next hdigit => exact .digits hs hrest hdigit
          · split
            · exact .word hs hrest hline
            · exact .unexpected hs hpass (fun h => hline (List.mem_singleton.mp h).symm) rest
    all_goals exact absurd rfl (by assumption)
  case h_15 => exact .slash hs hrest
  case h_16 => exact .quoted hs hrest
  case h_11 | h_12 | h_13 | h_14 => exact .extensible hs hrest (by decide) _ _ _
  all_goals exact .single hs hrest (by decide) _ _

/-! ## The whole text -/

theorem place_append (before text : List Char) :
    place (before ++ text) = (place before).advance text :=
  Position.advance_append _ before text

/-- No line starts behind the cursor, so there is a column. -/
theorem At.sub? (h : s.At before) :
    sub? (bytes before) s.lineStart = some ((place before).column - 1) ∧
      (place before).column - 1 + 1 = (place before).column := by
  have hcolumn := h.column
  have hpos : 1 ≤ (place before).column := by
    rw [place, Position.advance_start]
    exact Nat.le_add_right 1 _
  have hbytes : bytes before = s.lineStart + ((place before).column - 1) := by omega
  rw [hbytes]
  exact ⟨sub?_add _ _, Nat.sub_add_cancel hpos⟩

/-- At the front of a piece, once the cursor has taken down where it starts. -/
theorem At.starts (h : s.At before) :
    Starts { s with start := s.offset, startColumn := (place before).column } before :=
  ⟨⟨h.source, h.offset, h.line, h.column⟩, h.offset, rfl⟩

theorem pieces_nil (h : s.rest = []) (fuel : Nat) : s.pieces fuel = some ([], s) := by
  cases fuel <;> simp only [pieces, h]

theorem pieces_cons {n column : Nat} {token : Option Token} {ts : List Token}
    (hrest : s.rest = c :: rest) (hcolumn : sub? s.offset s.lineStart = some column)
    (hpiece : { s with start := s.offset, startColumn := column + 1 }.piece = some (token, s'))
    (hpieces : s'.pieces n = some (ts, s'')) :
    s.pieces (n + 1) = some (token.toList ++ ts, s'') := by
  unfold pieces
  split
  · next hnil =>
    rw [hrest] at hnil
    cases hnil
  · next hfuel => cases hfuel
  · next hfuel =>
    cases hfuel
    rw [hcolumn, Option.bind_eq_bind, Option.bind_some, hpiece]
    show (pieces n s').bind _ = _
    rw [hpieces]
    rfl

/-- If the pieces that are left are no more than the fuel, their tokens and faults are those of the
scan of what is ahead. -/
theorem pieces_eq (fuel : Nat) (hs : s.At before) (hfuel : s.rest.length ≤ fuel) :
    ∃ ts es s', s.pieces fuel = some (ts, s') ∧ s'.At (before ++ s.rest) ∧
      s'.errors = s.errors ++ es ∧
      Scan.ofText (place before) s.rest =
        ⟨ts ++ (Scan.atEnd (place (before ++ s.rest))).tokens, es⟩ := by
  induction fuel generalizing s before with
  | zero =>
    have hrest := List.eq_nil_of_length_eq_zero (Nat.le_zero.mp hfuel)
    refine ⟨[], [], s, pieces_nil hrest 0, ?_, (List.append_nil _).symm, ?_⟩
    · rwa [hrest, List.append_nil]
    · rw [hrest, Scan.ofText, List.append_nil]
      rfl
  | succ n ih =>
    cases hrest : s.rest with
    | nil =>
      refine ⟨[], [], s, pieces_nil hrest _, ?_, (List.append_nil _).symm, ?_⟩
      · rwa [List.append_nil]
      · rw [Scan.ofText, List.append_nil]
        rfl
    | cons c rest =>
      obtain ⟨hsub, hcolumn⟩ := hs.sub?
      obtain ⟨s₁, hpiece, hhere, hsource, herrors⟩ := finds_piece hs.starts hrest
      obtain ⟨-, hcover⟩ := cut_covers c rest
      have hbehind : s₁.rest = (cut c rest).rest := by
        have hwhole := hhere.source
        have hbefore : s₁.source = before ++ s.rest := hsource.trans hs.source
        rw [hbefore, hrest, ← hcover, ← List.append_assoc, List.append_cancel_left_eq] at hwhole
        exact hwhole.symm
      have hlength := length_rest_cut_lt c rest
      obtain ⟨ts, es, s₂, hpieces, hend, herrors₂, hscan⟩ := ih hhere (by
        rw [hbehind]
        rw [hrest] at hfuel
        omega)
      rw [hbehind, List.append_assoc, hcover] at hend hscan
      refine ⟨((cut c rest).piece.token? (cut c rest).text (place before)).toList ++ ts,
        ((cut c rest).piece.error? (place before) (place (before ++ (cut c rest).text))).toList ++
          es, s₂, ?_, hend, ?_, ?_⟩
      · rw [← hs.offset] at hsub
        rw [← hcolumn] at hpiece
        exact pieces_cons hrest hsub hpiece hpieces
      · rw [herrors₂, herrors, List.append_assoc]
      · rw [Scan.ofText, Scan.addPiece_eq, ← place_append, hscan, List.append_assoc]

/-- Scanning with offsets always has a result, and that is the scan of the text. -/
theorem run_eq (source : String) : run source = some (scan source) := by
  have hstart : (ofSource source.toList).At [] := ⟨rfl, rfl, rfl, rfl⟩
  obtain ⟨ts, es, s, hpieces, hend, herrors, hscan⟩ :=
    pieces_eq source.toList.length hstart (Nat.le_refl _)
  obtain ⟨hsub, hcolumn⟩ := hend.sub?
  have hsource : source.toList = (ofSource source.toList).rest := rfl
  rw [List.nil_append, ← hsource] at hend hscan hsub hcolumn
  rw [scan, show Scan.ofText .start source.toList = _ from hscan]
  unfold run
  dsimp only
  rw [hpieces, Option.bind_eq_bind, Option.bind_some, hsub, Option.bind_eq_bind, Option.bind_some,
    hcolumn, hend.line, herrors]
  rfl

end Cursor
end Lox
