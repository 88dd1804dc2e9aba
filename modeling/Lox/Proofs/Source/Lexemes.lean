import Lox.Proofs.Source.Offsets

/-!
The rule of the longest match.

The lexical grammar says which texts are a token or can be skipped.  It says nothing about where a
piece ends when more than one front of a text is among them.  That is settled by length: what is cut
off is longer than any other piece that could be.  Only where nothing fits is there a fault.
-/

namespace Lox

/-! ## The lexical grammar -/

/-- The operators and the other signs of one or two characters. -/
def signs : List (List Char × Kind) :=
  [(['('], .leftParen), ([')'], .rightParen), (['\x7b'], .leftBrace), (['\x7d'], .rightBrace),
   ([','], .comma), (['.'], .dot), (['-'], .minus), (['+'], .plus), ([';'], .semicolon),
   (['*'], .star), (['/'], .slash), (['!'], .bang), (['!', '='], .bangEqual),
   (['='], .equal), (['=', '='], .equalEqual), (['<'], .less), (['<', '='], .lessEqual),
   (['>'], .greater), (['>', '='], .greaterEqual)]

def IsDigit (c : Char) : Prop := '0' ≤ c ∧ c ≤ '9'

/-- The letters of the ASCII alphabet and the underscore. -/
def IsLetter (c : Char) : Prop := 'A' ≤ c ∧ c ≤ 'Z' ∨ 'a' ≤ c ∧ c ≤ 'z' ∨ c = '_'

def Digits (text : List Char) : Prop := text ≠ [] ∧ ∀ c ∈ text, IsDigit c

/-- A letter with letters and digits behind it. -/
def Word (text : List Char) : Prop :=
  ∃ c rest, text = c :: rest ∧ IsLetter c ∧ ∀ d ∈ rest, IsLetter d ∨ IsDigit d

/-- What a text is, standing by itself. -/
inductive Lexeme : Piece → List Char → Prop
  | sign {text : List Char} {kind : Kind} (bare : kind.Bare) : (text, kind) ∈ signs →
      Lexeme (.token (.bare kind bare)) text
  | integer {whole : List Char} : Digits whole →
      Lexeme (.token (.number (Decimal.read whole []))) whole
  | fraction {whole fraction : List Char} : Digits whole → Digits fraction →
      Lexeme (.token (.number (Decimal.read whole fraction))) (whole ++ '.' :: fraction)
  | keyword {text : List Char} {kind : Kind} (bare : kind.Bare) : Word text →
      (String.ofList text, kind) ∈ reserved → Lexeme (.token (.bare kind bare)) text
  | identifier {text : List Char} (bare : Kind.identifier.Bare) : Word text →
      (∀ kind, (String.ofList text, kind) ∉ reserved) →
      Lexeme (.token (.bare .identifier bare)) text
  | string {text : List Char} : '"' ∉ text →
      Lexeme (.token (.string (String.ofList text))) ('"' :: text ++ ['"'])
  | blank {c : Char} : c ∈ [' ', '\t', '\r', '\n'] → Lexeme .layout [c]
  | comment {text : List Char} : '\n' ∉ text → Lexeme .layout ('/' :: '/' :: text)

/-- A piece at the front of a source that is longer than every other one there. -/
structure Longest (source : List Char) (piece : Piece) (text : List Char) : Prop where
  lexeme : Lexeme piece text
  front : text <+: source
  longer : ∀ other front, Lexeme other front → front <+: source →
    front.length < text.length ∨ front = text ∧ other = piece

/-- No piece stands at the front of a source. -/
def Unmatched (source : List Char) : Prop :=
  ∀ piece text, Lexeme piece text → ¬ text <+: source

/-- The pieces of a source with their texts.  Where none fits, the first character is given up,
unless that is a quote: then no quote follows, and everything is given up. -/
inductive Lexes : List Char → List (Piece × List Char) → Prop
  | done : Lexes [] []
  | longest {source text rest : List Char} {piece : Piece} {pieces : List (Piece × List Char)} :
      Longest source piece text → source = text ++ rest → Lexes rest pieces →
      Lexes source ((piece, text) :: pieces)
  | unexpected {c : Char} {rest : List Char} {pieces : List (Piece × List Char)} :
      Unmatched (c :: rest) → c ≠ '"' → Lexes rest pieces →
      Lexes (c :: rest) ((.unexpected, [c]) :: pieces)
  | unterminated {rest : List Char} : Unmatched ('"' :: rest) → '"' ∉ rest →
      Lexes ('"' :: rest) [(.unterminated, '"' :: rest)]

/-! ## Characters -/

theorem isDigit_iff {c : Char} : c.isDigit = true ↔ IsDigit c := by
  simp [Char.isDigit, IsDigit, Char.le_def, UInt32.le_iff_toNat_le]

theorem isUpper_iff {c : Char} : c.isUpper = true ↔ 'A' ≤ c ∧ c ≤ 'Z' :=
  decide_eq_true_iff

theorem isLower_iff {c : Char} : c.isLower = true ↔ 'a' ≤ c ∧ c ≤ 'z' := by
  show (decide ('a' ≤ c) && decide (c ≤ 'z')) = true ↔ 'a' ≤ c ∧ c ≤ 'z'
  rw [Bool.and_eq_true, decide_eq_true_iff, decide_eq_true_iff]

theorem startsWord_iff {c : Char} : startsWord c = true ↔ IsLetter c := by
  show (c.isUpper || c.isLower || c == '_') = true ↔ IsLetter c
  rw [Bool.or_eq_true, Bool.or_eq_true, isUpper_iff, isLower_iff, beq_iff_eq, or_assoc]
  exact Iff.rfl

theorem continuesWord_iff {c : Char} : continuesWord c = true ↔ IsLetter c ∨ IsDigit c := by
  rw [← startsWord_iff, ← isDigit_iff]
  simp only [continuesWord, startsWord, Char.isAlphanum, Bool.or_eq_true, beq_iff_eq]
  exact or_right_comm

theorem isBlank_iff {c : Char} : isBlank c = true ↔ c ∈ [' ', '\t', '\r', '\n'] := by
  simp [isBlank, or_assoc]

/-! ## What is cut off -/

variable {c : Char} {rest text : List Char} {piece : Piece}

theorem Lexeme.ne_nil (h : Lexeme piece text) : text ≠ [] := by
  cases h with
  | sign bare h =>
    rintro rfl
    revert h
    simp [signs]
  | integer h => exact h.1
  | fraction | string | blank | comment => simp
  | keyword _ h | identifier _ h =>
    obtain ⟨c, rest, rfl, -⟩ := h
    exact List.cons_ne_nil c rest

/-- A reserved word has one kind. -/
theorem lookup_of_mem_reserved : ∀ entry ∈ reserved, reserved.lookup entry.1 = some entry.2 := by
  decide

theorem word_of_mem_reserved {word : String} {kind : Kind} (h : (word, kind) ∈ reserved) :
    Word word.toList := by
  have hchars : ∀ entry ∈ reserved, entry.1.toList.head?.any startsWord = true ∧
      entry.1.toList.all continuesWord = true := by decide
  obtain ⟨hstart, hrest⟩ := hchars _ h
  dsimp only at hstart hrest
  cases htext : word.toList with
  | nil =>
    rw [htext] at hstart
    cases hstart
  | cons c rest =>
    rw [htext] at hstart hrest
    refine ⟨c, rest, rfl, startsWord_iff.mp hstart, fun d hd => ?_⟩
    exact continuesWord_iff.mp (List.all_eq_true.mp hrest d (List.mem_cons_of_mem c hd))

theorem wordKind_of_mem {word : String} {kind : Kind} (h : (word, kind) ∈ reserved) :
    wordKind word = kind := by
  rw [wordKind, lookup_of_mem_reserved _ h]
  rfl

theorem wordKind_of_not_mem {word : String} (h : ∀ kind, (word, kind) ∉ reserved) :
    wordKind word = .identifier := by
  unfold wordKind
  cases hkind : reserved.lookup word with
  | none => rfl
  | some kind =>
    obtain ⟨before, after, hsplit, -⟩ := List.lookup_eq_some_iff.mp hkind
    exact absurd (by simp [hsplit]) (h kind)

theorem lexeme_of_word (h : Word text) {kind : Kind} (bare : kind.Bare)
    (hkind : wordKind (String.ofList text) = kind) : Lexeme (.token (.bare kind bare)) text := by
  by_cases hreserved : ∃ kind, (String.ofList text, kind) ∈ reserved
  · obtain ⟨own, hown⟩ := hreserved
    obtain rfl : own = kind := (wordKind_of_mem hown).symm.trans hkind
    exact .keyword bare h hown
  · have hnone : ∀ kind, (String.ofList text, kind) ∉ reserved :=
      fun kind hkind => hreserved ⟨kind, hkind⟩
    obtain rfl : Kind.identifier = kind := (wordKind_of_not_mem hnone).symm.trans hkind
    exact .identifier bare h hnone

theorem token_bare_congr {k l : Kind} (h : k = l) (hk : k.Bare) (hl : l.Bare) :
    Piece.token (.bare k hk) = .token (.bare l hl) := by
  subst h
  rfl

theorem mem_takeWhile {p : Char → Bool} {d : Char} (h : d ∈ rest.takeWhile p) : p d = true :=
  List.all_eq_true.mp List.all_takeWhile d h

namespace Cut

/-- Whether a cut took a piece, and a given piece is that one or shorter. -/
structure Beats (k : Cut) (piece : Piece) (text : List Char) : Prop where
  lexeme : Lexeme k.piece k.text
  longer : text.length < k.text.length ∨ text = k.text ∧ piece = k.piece

/-! ### Signs and comments -/

theorem extensible_beats_short {c : Char} {short long : Kind} (bare : short.Bare ∧ long.Bare)
    (hshort : ([c], short) ∈ signs) (hlong : ([c, '='], long) ∈ signs) :
    (Cut.extensible c short long rest bare).Beats (.token (.bare short bare.1)) [c] := by
  unfold Cut.extensible
  split
  · exact ⟨.sign bare.2 hlong, .inl (Nat.lt_succ_self 1)⟩
  · exact ⟨.sign bare.1 hshort, .inr ⟨rfl, rfl⟩⟩

theorem extensible_beats_long {c : Char} {short long : Kind} (bare : short.Bare ∧ long.Bare)
    (hlong : ([c, '='], long) ∈ signs) (hfront : ['='] <+: rest) :
    (Cut.extensible c short long rest bare).Beats (.token (.bare long bare.2)) [c, '='] := by
  obtain ⟨after, rfl⟩ := hfront
  exact ⟨.sign bare.2 hlong, .inr ⟨rfl, rfl⟩⟩

theorem slash_slash (more : List Char) : Cut.slash ('/' :: more) =
    ⟨.layout, '/' :: '/' :: more.takeWhile (· ≠ '\n'), more.dropWhile (· ≠ '\n')⟩ := by
  unfold Cut.slash
  rw [List.takeWhile_cons_of_pos (by decide), List.dropWhile_cons_of_pos (by decide)]
  rfl

theorem slash_beats_slash (bare : Kind.slash.Bare) :
    (Cut.slash rest).Beats (.token (.bare .slash bare)) ['/'] := by
  by_cases h : ∃ more, rest = '/' :: more
  · obtain ⟨more, rfl⟩ := h
    rw [slash_slash]
    exact ⟨.comment (Cursor.not_mem_takeWhile (by decide) more), .inl (by simp)⟩
  · unfold Cut.slash
    split
    · exact absurd ⟨_, rfl⟩ h
    · exact ⟨.sign bare (by simp [signs, Cut.single]), .inr ⟨rfl, rfl⟩⟩

theorem slash_beats_comment (htext : '\n' ∉ text) (hfront : '/' :: text <+: rest) :
    (Cut.slash rest).Beats .layout ('/' :: '/' :: text) := by
  obtain ⟨after, rfl⟩ := hfront
  have hline : (text ++ after).takeWhile (· ≠ '\n') = text ++ after.takeWhile (· ≠ '\n') :=
    List.takeWhile_append_of_pos fun d hd => decide_eq_true fun h => htext (h ▸ hd)
  rw [List.cons_append, slash_slash, hline]
  refine ⟨.comment (hline ▸ Cursor.not_mem_takeWhile (by decide) _), ?_⟩
  cases after.takeWhile (· ≠ '\n') with
  | nil => exact .inr ⟨by rw [List.append_nil], rfl⟩
  | cons d more => exact .inl (by simp)

/-! ### Strings -/

theorem quoted_beats (htext : '"' ∉ text) (hfront : text ++ ['"'] <+: rest) :
    (Cut.quoted rest).Beats (.token (.string (String.ofList text))) ('"' :: text ++ ['"']) := by
  obtain ⟨after, rfl⟩ := hfront
  have hp : ∀ d ∈ text, decide (d ≠ '"') = true :=
    fun d hd => decide_eq_true fun h => htext (h ▸ hd)
  have hbody : (text ++ '"' :: after).takeWhile (· ≠ '"') = text := by
    rw [List.takeWhile_append_of_pos hp, List.takeWhile_cons_of_neg (by decide), List.append_nil]
  have hend : (text ++ '"' :: after).dropWhile (· ≠ '"') = '"' :: after := by
    rw [List.dropWhile_append_of_pos hp, List.dropWhile_cons_of_neg (by decide)]
  unfold Cut.quoted
  rw [List.append_assoc, List.singleton_append, hbody, hend]
  exact ⟨.string htext, .inr ⟨rfl, rfl⟩⟩

/-! ### Words -/

theorem word_lexeme (hc : IsLetter c) : Lexeme (Cut.word c rest).piece (Cut.word c rest).text :=
  lexeme_of_word ⟨c, _, rfl, hc, fun _ hd => continuesWord_iff.mp (mem_takeWhile hd)⟩ _ rfl

/-- A word at the front, of the kind that it has by itself, is no longer than what is cut off. -/
theorem word_beats {kind : Kind} (bare : kind.Bare) (hc : IsLetter c)
    (htext : ∀ d ∈ text, IsLetter d ∨ IsDigit d)
    (hkind : wordKind (String.ofList (c :: text)) = kind) (hfront : text <+: rest) :
    (Cut.word c rest).Beats (.token (.bare kind bare)) (c :: text) := by
  refine ⟨word_lexeme hc, ?_⟩
  obtain ⟨after, rfl⟩ := hfront
  have hword : (text ++ after).takeWhile continuesWord = text ++ after.takeWhile continuesWord :=
    List.takeWhile_append_of_pos fun d hd => continuesWord_iff.mpr (htext d hd)
  cases hmore : after.takeWhile continuesWord with
  | nil =>
    rw [hmore, List.append_nil] at hword
    refine .inr ⟨congrArg (c :: ·) hword.symm, ?_⟩
    exact token_bare_congr (hkind.symm.trans (by rw [hword])) _ _
  | cons d more =>
    refine .inl ?_
    show _ < (c :: (text ++ after).takeWhile continuesWord).length
    simp [hword, hmore]

/-! ### Numbers -/

theorem digits_takeWhile (hc : IsDigit c) : Digits (c :: rest.takeWhile Char.isDigit) :=
  ⟨List.cons_ne_nil _ _, List.forall_mem_cons.mpr ⟨hc, fun _ hd =>
    isDigit_iff.mp (mem_takeWhile hd)⟩⟩

theorem digits_lexeme (hc : IsDigit c) :
    Lexeme (Cut.digits c rest).piece (Cut.digits c rest).text := by
  unfold Cut.digits
  dsimp only
  split
  · split
    · next hd => exact .fraction (digits_takeWhile hc) (digits_takeWhile (isDigit_iff.mp hd))
    · exact .integer (digits_takeWhile hc)
  · exact .integer (digits_takeWhile hc)

theorem length_le_digits (c : Char) (rest : List Char) :
    (c :: rest.takeWhile Char.isDigit).length ≤ (Cut.digits c rest).text.length := by
  unfold Cut.digits
  dsimp only
  split
  · split
    · simp
    · exact Nat.le_refl _
  · exact Nat.le_refl _

theorem digits_beats_integer (hc : IsDigit c) (htext : ∀ d ∈ text, IsDigit d)
    (hfront : text <+: rest) :
    (Cut.digits c rest).Beats (.token (.number (Decimal.read (c :: text) []))) (c :: text) := by
  refine ⟨digits_lexeme hc, ?_⟩
  obtain ⟨after, rfl⟩ := hfront
  have hwhole : (text ++ after).takeWhile Char.isDigit = text ++ after.takeWhile Char.isDigit :=
    List.takeWhile_append_of_pos fun d hd => isDigit_iff.mpr (htext d hd)
  have hend : (text ++ after).dropWhile Char.isDigit = after.dropWhile Char.isDigit :=
    List.dropWhile_append_of_pos fun d hd => isDigit_iff.mpr (htext d hd)
  cases hmore : after.takeWhile Char.isDigit with
  | cons d more =>
    refine .inl (Nat.lt_of_lt_of_le ?_ (length_le_digits c _))
    simp [hwhole, hmore]
  | nil =>
    -- The digits end where the integer does, but a fraction may follow them.
    unfold Cut.digits
    dsimp only
    rw [hwhole, hend, hmore, List.append_nil]
    split
    · split
      · exact .inl (by simp)
      · exact .inr ⟨rfl, rfl⟩
    · exact .inr ⟨rfl, rfl⟩

theorem digits_of_fraction {d : Char} {more : List Char} (hd : d.isDigit = true)
    (hend : rest.dropWhile Char.isDigit = '.' :: d :: more) :
    let whole := c :: rest.takeWhile Char.isDigit
    let fraction := d :: more.takeWhile Char.isDigit
    Cut.digits c rest = ⟨.token (.number (Decimal.read whole fraction)), whole ++ '.' :: fraction,
      more.dropWhile Char.isDigit⟩ := by
  unfold Cut.digits
  rw [hend]
  exact if_pos hd

theorem digits_beats_fraction {d : Char} {fraction : List Char} (hc : IsDigit c)
    (htext : ∀ d ∈ text, IsDigit d) (hd : IsDigit d) (hfraction : ∀ e ∈ fraction, IsDigit e)
    (hfront : text ++ '.' :: d :: fraction <+: rest) :
    (Cut.digits c rest).Beats (.token (.number (Decimal.read (c :: text) (d :: fraction))))
      (c :: (text ++ '.' :: d :: fraction)) := by
  refine ⟨digits_lexeme hc, ?_⟩
  obtain ⟨after, hafter⟩ := hfront
  have hp : ∀ d ∈ text, d.isDigit = true := fun d hd => isDigit_iff.mpr (htext d hd)
  have hq : ∀ e ∈ fraction, e.isDigit = true := fun e he => isDigit_iff.mpr (hfraction e he)
  have hrest : rest = text ++ '.' :: d :: (fraction ++ after) := by
    rw [← hafter, List.append_assoc, List.cons_append, List.cons_append]
  have hwhole : rest.takeWhile Char.isDigit = text := by
    rw [hrest, List.takeWhile_append_of_pos hp, List.takeWhile_cons_of_neg (by decide),
      List.append_nil]
  have hend : rest.dropWhile Char.isDigit = '.' :: d :: (fraction ++ after) := by
    rw [hrest, List.dropWhile_append_of_pos hp, List.dropWhile_cons_of_neg (by decide)]
  rw [digits_of_fraction (isDigit_iff.mpr hd) hend, hwhole, List.takeWhile_append_of_pos hq]
  cases after.takeWhile Char.isDigit with
  | nil => exact .inr ⟨by simp, by rw [List.append_nil]⟩
  | cons e more => exact .inl (by simp)

end Cut

/-! ### Any piece -/

theorem cut_of_blank (hc : isBlank c = true) : cut c rest = ⟨.layout, [c], rest⟩ := by
  rw [isBlank_iff] at hc
  simp only [List.mem_cons, List.not_mem_nil, or_false] at hc
  rcases hc with rfl | rfl | rfl | rfl <;> rfl

theorem cut_of_digit (hc : c.isDigit = true) : cut c rest = .digits c rest := by
  unfold cut
  split
  case h_17 =>
    rw [if_neg, if_pos hc]
    intro hblank
    rw [isBlank_iff] at hblank
    simp only [List.mem_cons, List.not_mem_nil, or_false] at hblank
    rcases hblank with rfl | rfl | rfl | rfl <;> exact absurd hc (by decide)
  all_goals exact absurd hc (by decide)

theorem cut_of_letter (hc : startsWord c = true) : cut c rest = .word c rest := by
  have hdigit : c.isDigit = false := by
    rw [startsWord_iff] at hc
    rw [Bool.eq_false_iff, Ne, isDigit_iff]
    rintro ⟨hlow, hhigh⟩
    rcases hc with hc | hc | rfl
    · exact absurd (Char.le_trans hc.1 hhigh) (by decide)
    · exact absurd (Char.le_trans hc.1 hhigh) (by decide)
    · exact absurd hhigh (by decide)
  unfold cut
  split
  case h_17 =>
    rw [if_neg, hdigit, if_neg Bool.false_ne_true, if_pos hc]
    intro hblank
    rw [isBlank_iff] at hblank
    simp only [List.mem_cons, List.not_mem_nil, or_false] at hblank
    rcases hblank with rfl | rfl | rfl | rfl <;> exact absurd hc (by decide)
  all_goals exact absurd hc (by decide)

theorem cut_beats_single {kind : Kind} (bare : kind.Bare)
    (hcut : cut c rest = .single c kind rest bare) (h : ([c], kind) ∈ signs) :
    (cut c rest).Beats (.token (.bare kind bare)) [c] := by
  rw [hcut]
  exact ⟨.sign bare h, .inr ⟨rfl, rfl⟩⟩

theorem cut_beats_sign {kind : Kind} (bare : kind.Bare) (h : (text, kind) ∈ signs)
    (hfront : text <+: c :: rest) : (cut c rest).Beats (.token (.bare kind bare)) text := by
  simp only [signs, List.mem_cons, List.not_mem_nil, or_false, Prod.mk.injEq] at h
  rcases h with ⟨rfl, rfl⟩ | ⟨rfl, rfl⟩ | ⟨rfl, rfl⟩ | ⟨rfl, rfl⟩ | ⟨rfl, rfl⟩ | ⟨rfl, rfl⟩ |
    ⟨rfl, rfl⟩ | ⟨rfl, rfl⟩ | ⟨rfl, rfl⟩ | ⟨rfl, rfl⟩ | ⟨rfl, rfl⟩ | ⟨rfl, rfl⟩ | ⟨rfl, rfl⟩ |
    ⟨rfl, rfl⟩ | ⟨rfl, rfl⟩ | ⟨rfl, rfl⟩ | ⟨rfl, rfl⟩ | ⟨rfl, rfl⟩ | ⟨rfl, rfl⟩
  all_goals obtain ⟨rfl, hmore⟩ := List.cons_prefix_cons.mp hfront
  -- Signs that no other one begins with come first, then the slash, and then those in pairs.
  all_goals try exact cut_beats_single bare rfl (by simp [signs])
  · exact Cut.slash_beats_slash bare
  · exact Cut.extensible_beats_short (by decide) (by simp [signs]) (by simp [signs])
  · exact Cut.extensible_beats_long (by decide) (by simp [signs]) hmore
  · exact Cut.extensible_beats_short (by decide) (by simp [signs]) (by simp [signs])
  · exact Cut.extensible_beats_long (by decide) (by simp [signs]) hmore
  · exact Cut.extensible_beats_short (by decide) (by simp [signs]) (by simp [signs])
  · exact Cut.extensible_beats_long (by decide) (by simp [signs]) hmore
  · exact Cut.extensible_beats_short (by decide) (by simp [signs]) (by simp [signs])
  · exact Cut.extensible_beats_long (by decide) (by simp [signs]) hmore

theorem cut_beats_word {kind : Kind} (bare : kind.Bare) (h : Word text)
    (hkind : wordKind (String.ofList text) = kind) (hfront : text <+: c :: rest) :
    (cut c rest).Beats (.token (.bare kind bare)) text := by
  obtain ⟨d, text, rfl, hd, htext⟩ := h
  obtain ⟨rfl, hmore⟩ := List.cons_prefix_cons.mp hfront
  rw [cut_of_letter (startsWord_iff.mpr hd)]
  exact Cut.word_beats bare hd htext hkind hmore

/-- Whatever stands at the front of a text is no longer than the piece that is cut off. -/
theorem cut_beats (h : Lexeme piece text) (hfront : text <+: c :: rest) :
    (cut c rest).Beats piece text := by
  cases h with
  | sign bare h => exact cut_beats_sign bare h hfront
  | @integer whole h =>
    obtain ⟨hne, hdigits⟩ := h
    obtain ⟨d, whole, rfl⟩ := List.exists_cons_of_ne_nil hne
    obtain ⟨rfl, hmore⟩ := List.cons_prefix_cons.mp hfront
    obtain ⟨hd, hwhole⟩ := List.forall_mem_cons.mp hdigits
    rw [cut_of_digit (isDigit_iff.mpr hd)]
    exact Cut.digits_beats_integer hd hwhole hmore
  | @fraction whole fraction h h' =>
    obtain ⟨d, whole, rfl⟩ := List.exists_cons_of_ne_nil h.1
    obtain ⟨e, fraction, rfl⟩ := List.exists_cons_of_ne_nil h'.1
    obtain ⟨rfl, hmore⟩ := List.cons_prefix_cons.mp hfront
    obtain ⟨hd, hwhole⟩ := List.forall_mem_cons.mp h.2
    obtain ⟨he, hfraction⟩ := List.forall_mem_cons.mp h'.2
    rw [cut_of_digit (isDigit_iff.mpr hd)]
    exact Cut.digits_beats_fraction hd hwhole he hfraction hmore
  | keyword bare h hkind => exact cut_beats_word bare h (wordKind_of_mem hkind) hfront
  | identifier bare h hnone => exact cut_beats_word bare h (wordKind_of_not_mem hnone) hfront
  | string h =>
    obtain ⟨rfl, hmore⟩ := List.cons_prefix_cons.mp hfront
    exact Cut.quoted_beats h hmore
  | blank h =>
    obtain ⟨rfl, -⟩ := List.cons_prefix_cons.mp hfront
    rw [cut_of_blank (isBlank_iff.mpr h)]
    exact ⟨.blank h, .inr ⟨rfl, rfl⟩⟩
  | comment h =>
    obtain ⟨rfl, hmore⟩ := List.cons_prefix_cons.mp hfront
    exact Cut.slash_beats_comment h hmore

/-- What is cut off is a piece, unless nothing starts at the front. -/
theorem cut_lexeme (c : Char) (rest : List Char) :
    Lexeme (cut c rest).piece (cut c rest).text ∨
      (cut c rest = ⟨.unexpected, [c], rest⟩ ∧ c ≠ '"') ∨
      (cut c rest = ⟨.unterminated, '"' :: rest, []⟩ ∧ c = '"' ∧ '"' ∉ rest) := by
  unfold cut
  split
  case h_17 =>
    split
    · next hc => exact .inl (.blank (isBlank_iff.mp hc))
    · split
      · next hc => exact .inl (Cut.digits_lexeme (isDigit_iff.mp hc))
      · split
        · next hc => exact .inl (Cut.word_lexeme (startsWord_iff.mp hc))
        · next hquote _ _ _ => exact .inr (.inl ⟨rfl, hquote⟩)
  case h_15 => exact .inl (Cut.slash_beats_slash (by decide)).lexeme
  case h_16 =>
    have hcover := List.takeWhile_append_dropWhile (p := (· ≠ '"')) (l := rest)
    have hbody := Cursor.not_mem_takeWhile (p := (· ≠ '"')) (c := '"') (by decide) rest
    unfold Cut.quoted
    dsimp only
    split
    · next hnone =>
      rw [hnone, List.append_nil] at hcover
      exact .inr (.inr ⟨rfl, rfl, hcover ▸ hbody⟩)
    · next hsome =>
      obtain rfl := Cursor.eq_of_dropWhile_ne hsome
      exact .inl (.string hbody)
  case h_11 | h_12 | h_13 | h_14 =>
    exact .inl (Cut.extensible_beats_short _ (by simp [signs]) (by simp [signs])).lexeme
  all_goals exact .inl (.sign _ (by simp [signs, Cut.single]))

/-! ## Pieces of a source -/

theorem Longest.unique {source other : List Char} {piece' : Piece} (h : Longest source piece text)
    (k : Longest source piece' other) : other = text ∧ piece' = piece := by
  rcases h.longer _ _ k.lexeme k.front with hlt | hsame
  · rcases k.longer _ _ h.lexeme h.front with hgt | hsame
    · exact absurd hlt (Nat.lt_asymm hgt)
    · exact ⟨hsame.1.symm, hsame.2.symm⟩
  · exact hsame

/-- A source has its pieces in one way only. -/
theorem Lexes.unique {source : List Char} {pieces others : List (Piece × List Char)}
    (h : Lexes source pieces) (k : Lexes source others) : others = pieces := by
  induction h generalizing others with
  | done =>
    cases k with
    | done => rfl
    | longest hlong hsource _ =>
      obtain ⟨hnil, -⟩ := List.append_eq_nil_iff.mp hsource.symm
      exact absurd hnil hlong.lexeme.ne_nil
  | longest hlong hsource _ ih =>
    cases k with
    | done =>
      obtain ⟨hnil, -⟩ := List.append_eq_nil_iff.mp hsource.symm
      exact absurd hnil hlong.lexeme.ne_nil
    | longest hlong' hsource' hrest =>
      obtain ⟨rfl, rfl⟩ := hlong.unique hlong'
      obtain rfl := List.append_cancel_left (hsource.symm.trans hsource')
      rw [ih hrest]
    | unexpected hnone _ _ | unterminated hnone _ =>
      exact absurd hlong.front (hnone _ _ hlong.lexeme)
  | unexpected hnone hquote _ ih =>
    cases k with
    | longest hlong _ _ => exact absurd hlong.front (hnone _ _ hlong.lexeme)
    | unexpected _ _ hrest => rw [ih hrest]
    | unterminated _ _ => exact absurd rfl hquote
  | unterminated hnone _ =>
    cases k with
    | longest hlong _ _ => exact absurd hlong.front (hnone _ _ hlong.lexeme)
    | unexpected _ hquote _ => exact absurd rfl hquote
    | unterminated _ _ => rfl

theorem unmatched_of_cut (h : ¬Lexeme (cut c rest).piece (cut c rest).text) :
    Unmatched (c :: rest) := fun _ _ hlex hfront => h (cut_beats hlex hfront).lexeme

/-- One step: the pieces behind what was cut off are those of what is left. -/
theorem Lexes.of_cut {pieces : List (Piece × List Char)} (h : Lexes (cut c rest).rest pieces) :
    Lexes (c :: rest) (((cut c rest).piece, (cut c rest).text) :: pieces) := by
  have hcover := (cut_covers c rest).2
  rcases cut_lexeme c rest with hlex | ⟨hcut, hquote⟩ | ⟨hcut, rfl, hquote⟩
  · exact .longest ⟨hlex, ⟨_, hcover⟩, fun _ _ hother hfront => (cut_beats hother hfront).longer⟩
      hcover.symm h
  · have hnone : Unmatched (c :: rest) := unmatched_of_cut fun hlex => by
      rw [hcut] at hlex
      cases hlex
    rw [hcut] at h ⊢
    exact .unexpected hnone hquote h
  · have hnone : Unmatched ('"' :: rest) := unmatched_of_cut fun hlex => by
      rw [hcut] at hlex
      cases hlex
    rw [hcut] at h ⊢
    cases h with
    | done => exact .unterminated hnone hquote
    | longest hlong hnil _ =>
      obtain ⟨hnil, -⟩ := List.append_eq_nil_iff.mp hnil.symm
      exact absurd hnil hlong.lexeme.ne_nil

/-! ## What is found in a source -/

namespace Piece

/-- The token that a piece is, wherever it stands. -/
def word? : Piece × List Char → Option (Form × String)
  | (token form, text) => some (form, String.ofList text)
  | (layout, _) | (unexpected, _) | (unterminated, _) => none

/-- What is said of a piece that is a fault. -/
def complaint? : Piece × List Char → Option String
  | (unexpected, _) => some "Unexpected character."
  | (unterminated, _) => some "Unterminated string."
  | (layout, _) | (token _, _) => none

end Piece

/-- The tokens and the faults of a text are those of its pieces. -/
theorem exists_lexes (p : Position) (text : List Char) : ∃ pieces, Lexes text pieces ∧
    (Scan.ofText p text).tokens.map (fun t => (t.form, t.lexeme)) =
      pieces.filterMap Piece.word? ++ [(.bare .eof Kind.bare_eof, "")] ∧
    (Scan.ofText p text).errors.map (fun e => e.diagnostic.message) =
      pieces.filterMap Piece.complaint? := by
  induction p, text using Scan.ofText.induct with
  | case1 p =>
    rw [Scan.ofText]
    exact ⟨[], .done, rfl, rfl⟩
  | case2 p c rest k stop ih =>
    obtain ⟨pieces, hlexes, htokens, herrors⟩ := ih
    refine ⟨_, hlexes.of_cut, ?_, ?_⟩
    · rw [Scan.ofText, Scan.addPiece_eq]
      dsimp only
      rw [List.map_append, htokens, List.filterMap_cons]
      cases (cut c rest).piece <;> rfl
    · rw [Scan.ofText, Scan.addPiece_eq]
      dsimp only
      rw [List.map_append, herrors, List.filterMap_cons]
      cases (cut c rest).piece <;> rfl

theorem Lexes.lexeme {source text : List Char} {pieces : List (Piece × List Char)} {form : Form}
    (h : Lexes source pieces) (hmem : (.token form, text) ∈ pieces) :
    Lexeme (.token form) text := by
  induction h with
  | done => simp at hmem
  | longest hlongest _ _ ih =>
    rcases List.mem_cons.mp hmem with heq | hmem
    · cases heq
      exact hlongest.lexeme
    · exact ih hmem
  | unexpected _ _ _ ih =>
    rcases List.mem_cons.mp hmem with heq | hmem
    · cases heq
    · exact ih hmem
  | unterminated => simp at hmem

/-- The spelling of a token is a lexeme, and by itself it is what the token is. -/
theorem Scan.lexeme_of_mem {p : Position} {text : List Char} {t : Token}
    (ht : t ∈ (ofText p text).tokens) (hkind : t.kind ≠ .eof) :
    Lexeme (.token t.form) t.lexeme.toList := by
  obtain ⟨pieces, hlexes, htokens, -⟩ := exists_lexes p text
  have hmem : (t.form, t.lexeme) ∈ (ofText p text).tokens.map fun t => (t.form, t.lexeme) :=
    List.mem_map_of_mem ht
  rw [htokens, List.mem_append, List.mem_singleton, List.mem_filterMap] at hmem
  rcases hmem with ⟨⟨piece, spelled⟩, hmem, hword⟩ | hend
  · cases piece with
    | token form =>
      obtain ⟨rfl, hlexeme⟩ := Prod.mk.inj (Option.some.inj hword)
      rw [← hlexeme, String.toList_ofList]
      exact hlexes.lexeme hmem
    | layout | unexpected | unterminated => cases hword
  · obtain ⟨hform, -⟩ := Prod.mk.inj hend
    rw [Token.kind, hform] at hkind
    exact absurd rfl hkind

/-- Scanning takes the longest piece wherever one starts, and there is one way to do so.  Its tokens
and faults are those of these pieces, with one token more at the end. -/
theorem scan_takes_longest (source : String) : ∃ s pieces, Cursor.run source = some s ∧
    (∀ others, Lexes source.toList others ↔ others = pieces) ∧
    s.tokens.map (fun t => (t.form, t.lexeme)) =
      pieces.filterMap Piece.word? ++ [(.bare .eof Kind.bare_eof, "")] ∧
    s.errors.map (fun e => e.diagnostic.message) = pieces.filterMap Piece.complaint? := by
  obtain ⟨pieces, hlexes, htokens, herrors⟩ := exists_lexes .start source.toList
  refine ⟨scan source, pieces, Cursor.run_eq source, fun others => ⟨hlexes.unique, ?_⟩, htokens,
    herrors⟩
  rintro rfl
  exact hlexes

end Lox
