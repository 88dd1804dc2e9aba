import Lox.Source.Tokens

/-!
Scanning a text that goes on behind a newline.

No piece but an unterminated string looks across the end of its line for anything, so what stands
in front of a newline is cut as if nothing followed, and what stands behind it is cut as if it
started a text of its own, only some lines further down.
-/

namespace Lox

variable {b : List Char}

/-! ## Pieces in front of a newline -/

theorem takeWhile_newline {p : Char → Bool} (hp : p '\n' = false) (a : List Char) :
    (a ++ '\n' :: b).takeWhile p = a.takeWhile p := by
  induction a with
  | nil => rw [List.nil_append, List.takeWhile_cons, hp]; rfl
  | cons c a ih => rw [List.cons_append, List.takeWhile_cons, List.takeWhile_cons, ih]

theorem dropWhile_newline {p : Char → Bool} (hp : p '\n' = false) (a : List Char) :
    (a ++ '\n' :: b).dropWhile p = a.dropWhile p ++ '\n' :: b := by
  induction a with
  | nil => rw [List.nil_append, List.dropWhile_cons, hp]; rfl
  | cons c a ih =>
    rw [List.cons_append, List.dropWhile_cons, List.dropWhile_cons, ih]
    split <;> rfl

namespace Cut

/-- The same cut with more text behind a newline. -/
def before (k : Cut) (b : List Char) : Cut := { k with rest := k.rest ++ '\n' :: b }

theorem extensible_before (c : Char) (short long : Kind) (rest : List Char)
    (bare : short.Bare ∧ long.Bare) :
    Cut.extensible c short long (rest ++ '\n' :: b) bare =
      (Cut.extensible c short long rest bare).before b := by
  unfold Cut.extensible
  cases rest with
  | nil => rfl
  | cons d rest => by_cases hd : d = '=' <;> simp [hd, before, Cut.single]

theorem slash_before (rest : List Char) :
    Cut.slash (rest ++ '\n' :: b) = (Cut.slash rest).before b := by
  unfold Cut.slash
  cases rest with
  | nil => rfl
  | cons d rest =>
    by_cases hd : d = '/'
    · subst hd
      have ht := takeWhile_newline (p := (· ≠ '\n')) (b := b) (by decide) ('/' :: rest)
      have hdrop := dropWhile_newline (p := (· ≠ '\n')) (b := b) (by decide) ('/' :: rest)
      simp only [List.cons_append] at ht hdrop ⊢
      rw [ht, hdrop]
      rfl
    · simp [hd, before, Cut.single]

/-- A string that is closed in front of the newline ends where it did. -/
theorem quoted_before {rest : List Char} (h : (Cut.quoted rest).piece ≠ .unterminated) :
    Cut.quoted (rest ++ '\n' :: b) = (Cut.quoted rest).before b := by
  have hcover := List.takeWhile_append_dropWhile (p := (· ≠ '"')) (l := rest)
  unfold Cut.quoted at h ⊢
  dsimp only at h ⊢
  cases hd : rest.dropWhile (· ≠ '"') with
  | nil =>
    rw [hd] at h
    exact absurd rfl h
  | cons quote more =>
    have hlen : (rest.takeWhile (· ≠ '"')).length ≠ rest.length := by
      have := congrArg List.length hcover
      rw [List.length_append, hd, List.length_cons] at this
      omega
    rw [List.takeWhile_append, if_neg hlen, List.dropWhile_append, hd]
    rfl

theorem digits_before (c : Char) (rest : List Char) :
    Cut.digits c (rest ++ '\n' :: b) = (Cut.digits c rest).before b := by
  unfold Cut.digits
  rw [takeWhile_newline (by decide), dropWhile_newline (by decide)]
  dsimp only
  cases rest.dropWhile Char.isDigit with
  | nil => rfl
  | cons d more =>
    by_cases hd : d = '.'
    · subst hd
      cases more with
      | nil => rfl
      | cons e more =>
        simp only [List.cons_append]
        split
        · rw [takeWhile_newline (by decide), dropWhile_newline (by decide)]
          rfl
        · rfl
    · simp [hd, before]

theorem word_before (c : Char) (rest : List Char) :
    Cut.word c (rest ++ '\n' :: b) = (Cut.word c rest).before b := by
  simp only [Cut.word, takeWhile_newline (p := continuesWord) (by decide),
    dropWhile_newline (p := continuesWord) (by decide), before]

end Cut

theorem cut_before (c : Char) {rest : List Char} (h : (cut c rest).piece ≠ .unterminated) :
    cut c (rest ++ '\n' :: b) = (cut c rest).before b := by
  unfold cut at h ⊢
  split
  case h_17 =>
    split
    · rfl
    · split
      · exact Cut.digits_before _ _
      · split
        · exact Cut.word_before _ _
        · rfl
  case h_15 => exact Cut.slash_before rest
  case h_16 => exact Cut.quoted_before h
  case h_11 | h_12 | h_13 | h_14 => exact Cut.extensible_before _ _ _ _ _
  all_goals rfl

/-! ## Scanning across a newline -/

namespace Scan

theorem tokens_addPiece_ne_nil (piece : Piece) (text : List Char) (start stop : Position)
    {s : Scan} (h : s.tokens ≠ []) : (s.addPiece piece text start stop).tokens ≠ [] := by
  cases piece with
  | token form => exact List.cons_ne_nil _ _
  | layout | unexpected | unterminated => exact h

theorem tokens_ne_nil (p : Position) (a : List Char) : (ofText p a).tokens ≠ [] := by
  induction p, a using ofText.induct with
  | case1 p =>
    rw [ofText]
    exact List.cons_ne_nil _ _
  | case2 p c rest k stop ih =>
    rw [ofText]
    exact tokens_addPiece_ne_nil _ _ _ _ ih

/-- Whether every string is closed. -/
def Closed (s : Scan) : Prop := ∀ e ∈ s.errors, e.fault ≠ .unterminatedString

/-- A scan that goes on with another one instead of ending. -/
def append (s t : Scan) : Scan := ⟨s.tokens.dropLast ++ t.tokens, s.errors ++ t.errors⟩

theorem addPiece_append {piece : Piece} (text : List Char) (start stop : Position) {s : Scan}
    (t : Scan) (hs : s.tokens ≠ []) :
    (s.append t).addPiece piece text start stop =
      (s.addPiece piece text start stop).append t := by
  cases piece with
  | token form =>
    simp only [addPiece, append, List.dropLast_cons_of_ne_nil hs, List.cons_append]
  | layout | unexpected | unterminated => rfl

theorem closed_of_addPiece {piece : Piece} {text : List Char} {start stop : Position} {s : Scan}
    (h : (s.addPiece piece text start stop).Closed) : piece ≠ .unterminated ∧ s.Closed := by
  cases piece with
  | layout | token form => exact ⟨nofun, h⟩
  | unexpected => exact ⟨nofun, fun e he => h e (List.mem_cons_of_mem _ he)⟩
  | unterminated => exact absurd rfl (h _ List.mem_cons_self)

/-- What stands behind a newline is scanned as if the text started at the beginning of that
line. -/
theorem ofText_newline {p : Position} {a : List Char} (b : List Char) (h : (ofText p a).Closed) :
    ofText p (a ++ '\n' :: b) =
      (ofText p a).append (ofText ⟨(p.advance a).line + 1, 1⟩ b) := by
  induction p, a using ofText.induct with
  | case1 p =>
    rw [List.nil_append, ofText, ofText]
    rfl
  | case2 p c rest k stop ih =>
    rw [ofText] at h
    obtain ⟨hpiece, hclosed⟩ := closed_of_addPiece h
    have hcut := cut_before (b := b) c hpiece
    have hadvance : p.advance (c :: rest) = stop.advance k.rest := by
      rw [← (cut_covers c rest).2, Position.advance_append]
    rw [List.cons_append, ofText, hcut, hadvance]
    conv => rhs; rw [ofText]
    rw [← addPiece_append _ _ _ _ (tokens_ne_nil _ _), ← ih hclosed]
    rfl

end Scan

/-! ## Lines further down -/

def Token.down (k : Nat) (t : Token) : Token := { t with line := t.line + k }

def ScanError.down (k : Nat) (e : ScanError) : ScanError := { e with line := e.line + k }

namespace Position

def down (k : Nat) (p : Position) : Position := { p with line := p.line + k }

theorem advance_down (k : Nat) (p : Position) (text : List Char) :
    (p.down k).advance text = (p.advance text).down k := by
  induction text generalizing p with
  | nil => rfl
  | cons c text ih =>
    rw [advance_cons, advance_cons, ← ih]
    congr 1
    unfold step down
    split
    · simp only [Nat.add_right_comm]
    · rfl

theorem line_advance (p : Position) (text : List Char) :
    (p.advance text).line = p.line + text.count '\n' := by
  induction text generalizing p with
  | nil => rfl
  | cons c text ih =>
    rw [advance_cons, ih, List.count_cons]
    unfold step
    by_cases hc : c = '\n'
    · rw [if_pos hc, if_pos (by simpa using hc), Nat.add_right_comm, Nat.add_assoc]
    · rw [if_neg hc, if_neg (by simpa using hc), Nat.add_zero]

end Position

namespace Scan

def down (k : Nat) (s : Scan) : Scan := ⟨s.tokens.map (·.down k), s.errors.map (·.down k)⟩

theorem ofText_down (k : Nat) (p : Position) (a : List Char) :
    ofText (p.down k) a = (ofText p a).down k := by
  induction p, a using ofText.induct with
  | case1 p =>
    rw [ofText, ofText]
    rfl
  | case2 p c rest piece stop ih =>
    rw [ofText, ofText, Position.advance_down, ih]
    cases (cut c rest).piece <;> rfl

/-- Scanning two texts with a newline between them. -/
theorem ofText_join {a : List Char} (b : List Char) (h : (ofText .start a).Closed) :
    ofText .start (a ++ '\n' :: b) =
      (ofText .start a).append ((ofText .start b).down (a.count '\n' + 1)) := by
  have hplace : (⟨(Position.start.advance a).line + 1, 1⟩ : Position) =
      Position.start.down (a.count '\n' + 1) := by
    rw [Position.line_advance, Nat.add_assoc]
    rfl
  rw [ofText_newline b h, hplace, ofText_down]

end Scan

/-! ## The token at the end -/

theorem wordKind_ne_eof (word : String) : wordKind word ≠ .eof := by
  unfold wordKind
  cases h : reserved.lookup word with
  | none => decide
  | some kind =>
    have hlisted : ∀ entry ∈ reserved, entry.2 ≠ .eof := by decide
    obtain ⟨before, after, hsplit, _⟩ := List.lookup_eq_some_iff.mp h
    exact hlisted (word, kind) (by simp [hsplit])

theorem Cut.extensible_ne_eof {c : Char} {short long : Kind} {rest : List Char}
    {bare : short.Bare ∧ long.Bare} {form : Form} (hshort : short ≠ .eof) (hlong : long ≠ .eof)
    (h : (Cut.extensible c short long rest bare).piece = .token form) : form.kind ≠ .eof := by
  unfold Cut.extensible at h
  split at h
  · cases h
    exact hlong
  · cases h
    exact hshort

theorem Cut.digits_ne_eof {c : Char} {rest : List Char} {form : Form}
    (h : (Cut.digits c rest).piece = .token form) : form.kind ≠ .eof := by
  unfold Cut.digits at h
  dsimp only at h
  split at h
  · split at h <;> cases h <;> exact nofun
  · cases h
    exact nofun

theorem cut_ne_eof {c : Char} {rest : List Char} {form : Form}
    (h : (cut c rest).piece = .token form) : form.kind ≠ .eof := by
  unfold cut at h
  split at h
  case h_17 =>
    split at h
    · cases h
    split at h
    · exact Cut.digits_ne_eof h
    split at h
    · cases h
      exact wordKind_ne_eof _
    · cases h
  case h_15 =>
    unfold Cut.slash at h
    split at h
    · cases h
    · cases h
      decide
  case h_16 =>
    unfold Cut.quoted at h
    dsimp only at h
    split at h
    · cases h
    · cases h
      show Kind.string ≠ .eof
      decide
  case h_11 | h_12 | h_13 | h_14 => exact Cut.extensible_ne_eof (by decide) (by decide) h
  all_goals
    cases h
    decide

namespace Scan

/-- Only the last token is of the kind that marks the end. -/
theorem tokens_eq (p : Position) (a : List Char) : ∃ ts e,
    (ofText p a).tokens = ts ++ [e] ∧ e.kind = .eof ∧ ∀ t ∈ ts, t.kind ≠ .eof := by
  induction p, a using ofText.induct with
  | case1 p =>
    rw [ofText]
    exact ⟨[], _, rfl, rfl, fun _ h => nomatch h⟩
  | case2 p c rest k stop ih =>
    obtain ⟨ts, e, hts, he, hne⟩ := ih
    rw [ofText]
    cases hpiece : (cut c rest).piece with
    | token form =>
      refine ⟨_ :: ts, e, congrArg (List.cons _) hts, he, List.forall_mem_cons.mpr ⟨?_, hne⟩⟩
      exact cut_ne_eof hpiece
    | layout | unexpected | unterminated => exact ⟨ts, e, hts, he, hne⟩

end Scan

end Lox
