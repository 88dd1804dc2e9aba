import Lox.Proofs.Source.Offsets

/-!
The pieces of a text tile it.

Every byte of a text belongs to one piece: a token, something to skip, or the text of a fault.  The
place of a piece counts what stands in front of it in the text, whatever pieces that was cut into.
-/

namespace Lox

/-! ## What is not a token -/

/-- A blank character, or a comment up to the end of its line. -/
def IsLayout (text after : List Char) : Prop :=
  (∃ c, isBlank c = true ∧ text = [c]) ∨
    (∃ body, text = '/' :: '/' :: body ∧ '\n' ∉ body) ∧
      (after = [] ∨ ∃ more, after = '\n' :: more)

/-- A quote with everything behind it, and no other quote. -/
def IsOpenString (text after : List Char) : Prop :=
  (∃ body, text = '"' :: body ∧ '"' ∉ body) ∧ after = []

namespace Cut

/-- Whether the text of a piece that is not a token is what the piece says. -/
def Shaped (k : Cut) : Prop :=
  match k.piece with
  | .token _ => True
  | .layout => IsLayout k.text k.rest
  | .unexpected => ∃ c, k.text = [c]
  | .unterminated => IsOpenString k.text k.rest

namespace Shaped

theorem extensible (c : Char) (short long : Kind) (rest : List Char)
    (bare : short.Bare ∧ long.Bare) : (Cut.extensible c short long rest bare).Shaped := by
  unfold Cut.extensible
  split <;> exact trivial

theorem slash (rest : List Char) : (Cut.slash rest).Shaped := by
  unfold Cut.slash
  split
  · next more =>
    refine .inr ⟨⟨more.takeWhile (· ≠ '\n'), ?_, Cursor.not_mem_takeWhile (by decide) more⟩, ?_⟩
    · rw [List.takeWhile_cons_of_pos (by decide)]
    · show List.dropWhile _ _ = [] ∨ _
      cases hafter : List.dropWhile (· ≠ '\n') ('/' :: more) with
      | nil => exact .inl rfl
      | cons d after =>
        obtain rfl := Cursor.eq_of_dropWhile_ne hafter
        exact .inr ⟨after, rfl⟩
  · exact trivial

theorem quoted (rest : List Char) : (Cut.quoted rest).Shaped := by
  have hcover := List.takeWhile_append_dropWhile (p := (· ≠ '"')) (l := rest)
  unfold Cut.quoted
  dsimp only
  split
  · next hnone =>
    rw [hnone, List.append_nil] at hcover
    have hquote : '"' ∉ rest := hcover ▸ Cursor.not_mem_takeWhile (by decide) rest
    exact ⟨⟨rest, rfl, hquote⟩, rfl⟩
  · exact trivial

theorem digits (c : Char) (rest : List Char) : (Cut.digits c rest).Shaped := by
  unfold Cut.digits
  dsimp only
  split
  · split <;> exact trivial
  · exact trivial

end Shaped
end Cut

theorem cut_shaped (c : Char) (rest : List Char) : (cut c rest).Shaped := by
  unfold cut
  split
  case h_17 =>
    split
    · next hblank => exact .inl ⟨_, hblank, rfl⟩
    · split
      · exact .digits _ _
      · split
        · exact trivial
        · exact ⟨_, rfl⟩
  case h_15 => exact .slash rest
  case h_16 => exact .quoted rest
  case h_11 | h_12 | h_13 | h_14 => exact .extensible _ _ _ _ _
  all_goals exact trivial

/-! ## Segments -/

/-- A part of a text, with what stands in front of it and behind it. -/
structure Segment (source : String) where
  before : List Char
  text : List Char
  after : List Char
  whole : before ++ text ++ after = source.toList
  nonempty : text ≠ []

/-- What a segment is. -/
inductive Content where
  | token (t : Token)
  | layout
  | fault (e : ScanError)

namespace Content

def token? : Content → Option Token
  | token t => some t
  | layout | fault _ => none

def error? : Content → Option ScanError
  | fault e => some e
  | token _ | layout => none

end Content

namespace Segment

variable {source : String} (s : Segment source)

/-- The offset of the first byte. -/
def start : Nat := bytes s.before

/-- The offset behind the last byte. -/
def stop : Nat := bytes (s.before ++ s.text)

/-- The line of the first byte. -/
def line : Nat := 1 + s.before.count '\n'

/-- The line behind the last byte. -/
def stopLine : Nat := 1 + (s.before ++ s.text).count '\n'

/-- The column of the first byte. -/
def column : Nat := 1 + bytes (lastLine s.before)

/-- Whether a segment is what it is said to be, and stands where that says. -/
def Fits : Content → Prop
  | .token t =>
    t.kind ≠ .eof ∧ t.lexeme = String.ofList s.text ∧ t.line = s.line ∧ t.column = s.column
  | .layout => IsLayout s.text s.after
  | .fault ⟨.unexpectedCharacter, line, column⟩ =>
    (∃ c, s.text = [c]) ∧ line = s.line ∧ column = s.column
  | .fault ⟨.unterminatedString, line, column⟩ =>
    IsOpenString s.text s.after ∧ line = s.stopLine ∧ column = s.column

theorem start_lt_stop : s.start < s.stop := by
  have hpos := bytes_pos s.nonempty
  unfold start stop
  rw [bytes_append]
  omega

/-- The bytes between the offsets of a segment encode its text. -/
theorem extract_eq :
    source.toByteArray.extract s.start s.stop = (String.ofList s.text).toByteArray := by
  have hsource : source.toByteArray = (s.before ++ s.text ++ s.after).utf8Encode := by
    rw [s.whole, ← String.toByteArray_ofList, String.ofList_toList]
  rw [hsource, String.toByteArray_ofList]
  exact extract_utf8Encode s.before s.text s.after

end Segment

/-- A segment with what it is. -/
structure Tile (source : String) extends Segment source where
  content : Content
  fits : toSegment.Fits content

variable {source : String}

/-- Whether tiles follow each other without a gap, from one offset to another. -/
def Tiles : Nat → List (Tile source) → Nat → Prop
  | start, [], stop => start = stop
  | start, t :: tiles, stop => t.start = start ∧ Tiles t.stop tiles stop

namespace Tiles

variable {start stop : Nat} {tiles : List (Tile source)}

theorem start_le (h : Tiles start tiles stop) : ∀ t ∈ tiles, start ≤ t.start := by
  induction tiles generalizing start with
  | nil => exact fun t ht => absurd ht List.not_mem_nil
  | cons t tiles ih =>
    obtain ⟨hstart, hrest⟩ := h
    have hlt := t.start_lt_stop
    refine List.forall_mem_cons.mpr ⟨Nat.le_of_eq hstart.symm, fun u hu => ?_⟩
    have hle := ih hrest u hu
    omega

theorem pairwise (h : Tiles start tiles stop) : tiles.Pairwise fun t u => t.stop ≤ u.start := by
  induction tiles generalizing start with
  | nil => exact .nil
  | cons t tiles ih => exact .cons h.2.start_le (ih h.2)

end Tiles

/-! ## The tiles of a scan -/

namespace Piece

/-- What a segment is that was cut off as a piece. -/
def content (text : List Char) (start stop : Position) : Piece → Content
  | token form => .token ⟨form, String.ofList text, start.line, start.column⟩
  | layout => .layout
  | unexpected => .fault ⟨.unexpectedCharacter, start.line, start.column⟩
  | unterminated => .fault ⟨.unterminatedString, stop.line, start.column⟩

theorem token?_content (piece : Piece) (text : List Char) (start stop : Position) :
    (piece.content text start stop).token? = piece.token? text start := by
  cases piece <;> rfl

theorem error?_content (piece : Piece) (text : List Char) (start stop : Position) :
    (piece.content text start stop).error? = piece.error? start stop := by
  cases piece <;> rfl

end Piece

open Cursor (place)

theorem place_eq (before : List Char) :
    place before = ⟨1 + before.count '\n', 1 + bytes (lastLine before)⟩ :=
  Position.advance_start before

theorem Segment.fits_cut (s : Segment source) {c : Char} {rest : List Char}
    (htext : s.text = (cut c rest).text) (hafter : s.after = (cut c rest).rest) :
    s.Fits ((cut c rest).piece.content s.text (place s.before) (place (s.before ++ s.text))) := by
  have hshaped := cut_shaped c rest
  unfold Cut.Shaped at hshaped
  rw [← htext, ← hafter] at hshaped
  rw [place_eq, place_eq]
  cases hpiece : (cut c rest).piece with
  | token form => exact ⟨cut_ne_eof hpiece, rfl, rfl, rfl⟩
  | layout =>
    rw [hpiece] at hshaped
    exact hshaped
  | unexpected | unterminated =>
    rw [hpiece] at hshaped
    exact ⟨hshaped, rfl, rfl⟩

/-- The tile at the front of what is ahead. -/
def Tile.ofCut (before : List Char) (c : Char) (rest : List Char)
    (h : before ++ c :: rest = source.toList) : Tile source :=
  let s : Segment source :=
    ⟨before, (cut c rest).text, (cut c rest).rest, by
      rw [List.append_assoc, (cut_covers c rest).2, h], (cut_covers c rest).1⟩
  ⟨s, _, s.fits_cut rfl rfl⟩

theorem Tile.token?_ofCut {before rest : List Char} {c : Char}
    (h : before ++ c :: rest = source.toList) : (Tile.ofCut before c rest h).content.token? =
      (cut c rest).piece.token? (cut c rest).text (place before) :=
  Piece.token?_content _ _ _ _

theorem Tile.error?_ofCut {before rest : List Char} {c : Char}
    (h : before ++ c :: rest = source.toList) : (Tile.ofCut before c rest h).content.error? =
      (cut c rest).piece.error? (place before) (place (before ++ (cut c rest).text)) :=
  Piece.error?_content _ _ _ _

theorem toList_append_filterMap {α β : Type} (f : α → Option β) (a : α) (l : List α) :
    (f a).toList ++ l.filterMap f = (a :: l).filterMap f := by
  rw [List.filterMap_cons]
  cases f a <;> rfl

/-- What is behind some text is tiled from there to the end. -/
theorem exists_tiles {p : Position} {before rest : List Char} (hp : p = place before)
    (h : before ++ rest = source.toList) : ∃ tiles : List (Tile source),
      Tiles (bytes before) tiles (bytes source.toList) ∧
      (Scan.ofText p rest).tokens = tiles.filterMap (·.content.token?) ++
        (Scan.atEnd (place source.toList)).tokens ∧
      (Scan.ofText p rest).errors = tiles.filterMap (·.content.error?) := by
  induction p, rest using Scan.ofText.induct generalizing before with
  | case1 p =>
    rw [List.append_nil] at h
    rw [Scan.ofText, hp, h]
    exact ⟨[], rfl, rfl, rfl⟩
  | case2 p c rest k stop =>
    rename_i ih
    have hstop : stop = place (before ++ k.text) := by
      rw [Cursor.place_append, ← hp]
    have hwhole : before ++ k.text ++ k.rest = source.toList := by
      rw [List.append_assoc, (cut_covers c rest).2, h]
    have hscan : Scan.ofText p (c :: rest) =
        ⟨(k.piece.token? k.text (place before)).toList ++ (Scan.ofText stop k.rest).tokens,
          (k.piece.error? (place before) (place (before ++ k.text))).toList ++
            (Scan.ofText stop k.rest).errors⟩ := by
      rw [Scan.ofText, Scan.addPiece_eq, ← hstop, ← hp]
    obtain ⟨tiles, htiles, htokens, herrors⟩ := ih hstop hwhole
    refine ⟨.ofCut before c rest h :: tiles, ⟨rfl, htiles⟩, ?_, ?_⟩
    · rw [← toList_append_filterMap, Tile.token?_ofCut h, hscan, htokens, List.append_assoc]
    · rw [← toList_append_filterMap, Tile.error?_ofCut h, hscan, herrors]

/-- Scanning with offsets always has a result, and that tiles the text: the tokens and the faults
are those of segments that follow each other from its first byte to its last one, each of them where
it says, and whatever is no token and no fault is layout.  One token more stands at the end. -/
theorem scan_tiles (source : String) :
    Cursor.run source = some (scan source) ∧ ∃ tiles : List (Tile source),
      Tiles 0 tiles source.utf8ByteSize ∧
      tiles.Pairwise (fun t u => t.stop ≤ u.start) ∧
      (∀ t ∈ tiles, t.start < t.stop ∧
        source.toByteArray.extract t.start t.stop = (String.ofList t.text).toByteArray) ∧
      (scan source).tokens = tiles.filterMap (·.content.token?) ++
        [⟨.bare .eof Kind.bare_eof, "", 1 + source.toList.count '\n',
          1 + bytes (lastLine source.toList)⟩] ∧
      (scan source).errors = tiles.filterMap (·.content.error?) := by
  have hwhole : [] ++ source.toList = source.toList := List.nil_append _
  obtain ⟨tiles, htiles, htokens, herrors⟩ := exists_tiles rfl hwhole
  have hsize : bytes source.toList = source.utf8ByteSize := by
    rw [← size_utf8Encode, ← String.toByteArray_ofList, String.ofList_toList,
      String.size_toByteArray]
  rw [hsize] at htiles
  rw [place_eq source.toList] at htokens
  exact ⟨Cursor.run_eq source, tiles, htiles, htiles.pairwise,
    fun t _ => ⟨t.start_lt_stop, t.extract_eq⟩, htokens, herrors⟩

end Lox
