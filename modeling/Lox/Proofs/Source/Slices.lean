import Lox.Source.Cursor
import Lox.Proofs.Source.Joining

/-!
Byte offsets in a text.

An offset that comes from counting the characters in front of a place is never beyond the text and
never inside a character, so what is cut out between two such offsets is what stands there.
-/

namespace Lox

theorem bytes_cons (c : Char) (text : List Char) : bytes (c :: text) = c.utf8Size + bytes text :=
  rfl

theorem bytes_singleton (c : Char) : bytes [c] = c.utf8Size := rfl

theorem bytes_append (a b : List Char) : bytes (a ++ b) = bytes a + bytes b := by
  induction a with
  | nil => exact (Nat.zero_add _).symm
  | cons c a ih => rw [List.cons_append, bytes_cons, bytes_cons, ih, Nat.add_assoc]

theorem bytes_pos {text : List Char} (h : text ≠ []) : 0 < bytes text := by
  obtain ⟨c, rest, rfl⟩ := List.exists_cons_of_ne_nil h
  have hc := c.utf8Size_pos
  rw [bytes_cons]
  omega

theorem sub?_add (a b : Nat) : sub? (a + b) a = some b := by
  rw [sub?, if_pos (Nat.le_add_right a b), Nat.add_sub_cancel_left]

/-! ## Cutting by offsets -/

theorem dropBytes?_append (a b : List Char) : dropBytes? (a ++ b) (bytes a) = some b := by
  induction a with
  | nil =>
    cases b <;> rfl
  | cons c a ih =>
    obtain ⟨n, hn⟩ : ∃ n, bytes (c :: a) = n + 1 :=
      Nat.exists_eq_add_one.mpr (bytes_pos (List.cons_ne_nil c a))
    have hsize := bytes_cons c a
    rw [List.cons_append, hn, dropBytes?, if_pos (by omega), ← ih]
    congr 1
    omega

theorem takeBytes?_append (a b : List Char) : takeBytes? (a ++ b) (bytes a) = some a := by
  induction a with
  | nil =>
    cases b <;> rfl
  | cons c a ih =>
    obtain ⟨n, hn⟩ : ∃ n, bytes (c :: a) = n + 1 :=
      Nat.exists_eq_add_one.mpr (bytes_pos (List.cons_ne_nil c a))
    have hsize := bytes_cons c a
    have hrest : n + 1 - c.utf8Size = bytes a := by omega
    rw [List.cons_append, hn, takeBytes?, if_pos (by omega), hrest, ih]
    rfl

/-- Between the offsets of its ends stands the text itself. -/
theorem slice?_append (before text after : List Char) :
    slice? (before ++ text ++ after) (bytes before) (bytes (before ++ text)) = some text := by
  unfold slice?
  rw [bytes_append, sub?_add, List.append_assoc]
  show (dropBytes? (before ++ (text ++ after)) (bytes before)).bind
    (fun rest => takeBytes? rest (bytes text)) = some text
  rw [dropBytes?_append, Option.bind_some, takeBytes?_append]

theorem size_utf8Encode (text : List Char) : text.utf8Encode.size = bytes text := by
  induction text with
  | nil => rfl
  | cons c text ih =>
    rw [List.utf8Encode_cons, ByteArray.size_append, ih, bytes_cons, List.utf8Encode_singleton,
      List.size_toByteArray, String.length_utf8EncodeChar]

/-- The same of the text as it is encoded. -/
theorem extract_utf8Encode (before text after : List Char) :
    (before ++ text ++ after).utf8Encode.extract (bytes before) (bytes (before ++ text)) =
      text.utf8Encode := by
  rw [← size_utf8Encode, ← size_utf8Encode, List.utf8Encode_append,
    ByteArray.extract_append_size_left, List.utf8Encode_append]
  exact ByteArray.extract_append_eq_right rfl ByteArray.size_append

/-! ## Lines and columns -/

/-- What stands on the last line of a text. -/
def lastLine (text : List Char) : List Char := (text.reverse.takeWhile (· ≠ '\n')).reverse

theorem lastLine_concat (text : List Char) (c : Char) :
    lastLine (text ++ [c]) = if c = '\n' then [] else lastLine text ++ [c] := by
  unfold lastLine
  rw [List.reverse_append, List.reverse_singleton, List.singleton_append, List.takeWhile_cons]
  by_cases hc : c = '\n'
  · rw [if_pos hc, if_neg (by simpa using hc)]
    rfl
  · rw [if_neg hc, if_pos (by simpa using hc), List.reverse_cons]

namespace Position

theorem advance_concat (p : Position) (text : List Char) (c : Char) :
    p.advance (text ++ [c]) = (p.advance text).step c := by
  rw [advance_append]
  rfl

/-- A place counts the newlines in front of it, and the bytes behind the last of them. -/
theorem advance_start (text : List Char) : start.advance text =
    ⟨1 + text.count '\n', 1 + bytes (lastLine text)⟩ := by
  -- The induction is from the end, where a character is added to the last line.
  obtain ⟨backwards, rfl⟩ : ∃ backwards : List Char, text = backwards.reverse :=
    ⟨text.reverse, text.reverse_reverse.symm⟩
  induction backwards with
  | nil => rfl
  | cons c backwards ih =>
    rw [List.reverse_cons, advance_concat, ih, lastLine_concat, step, List.count_append]
    by_cases hc : c = '\n'
    · subst hc
      rfl
    · have hnone : [c].count '\n' = 0 := List.count_eq_zero.mpr fun h =>
        hc (List.mem_singleton.mp h).symm
      rw [if_neg hc, if_neg hc, hnone, bytes_append, bytes_singleton, Nat.add_zero, Nat.add_assoc]

end Position
end Lox
