import Lox.CommandLine.Prompt

/-!
The lines of an input.

How an input falls into lines is stated without cutting it: a line ends in front of a newline, or
in front of a carriage return and a newline, and nothing needs to end the last one.  Every input
falls into lines in one way, and these are the lines that are found by cutting.
-/

namespace Lox.Prompt

/-- Whether an input falls into these lines. -/
inductive Lined : List UInt8 → List (List UInt8) → Prop
  | nil : Lined [] []
  | unended {line : List UInt8} : line ≠ [] → newline ∉ line → Lined line [line]
  | bare {line input : List UInt8} {lines : List (List UInt8)} : newline ∉ line →
      line.getLast? ≠ some carriageReturn → Lined input lines →
      Lined (line ++ newline :: input) (line :: lines)
  | returned {line input : List UInt8} {lines : List (List UInt8)} : newline ∉ line →
      Lined input lines → Lined (line ++ carriageReturn :: newline :: input) (line :: lines)

variable {line input : List UInt8} {ls : List (List UInt8)}

/-! ## Cutting -/

theorem pieces_of_not_mem (hline : line ≠ []) (h : newline ∉ line) : pieces line = [line] := by
  induction line with
  | nil => exact absurd rfl hline
  | cons b rest ih =>
    obtain ⟨hb, hrest⟩ := not_or.mp (mt List.mem_cons.mpr h)
    rw [pieces, if_neg (Ne.symm hb)]
    cases rest with
    | nil => rfl
    | cons c rest => rw [ih (List.cons_ne_nil c rest) hrest]

theorem pieces_append (h : newline ∉ line) (input : List UInt8) :
    pieces (line ++ newline :: input) = (line ++ [newline]) :: pieces input := by
  induction line with
  | nil => rw [List.nil_append, pieces, if_pos rfl, List.nil_append]
  | cons b rest ih =>
    obtain ⟨hb, hrest⟩ := not_or.mp (mt List.mem_cons.mpr h)
    rw [List.cons_append, pieces, if_neg (Ne.symm hb), ih hrest]
    rfl

theorem withoutEnd_of_not_mem (h : newline ∉ line) : withoutEnd line = line := by
  unfold withoutEnd
  cases hrev : line.reverse with
  | nil => exact (List.reverse_eq_nil_iff.mp hrev).symm
  | cons last before =>
    have hlast : last ∈ line := List.mem_reverse.mp (hrev ▸ List.mem_cons_self)
    exact if_neg (ne_of_mem_of_not_mem hlast h)

theorem withoutEnd_bare (h : line.getLast? ≠ some carriageReturn) :
    withoutEnd (line ++ [newline]) = line := by
  unfold withoutEnd
  rw [List.reverse_append, List.reverse_singleton, List.singleton_append]
  dsimp only
  rw [if_pos rfl]
  cases hrev : line.reverse with
  | nil => exact (List.reverse_eq_nil_iff.mp hrev).symm
  | cons last before =>
    have hlast : last ≠ carriageReturn := by
      rintro rfl
      rw [← List.head?_reverse, hrev] at h
      exact h rfl
    dsimp only
    rw [if_neg hlast, ← hrev, List.reverse_reverse]

theorem withoutEnd_returned (line : List UInt8) :
    withoutEnd (line ++ [carriageReturn, newline]) = line := by
  unfold withoutEnd
  rw [List.reverse_append]
  exact List.reverse_reverse line

/-! ## Lines -/

theorem Lined.eq_lines (h : Lined input ls) : ls = lines input := by
  unfold lines
  induction h with
  | nil => rfl
  | unended hline h =>
    rw [pieces_of_not_mem hline h, List.map_singleton, withoutEnd_of_not_mem h]
  | bare h hlast _ ih => rw [pieces_append h, List.map_cons, withoutEnd_bare hlast, ← ih]
  | @returned line input lines h _ ih =>
    have h' : newline ∉ line ++ [carriageReturn] := by
      rw [List.mem_append, List.mem_singleton]
      exact not_or.mpr ⟨h, by decide⟩
    rw [List.append_cons, pieces_append h', List.map_cons, ← ih, List.append_assoc]
    exact congrArg (· :: lines) (withoutEnd_returned line).symm

theorem exists_lined (input : List UInt8) : ∃ ls, Lined input ls := by
  induction hn : input.length using Nat.strongRecOn generalizing input with
  | ind n ih =>
    by_cases hend : newline ∈ input
    · obtain ⟨line, rest, rfl, hline⟩ := List.eq_append_cons_of_mem hend
      have hshorter : rest.length < n := by
        rw [← hn, List.length_append, List.length_cons]
        omega
      obtain ⟨ls, hls⟩ := ih _ hshorter rest rfl
      by_cases hlast : line.getLast? = some carriageReturn
      · obtain ⟨text, rfl⟩ := List.getLast?_eq_some_iff.mp hlast
        rw [List.append_assoc]
        exact ⟨_, .returned (fun h => hline (List.mem_append_left _ h)) hls⟩
      · exact ⟨_, .bare hline hlast hls⟩
    · by_cases hnil : input = []
      · exact ⟨[], hnil ▸ .nil⟩
      · exact ⟨_, .unended hnil hend⟩

/-- Every input falls into lines in one way. -/
theorem lined_iff : Lined input ls ↔ ls = lines input := by
  refine ⟨Lined.eq_lines, ?_⟩
  rintro rfl
  obtain ⟨ls, h⟩ := exists_lined input
  exact h.eq_lines ▸ h

theorem Lined.not_mem (h : Lined input ls) : ∀ line ∈ ls, newline ∉ line := by
  induction h with
  | nil => exact nofun
  | unended _ h => exact List.forall_mem_singleton.mpr h
  | bare h _ _ ih => exact List.forall_mem_cons.mpr ⟨h, ih⟩
  | returned h _ ih => exact List.forall_mem_cons.mpr ⟨h, ih⟩

/-- Lines can be written one behind the other. -/
theorem lined_flatMap (h : ∀ line ∈ ls, newline ∉ line) :
    Lined (ls.flatMap (· ++ [carriageReturn, newline])) ls := by
  induction ls with
  | nil => exact .nil
  | cons line ls ih =>
    obtain ⟨hline, hls⟩ := List.forall_mem_cons.mp h
    rw [List.flatMap_cons, List.append_assoc]
    exact .returned hline (ih hls)

end Lox.Prompt
