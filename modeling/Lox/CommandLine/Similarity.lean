/-!
How alike two words are, to guess which option a misspelt one was meant to be.

Two letters match when they are equal and not far apart.  The measure is one for equal words, falls
with the share of letters that match and with those that match out of order, and rises again with
the length of the common beginning.
-/

namespace Lox.Similarity

/-- The letters of a word that have been matched so far, by their places. -/
structure Matching where
  taken : List Nat
  /-- The place matched last. -/
  last : Nat
  /-- How often a match went back behind the one before it. -/
  inversions : Nat

/-- Matches the letter `c` at place `i` of one word with the first free letter of the other that is
equal and at most `reach` places away. -/
def Matching.step (word : List Char) (reach : Nat) (m : Matching) (c : Char) (i : Nat) : Matching :=
  let free? := word.zipIdx.find? fun (d, j) =>
    c == d && i ≤ j + reach && j ≤ i + reach && !m.taken.contains j
  match free? with
  | none => m
  | some (_, j) =>
    { taken := j :: m.taken
      last := j
      inversions := if j < m.last then m.inversions + 1 else m.inversions }

/-- Matches the letters of `a` in order with those of `b`. -/
def matching (a b : List Char) : Matching :=
  let reach := max a.length b.length / 2 - 1
  a.zipIdx.foldl (fun m (c, i) => m.step b reach c i) ⟨[], 0, 0⟩

/-- The share of matching letters.  Single letters match no others. -/
def agreement (a b : List Char) : Float :=
  if a = b then 1
  else if a.length = 1 ∧ b.length = 1 then 0
  else
    let m := matching a b
    if m.taken.isEmpty then 0
    else
      let matched := m.taken.length.toFloat
      (1.0 / 3.0) * ((matched / a.length.toFloat) + (matched / b.length.toFloat) +
        ((matched - m.inversions.toFloat) / matched))

/-- How many letters two words have in common at the beginning. -/
def commonBeginning : List Char → List Char → Nat
  | c :: a, d :: b => if c = d then commonBeginning a b + 1 else 0
  | _, _ => 0

/-- The similarity of two words, from zero to one. -/
def similarity (a b : String) : Float :=
  let share := agreement a.toList b.toList
  let raised := share + 0.1 * (commonBeginning a.toList b.toList).toFloat * (1.0 - share)
  if raised ≤ 1.0 then raised else 1.0

/-- Puts `a` in the place of the best thing so far, known with its likeness, if it is more alike. -/
def better {α : Type} (spelling : α → String) (word : String) (best : Option α × Float) (a : α) :
    Option α × Float :=
  let alike := similarity word (spelling a)
  if best.2 < alike then (some a, alike) else best

/-- The one of some things whose spelling is most like a word, if any is more alike than `bound`.
The first of several equally good ones is taken. -/
def mostAlike? {α : Type} (bound : Float) (spelling : α → String) (word : String) (among : List α) :
    Option α :=
  (among.foldl (better spelling word) (none, bound)).1

end Lox.Similarity
