import Lox.Proofs.Evaluation.Parentheses
import Lox.Proofs.Printing.Fuel

/-!
Groupings that use no fuel.

A grouping is a layer of its own, which needs fuel and does nothing else.  Here are the layers of
evaluation without those for groupings.  Runs get as far with them as with the others, and with
enough fuel the others get as far as they do.
-/

open Filter

namespace Lox

/-- What evaluates and executes with the given fuel, of which groupings use none. -/
def transparent (host : Host) : Nat → Recording
  | 0 => ⟨fun _ => Run.exhausted, fun _ _ => Run.exhausted⟩
  | n + 1 =>
    ⟨fun e => (transparent host n).evaluateOf host e.bare, (transparent host n).executeOf n⟩

/-- The fuel that groupings use is all that is missing. -/
theorem recording_le_transparent (host : Host) {n k : Nat} (hn : n ≤ k) :
    (recording host n).Le (transparent host k) := by
  induction n generalizing k with
  | zero => exact ⟨fun _ _ => Run.exhausted_leAt _, fun _ _ _ => Run.exhausted_leAt _⟩
  | succ n ih =>
    cases k with
    | zero => exact absurd hn (Nat.not_succ_le_zero n)
    | succ k =>
      have hbound := Nat.le_of_succ_le_succ hn
      refine ⟨fun e => ?_, fun site s => (ih hbound).executeOf hbound site s⟩
      show ((recording host n).evaluateOf host e).Le ((transparent host k).evaluateOf host e.bare)
      fun_cases Expr.bare e with
      | case1 e => exact (ih (Nat.le_succ_of_le hbound)).evaluate e
      | case2 e hbare => exact (ih hbound).evaluateOf e

/-- Around a grouping one layer more is enough. -/
theorem under_of_bare {host : Host} {r : Recording} (h : r.Under atTop (recording host))
    (e : Expr) :
    (r.evaluateOf host e.bare).Under atTop fun k => (recording host k).evaluate e := by
  fun_induction Expr.bare e with
  | case1 e ih => exact Run.Under.later ih
  | case2 e hbare => exact Run.Under.later (h.evaluateOf e)

/-- With enough fuel groupings can have theirs. -/
theorem transparent_under (host : Host) (n : Nat) :
    (transparent host n).Under atTop (recording host) := by
  induction n with
  | zero => exact ⟨fun _ => .exhausted _, fun _ _ => .exhausted _⟩
  | succ n ih =>
    refine ⟨under_of_bare ih, fun site s => Run.Under.later ?_⟩
    exact ih.executeOf (eventually_ge_atTop n) site s

end Lox
