import Lox.Proofs.Grammar.Soundness

/-!
Progress.

Reading a declaration takes at least one token if there is one left, whether it succeeds or the
fault in it is recovered from.
-/

namespace Lox

namespace Reading

variable {s s' : Reading}

theorem length_next (hs : s.stop.kind = .eof) (ha : s.ahead.kind ≠ .eof) :
    s.next.rest.length < s.rest.length := by
  have hrest := congrArg List.length (s.rest_eq_ahead_cons hs ha)
  rw [List.length_cons] at hrest
  omega

end Reading

namespace Parser

variable {α β : Type} {s : Reading} {D : List Token → α → Prop}

/-- Whether the parser takes a token if it succeeds. -/
def Takes (s : Reading) (p : Parser α) : Prop :=
  ∀ a s', p s = .ok a s' → s'.rest.length < s.rest.length

theorem Reads.later {p : Parser α} {a : α} {s' : Reading} (h : Reads s p D)
    (hp : p s = .ok a s') : s.Later s' := by
  unfold Reads at h
  rw [hp] at h
  exact h.1

namespace Takes

theorem peek {f : Token → Parser α} (h : Takes s (f s.ahead)) : Takes s (peek >>= f) := by
  intro a s' hp
  rw [bind_of_ok (peek_apply s)] at hp
  exact h a s' hp

theorem take {f : Token → Parser α} (hs : s.stop.kind = .eof) (ha : s.ahead.kind ≠ .eof)
    (h : Reads s.next (f s.ahead) D) : Takes s (take >>= f) := by
  intro a s' hp
  rw [bind_of_ok (take_apply s)] at hp
  exact Nat.lt_of_le_of_lt (h.later hp).rest.length_le (s.length_next hs ha)

theorem expressionStatement (bound : Nat) (hs : s.stop.kind = .eof) :
    Takes s (expressionStatement bound) := by
  intro statement s' hp
  unfold Parser.expressionStatement at hp
  rw [bind_apply] at hp
  cases hvalue : assignment bound s with
  | error e s₁ =>
    rw [hvalue] at hp
    cases hp
  | ok value s₁ =>
    rw [hvalue] at hp
    dsimp only at hp
    have hlater := (reads_assignment bound hs).later hvalue
    by_cases hk : s₁.ahead.kind = (Missing.afterExpression).kind
    · rw [bind_of_ok (expect_of_eq hk)] at hp
      cases hp
      have hne : s₁.ahead.kind ≠ .eof := by
        rw [hk]
        decide
      exact Nat.lt_of_lt_of_le (s₁.length_next (hlater.eof hs) hne) hlater.rest.length_le
    · rw [bind_apply, expect_of_ne hk] at hp
      cases hp

variable {n : Nat} (hs : s.stop.kind = .eof) (bound : Nat)
include hs

theorem statementOf : Takes s (statementOf bound (statement n) (declaration n)) := by
  have hs₁ := s.later_next.eof hs
  unfold Parser.statementOf
  refine .peek ?_
  split
  · next hk =>
    exact .take hs (by rw [hk]; decide) (reads_branch (sound_statement n) bound hk hs₁)
  · next hk => exact .take hs (by rw [hk]; decide) (reads_print bound hk hs₁)
  · next hk => exact .take hs (by rw [hk]; decide) (reads_ret bound hk hs₁)
  · next hk =>
    refine .take (D := fun _ _ => True) hs (by rw [hk]; decide) ?_
    exact .bind (reads_block (sound_declaration n) bound hs₁) fun _ _ _ => .pure fun _ _ => trivial
  · next hk =>
    exact .take hs (by rw [hk]; decide) (reads_whileLoop (sound_statement n) bound hk hs₁)
  · next hk =>
    exact .take hs (by rw [hk]; decide) (reads_forLoop (sound_statement n) bound hk hs₁)
  · exact .expressionStatement bound hs

theorem declarationOf : Takes s (declarationOf bound (statement n) (declaration n)) := by
  have hs₁ := s.later_next.eof hs
  unfold Parser.declarationOf
  refine .peek ?_
  split
  · next hk => exact .take hs (by rw [hk]; decide) (reads_variableDeclaration bound hk hs₁)
  · next hk =>
    exact .take hs (by rw [hk]; decide)
      (reads_functionDeclaration (sound_declaration n) bound hk hs₁)
  · exact .statementOf hs bound

omit hs in
/-- What is left behind a fault is at least one token shorter. -/
theorem recovering {p : Parser Stmt} {D : List Token → Stmt → Prop} (h : Takes s p)
    (hp : Reads s p D) (hrest : s.rest ≠ []) : Takes s (recovering p) := by
  intro first? s' hrun
  unfold Parser.recovering at hrun
  cases hp₁ : p s with
  | ok statement s₁ =>
    rw [hp₁] at hrun
    cases hrun
    exact h _ _ hp₁
  | error e s₁ =>
    unfold Reads at hp
    rw [hp₁] at hrun hp
    obtain rfl := (EStateM.Result.ok.inj hrun).2
    show (dropToBoundary s₁.rest).length < s.rest.length
    cases hs₁ : s₁.rest with
    | nil => exact List.length_pos_iff.mpr hrest
    | cons t rest =>
      have hlength := hp.rest.length_le
      rw [hs₁, List.length_cons] at hlength
      exact Nat.lt_of_le_of_lt (resume_suffix t rest).length_le hlength

end Takes

/-- Every declaration takes a token if there is one. -/
theorem takes_declaration (n : Nat) (hs : s.stop.kind = .eof) (hrest : s.rest ≠ []) :
    Takes s (declaration n) := by
  cases n with
  | zero =>
    have hnone : Takes s (missingExpression : Parser Stmt) := fun a s' h => nomatch h
    exact hnone.recovering (D := fun _ _ => True) .missingExpression hrest
  | succ n =>
    exact Takes.recovering (Takes.declarationOf hs (n + 1))
      (reads_declarationOf (sound_statement n) (n + 1) (sound_declaration n) hs) hrest

end Parser
end Lox
