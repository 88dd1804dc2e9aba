import Mathlib.Order.Bounds.Basic
import Lox.Proofs.Grammar.Extents
import Lox.Proofs.Grammar.Termination

/-!
Where reading resumes.

Behind a fault, tokens are given up to the next place where a statement may start.  The search for
it begins behind the token that the fault is blamed on.  So that token is given up even if it is a
keyword that starts a statement, unless it ends the tokens.
-/

namespace Lox
namespace Walk

/-- Whether the token at an index starts a statement by a keyword, or ends the tokens. -/
def Opens (tokens : Array Token) (r : Nat) : Prop :=
  ∃ t ∈ tokens[r]?, t.kind = .eof ∨ t.kind.startsStatement = true

/-- Whether a semicolon stands in front of an index. -/
def Closes (tokens : Array Token) (r : Nat) : Prop := ∃ t ∈ tokens[r - 1]?, t.kind = .semicolon

/-- Whether a statement may start at the index `r`, at the earliest where the fault is.  A semicolon
in front of the fault is not its end. -/
def Boundary (tokens : Array Token) (fault r : Nat) : Prop :=
  fault ≤ r ∧ (Opens tokens r ∨ fault < r ∧ Closes tokens r)

variable {s s₁ : Walker}

theorem opens_current (hs : s.Stands) : Opens s.tokens s.current ↔
    s.view.ahead.kind = .eof ∨ s.view.ahead.kind.startsStatement = true := by
  unfold Opens
  rw [Walker.getElem?_current hs]
  simp

theorem closes_current {t : Token} (ht : Behind t s) :
    Closes s.tokens s.current ↔ t.kind = .semicolon := by
  have hget : s.tokens[s.current - 1]? = some t := by
    have hmap : (s.tokens[s.current - 1]?.map fun u => (Except.ok u, s)) =
        (some (.ok t, s) : Option (Except ParseError Token × Walker)) := ht
    obtain ⟨u, hu, heq⟩ := Option.map_eq_some_iff.mp hmap
    cases heq
    exact hu
  unfold Closes
  rw [hget]
  simp

/-- A least index stays one if those in front of it are left out. -/
theorem isLeast_of_not {P : Nat → Prop} {m n : Nat} (hm : ¬P m)
    (h : IsLeast {r | m + 1 ≤ r ∧ P r} n) : IsLeast {r | m ≤ r ∧ P r} n := by
  refine ⟨⟨Nat.le_of_succ_le h.1.1, h.1.2⟩, fun r hr => h.2 ⟨?_, hr.2⟩⟩
  exact Nat.lt_of_le_of_ne hr.1 fun he => hm (he ▸ hr.2)

/-- Tokens are passed up to the first place where a statement may start. -/
theorem resume_isLeast {t : Token} (hs : s.Stands) (ht : Behind t s) :
    ∃ s', Rule.resume.walk s = some (.ok (), s') ∧ s.Later s' ∧ s'.errors = s.errors ∧
      IsLeast {r | s.current ≤ r ∧ (Opens s.tokens r ∨ Closes s.tokens r)} s'.current := by
  induction hn : s.view.rest.length using Nat.strongRecOn generalizing s t with
  | ind n ih =>
    rw [Rule.walk, bind_of_ok (peek_apply hs)]
    have hhere : Opens s.tokens s.current ∨ Closes s.tokens s.current →
        IsLeast {r | s.current ≤ r ∧ (Opens s.tokens r ∨ Closes s.tokens r)} s.current :=
      fun h => ⟨⟨Nat.le_refl _, h⟩, fun r hr => hr.1⟩
    by_cases hstop : s.view.ahead.kind = .eof
    · rw [if_pos hstop]
      exact ⟨s, rfl, .refl hs, rfl, hhere (.inl ((opens_current hs).mpr (.inl hstop)))⟩
    rw [if_neg hstop, bind_of_ok ht]
    by_cases hsemi : t.kind = .semicolon
    · rw [if_pos hsemi]
      exact ⟨s, rfl, .refl hs, rfl, hhere (.inr ((closes_current ht).mpr hsemi))⟩
    rw [if_neg hsemi, bind_of_ok (peek_apply hs)]
    by_cases hkeyword : s.view.ahead.kind.startsStatement = true
    · rw [if_pos hkeyword]
      exact ⟨s, rfl, .refl hs, rfl, hhere (.inl ((opens_current hs).mpr (.inr hkeyword)))⟩
    rw [if_neg hkeyword, bind_of_ok (take_apply hs hstop)]
    have hl := Walker.later_next hstop
    obtain ⟨s', hrun, hl', herrors, hleast⟩ := ih _ (hn ▸ Walker.length_next hstop) (hl.stands hs)
      (previous_next hs) rfl
    refine ⟨s', hrun, hl.trans hl', herrors, isLeast_of_not ?_ hleast⟩
    rintro (hopens | hcloses)
    · exact ((opens_current hs).mp hopens).elim hstop hkeyword
    · exact hsemi ((closes_current ht).mp hcloses)

/-- The token ahead is not looked at, unless it ends the tokens. -/
theorem synchronize_isLeast (hs : s.Stands) :
    ∃ s', Rule.synchronize.walk s = some (.ok (), s') ∧ s.Later s' ∧ s'.errors = s.errors ∧
      IsLeast {r | Boundary s.tokens s.current r ∧
        (s.current < r ∨ s.view.ahead.kind = .eof)} s'.current := by
  rw [Rule.walk]
  by_cases hstop : s.view.ahead.kind = .eof
  · obtain ⟨t, ht⟩ := take_stop hs hstop
    rw [bind_of_ok ht, Rule.walk, bind_of_ok (peek_apply hs), if_pos hstop]
    refine ⟨s, rfl, .refl hs, rfl, ⟨⟨Nat.le_refl _, .inl ?_⟩, .inr hstop⟩, fun r hr => hr.1.1⟩
    exact (opens_current hs).mpr (.inl hstop)
  · have hl := Walker.later_next hstop
    obtain ⟨s', hrun, hl', herrors, hleast⟩ :=
      resume_isLeast (hl.stands hs) (previous_next hs)
    have hset : {r | Boundary s.tokens s.current r ∧ (s.current < r ∨ s.view.ahead.kind = .eof)} =
        {r | s.next.current ≤ r ∧ (Opens s.next.tokens r ∨ Closes s.next.tokens r)} := by
      ext r
      constructor
      · rintro ⟨⟨-, hr⟩, hlt | heof⟩
        · exact ⟨hlt, hr.imp_right And.right⟩
        · exact absurd heof hstop
      · rintro ⟨hlt, hr⟩
        exact ⟨⟨Nat.le_of_lt hlt, hr.imp_right fun h => ⟨hlt, h⟩⟩, .inl hlt⟩
    rw [bind_of_ok (take_apply hs hstop), hset]
    exact ⟨s', hrun, hl.trans hl', herrors, hleast⟩

theorem ends_declarationOrFault (hs : s.Stands) :
    Ends s (Rule.declarationOrFault.walk s) (Parser.declarationOf (s.view.rest.length + 1)
      (Parser.statement s.view.rest.length) (Parser.declaration s.view.rest.length) s.view) := by
  obtain ⟨hstatement, hdeclaration⟩ := tracks_both s.view.rest.length
  exact (tracks_declarationOrFault hdeclaration hstatement).mono (Nat.le_succ _) s hs
    (Nat.le_refl _) trivial

/-- A fault that keeps a declaration from being read is blamed on the token ahead. -/
theorem thrown_ahead {e : ParseError} (hs : s.Stands)
    (hfault : Rule.declarationOrFault.walk s = some (.error e, s₁)) :
    s.Later s₁ ∧ e.token = s₁.view.ahead := by
  have hends := ends_declarationOrFault hs
  have hboth := Parser.orderly_both s.kind_stop_view s.view.rest.length
  have horderly := Parser.orderly_declarationOf s.kind_stop_view hboth.1 hboth.2
    (s.view.rest.length + 1) s.view rfl
  rw [hfault] at hends
  unfold Parser.OrderlyFrom at horderly
  generalize Parser.declarationOf _ _ _ s.view = result at hends horderly
  cases hends with
  | error hl => exact ⟨hl, horderly.1⟩

/-- Where a walk ends with a fault is known from what reading has left. -/
theorem fault_of_reading {e : ParseError} {r : Reading} (hs : s.Stands)
    (h : Parser.declarationOf (s.view.rest.length + 1) (Parser.statement s.view.rest.length)
      (Parser.declaration s.view.rest.length) s.view = .error e r) :
    Rule.declarationOrFault.walk s =
      some (.error e, ⟨s.tokens, s.stopIndex - r.rest.length, r.depth, r.errors⟩) := by
  have hends := ends_declarationOrFault hs
  rw [h] at hends
  generalize Rule.declarationOrFault.walk s = result at hends ⊢
  cases hends with
  | @error _ s' hl =>
    have hcurrent : s'.current = s.stopIndex - s'.view.rest.length := by
      have hwithin := hl.within
      have hsame : s'.stopIndex = s.stopIndex := by rw [Walker.stopIndex, hl.tokens]; rfl
      rw [Walker.length_view]
      omega
    rw [← hcurrent, ← hl.tokens]
    rfl

/-- A declaration with a fault leaves nothing but the fault, and the place where reading resumes. -/
theorem declaration_resumes {e : ParseError} (hs : s.Stands)
    (hfault : Rule.declarationOrFault.walk s = some (.error e, s₁)) :
    ∃ s', Rule.declaration.walk s = some (.ok none, s') ∧ s.Later s' ∧
      s'.errors = s₁.errors ++ [e] ∧
      IsLeast {r | Boundary s.tokens s₁.current r ∧
        (s₁.current < r ∨ e.token.kind = .eof)} s'.current := by
  obtain ⟨hl, hahead⟩ := thrown_ahead hs hfault
  have hs₁ := hl.stands hs
  obtain ⟨s', hrun, hl', herrors, hleast⟩ :=
    synchronize_isLeast ((s₁.later_record hs₁ e).stands hs₁)
  refine ⟨s', ?_, hl.trans ((s₁.later_record hs₁ e).trans hl'), herrors, ?_⟩
  · rw [Rule.walk]
    show Option.bind (Rule.declarationOrFault.walk s) _ = _
    rw [hfault]
    show Option.bind (Rule.synchronize.walk (s₁.record e)) _ = _
    rw [hrun]
    rfl
  · rw [← hl.tokens, hahead]
    exact hleast

/-- A list of declarations goes on where its first one has left off. -/
theorem declarations_resume {ends : Kind → Bool} {s' : Walker} (hs : s.Stands)
    (hahead : ends s.view.ahead.kind = false) (h : Rule.declaration.walk s = some (.ok none, s')) :
    (Rule.declarations ends).walk s = (Rule.declarations ends).walk s' := by
  have hgo : ¬ends s.view.ahead.kind = true := by simp [hahead]
  conv_lhs => rw [Rule.walk, bind_of_ok (peek_apply hs), if_neg hgo, bind_of_ok h]
  exact congrFun (bind_pure _) s'

/-- Where the search begins makes a difference only for a keyword behind the start. -/
theorem isLeast_boundary_iff {e : ParseError} (hs : s.Stands) (hlt : s.current < s.stopIndex)
    (hl : s.Later s₁) (hahead : e.token = s₁.view.ahead) {r : Nat}
    (hr : IsLeast {r | Boundary s.tokens s₁.current r ∧
      (s₁.current < r ∨ e.token.kind = .eof)} r) :
    IsLeast {r | s.current < r ∧ Boundary s.tokens s₁.current r} r ↔
      ¬(s.current < s₁.current ∧ e.token.kind.startsStatement = true) := by
  have hopens : Opens s.tokens s₁.current ↔
      e.token.kind = .eof ∨ e.token.kind.startsStatement = true := by
    rw [← hl.tokens, hahead]
    exact opens_current (hl.stands hs)
  constructor
  · rintro ⟨-, hleast⟩ ⟨hbehind, hkeyword⟩
    -- The keyword itself would have been the first boundary.
    have hle := hleast ⟨hbehind, Nat.le_refl _, .inl (hopens.mpr (.inr hkeyword))⟩
    rcases hr.1.2 with hgt | heof
    · omega
    · rw [heof] at hkeyword
      cases hkeyword
  · intro hnot
    refine ⟨⟨?_, hr.1.1⟩, fun r' hr' => hr.2 ⟨hr'.2, ?_⟩⟩
    · rcases hr.1.2 with hgt | heof
      · exact Nat.lt_of_le_of_lt hl.forward hgt
      · have hstop : s₁.stopIndex ≤ s₁.current := by
          have hrest := s₁.rest_eq_nil (hahead ▸ heof)
          have hlength := s₁.length_view
          rw [hrest, List.length_nil] at hlength
          omega
        have hsame : s₁.stopIndex = s.stopIndex := by rw [Walker.stopIndex, hl.tokens]; rfl
        have hle := hr.1.1.1
        omega
    · rcases Nat.lt_or_eq_of_le hr'.2.1 with hgt | heq
      · exact .inl hgt
      · rcases hr'.2.2 with hopen | hclosed
        · rcases hopens.mp (heq ▸ hopen) with heof | hkeyword
          · exact .inr heof
          · exact absurd ⟨heq ▸ hr'.1, hkeyword⟩ hnot
        · omega

end Walk

open Walk

/-- A fault that keeps a declaration from being read is blamed on the token ahead.  The list of
declarations around it, a program or a block, goes on at the first boundary behind that token, or at
the end of the tokens if that is where the fault is.  So the first boundary of all behind the start
of the declaration is found unless the fault is blamed on a keyword in between: a statement that
starts there is given up. -/
theorem resumes_at_boundary {s s₁ : Walker} {e : ParseError} (hs : s.Stands)
    (hlt : s.current < s.stopIndex)
    (hfault : Rule.declarationOrFault.walk s = some (.error e, s₁)) :
    s.Later s₁ ∧ s.tokens[s₁.current]? = some e.token ∧
    ∃ s', Rule.declaration.walk s = some (.ok none, s') ∧ s.Later s' ∧
      s'.errors = s₁.errors ++ [e] ∧
      IsLeast {r | Boundary s.tokens s₁.current r ∧
        (s₁.current < r ∨ e.token.kind = .eof)} s'.current ∧
      (IsLeast {r | s.current < r ∧ Boundary s.tokens s₁.current r} s'.current ↔
        ¬(s.current < s₁.current ∧ e.token.kind.startsStatement = true)) ∧
      ∀ ends : Kind → Bool, (∀ t ∈ s.tokens[s.current]?, ends t.kind = false) →
        (Rule.declarations ends).walk s = (Rule.declarations ends).walk s' := by
  obtain ⟨hl, hahead⟩ := thrown_ahead hs hfault
  obtain ⟨s', hrun, hl', herrors, hleast⟩ := declaration_resumes hs hfault
  refine ⟨hl, ?_, s', hrun, hl', herrors, hleast, isLeast_boundary_iff hs hlt hl hahead hleast,
    fun ends hends => declarations_resume hs ?_ hrun⟩
  · rw [← hl.tokens, hahead]
    exact Walker.getElem?_current (hl.stands hs)
  · exact hends _ (Walker.getElem?_current hs)

/-- A block goes on behind the semicolon, where it ends. -/
theorem resumes_at_boundary_semicolon :
    let name : Token := ⟨.bare .identifier, "x", 1, 1⟩
    let semicolon : Token := ⟨.bare .semicolon, ";", 1, 4⟩
    let brace : Token := ⟨.bare .rightBrace, "\x7d", 1, 5⟩
    let stop : Token := ⟨.bare .eof, "", 1, 6⟩
    let s := Walker.ofTokens [name, name, semicolon, brace, stop]
    let e : ParseError := ⟨name, .missing .afterExpression⟩
    s.Stands ∧ s.current < s.stopIndex ∧
      Rule.declarationOrFault.walk s = some (.error e, ⟨s.tokens, 1, 0, []⟩) ∧
      ∃ s', Rule.declaration.walk s = some (.ok none, s') ∧ s'.errors = [e] ∧
        IsLeast {r | 0 < r ∧ Boundary s.tokens 1 r} s'.current ∧
        (Rule.declarations (· == .rightBrace)).walk s =
          (Rule.declarations (· == .rightBrace)).walk s' := by
  intro name semicolon brace stop s e
  have hs : s.Stands := stands_ofTokens ⟨stop, by simp, rfl⟩
  have hlt : s.current < s.stopIndex := by decide
  have hfault : Rule.declarationOrFault.walk s = some (.error e, ⟨s.tokens, 1, 0, []⟩) :=
    fault_of_reading hs (r := ⟨[name, semicolon, brace], stop, 0, []⟩) rfl
  obtain ⟨-, -, s', hrun, -, herrors, -, hfirst, hlist⟩ := resumes_at_boundary hs hlt hfault
  have hkeyword : ¬(s.current < 1 ∧ e.token.kind.startsStatement = true) := by decide
  have hahead : ∀ t ∈ s.tokens[s.current]?, (t.kind == .rightBrace) = false := by
    intro t ht
    cases ht
    rfl
  exact ⟨hs, hlt, hfault, s', hrun, herrors, hfirst.mpr hkeyword, hlist _ hahead⟩

/-- Behind a statement that lacks its semicolon, the keyword of the next one is not the boundary
that is found. -/
theorem statement_given_up : ¬∀ (s s₁ : Walker) (e : ParseError), s.Stands →
    s.current < s.stopIndex → Rule.declarationOrFault.walk s = some (.error e, s₁) →
    ∃ s', Rule.declaration.walk s = some (.ok none, s') ∧
      IsLeast {r | s.current < r ∧ Boundary s.tokens s₁.current r} s'.current := by
  let print : Token := ⟨.bare .kwPrint, "print", 1, 1⟩
  let name : Token := ⟨.bare .identifier, "x", 1, 7⟩
  let keyword : Token := ⟨.bare .kwPrint, "print", 1, 9⟩
  let semicolon : Token := ⟨.bare .semicolon, ";", 1, 16⟩
  let stop : Token := ⟨.bare .eof, "", 1, 17⟩
  let s := Walker.ofTokens [print, name, keyword, name, semicolon, stop]
  let e : ParseError := ⟨keyword, .missing .afterPrintedValue⟩
  have hs : s.Stands := stands_ofTokens ⟨stop, by simp, rfl⟩
  have hlt : s.current < s.stopIndex := by decide
  have hfault : Rule.declarationOrFault.walk s = some (.error e, ⟨s.tokens, 2, 0, []⟩) :=
    fault_of_reading hs (r := ⟨[keyword, name, semicolon], stop, 0, []⟩) rfl
  intro h
  obtain ⟨s', hrun, hfirst⟩ := h s _ e hs hlt hfault
  obtain ⟨t, hother, -, -, hleast⟩ := declaration_resumes hs hfault
  obtain rfl : s' = t := by
    rw [hrun] at hother
    cases hother
    rfl
  obtain ⟨hl, hahead⟩ := thrown_ahead hs hfault
  exact (isLeast_boundary_iff hs hlt hl hahead hleast).mp hfirst ⟨by decide, rfl⟩

end Lox
