import Lox.Proofs.Grammar.Chunks
import Lox.Proofs.Grammar.Extents

/-!
Bodies of blocks.

What stands in a block, when there are no blocks inside of it, is read like a program of its own.
The closing brace takes the place of the end, and no parser of a phrase can tell the one from the
other.  Only faults that break off at the end are blamed on another token.
-/

namespace Lox

open Grammar

/-- Whether a token ends the declarations of a block. -/
def Token.EndsBlock (t : Token) : Prop := t.kind = .rightBrace ∨ t.kind = .eof

namespace Grammar

/-- The kinds that the tokens of a body have none of. -/
def nesting : List Kind := [.leftBrace, .rightBrace, .eof]

theorem kind_ne_of_endsBlock {t : Token} (ht : t.EndsBlock) {k : Kind} (hk : k ∉ nesting) :
    t.kind ≠ k := by
  rintro rfl
  rcases ht with ht | ht <;> exact hk (by rw [ht]; decide)

/-- The surroundings of what stands in a block. -/
structure Enclosure extends Surroundings where
  /-- The tokens in front of the closing brace. -/
  body : List Token
  plain : ∀ t ∈ body, t.kind ∉ nesting
  closed : (behind.headD stop).kind = .rightBrace

end Grammar

namespace Reading

variable {s : Reading} {w : Enclosure}

/-- Whether what is left is the end of a body, and no fault has been blamed on what ends it. -/
structure InBody (w : Enclosure) (s : Reading) : Prop where
  stop : s.stop.kind = .eof
  rest : s.rest <:+ w.body
  inside : ∀ e ∈ s.errors, e.token.kind ≠ .eof

/-- Whether a statement of the body has just ended. -/
structure BehindSemicolon (w : Enclosure) (s : Reading) : Prop extends InBody w s where
  semicolon : ∃ ts t, w.body = ts ++ t :: s.rest ∧ t.kind = .semicolon

namespace InBody

theorem ended (hs : s.InBody w) : s.Ended :=
  ⟨hs.stop, fun t ht he => w.plain t (hs.rest.mem ht) (by rw [he]; decide)⟩

theorem ahead_not_mem (hs : s.InBody w) (hr : s.rest ≠ []) : s.ahead.kind ∉ nesting := by
  obtain ⟨t, ts, hts⟩ := List.exists_cons_of_ne_nil hr
  rw [s.ahead_of_rest hts]
  exact w.plain t (hs.rest.mem (hts ▸ List.mem_cons_self))

theorem kind_ahead (hs : s.InBody w) (hr : s.rest = []) : s.ahead.kind = .eof := by
  rw [ahead, hr]
  exact hs.stop

theorem next (hs : s.InBody w) : s.next.InBody w :=
  ⟨hs.stop, (List.tail_suffix _).trans hs.rest, hs.inside⟩

theorem record (hs : s.InBody w) {e : ParseError} (he : e.token.kind ≠ .eof) :
    (s.record e).InBody w :=
  ⟨hs.stop, hs.rest, List.forall_mem_append.mpr ⟨hs.inside, List.forall_mem_singleton.mpr he⟩⟩

theorem behindSemicolon_next (hs : s.InBody w) (ha : s.ahead.kind = .semicolon) :
    s.next.BehindSemicolon w := by
  obtain ⟨ts, hts⟩ := hs.rest
  have hrest := s.rest_eq_ahead_cons hs.stop (by rw [ha]; decide)
  exact ⟨hs.next, ts, s.ahead, by rw [← hts, hrest], ha⟩

end InBody

theorem ahead_within (hr : s.rest ≠ []) : (s.within w.toSurroundings).ahead = s.ahead := by
  obtain ⟨t, ts, hts⟩ := List.exists_cons_of_ne_nil hr
  unfold within ahead
  rw [hts]
  rfl

theorem next_within (hr : s.rest ≠ []) :
    (s.within w.toSurroundings).next = s.next.within w.toSurroundings := by
  obtain ⟨t, ts, hts⟩ := List.exists_cons_of_ne_nil hr
  unfold within next
  rw [hts]
  rfl

theorem kind_ahead_within (hr : s.rest = []) :
    (s.within w.toSurroundings).ahead.kind = .rightBrace := by
  unfold within ahead
  rw [hr]
  exact w.closed

end Reading

namespace Parser

variable {α β : Type} {s : Reading} {w : Enclosure} {P Q : Reading → Prop}

/-! ## At the end of a block -/

/-- Whether a parser cannot start at the end of a block or of all tokens. -/
def Refuses (p : Parser α) : Prop :=
  ∀ s : Reading, s.ahead.EndsBlock → ∃ fault, p s = .error ⟨s.ahead, fault⟩ s

namespace Refuses

variable {p : Parser α} {f : α → Parser β}

theorem missingExpression : Refuses (missingExpression : Parser α) := fun _ _ => ⟨_, rfl⟩

theorem bind (hp : Refuses p) : Refuses (p >>= f) := by
  intro s hs
  obtain ⟨fault, h⟩ := hp s hs
  exact ⟨fault, by rw [bind_apply, h]⟩

theorem peek {f : Token → Parser β} (h : ∀ t : Token, t.EndsBlock → Refuses (f t)) :
    Refuses (peek >>= f) :=
  fun s hs => h s.ahead hs s hs

theorem expect {what : Missing} (hwhat : what.kind ≠ .rightBrace) : Refuses (expect what) := by
  intro s hs
  have hne : s.ahead.kind ≠ what.kind := by
    rcases hs with hs | hs
    · exact hs ▸ hwhat.symm
    · rw [hs]
      cases what <;> decide
  exact ⟨_, expect_of_ne hne⟩

end Refuses

theorem refuses_primary (expression : Parser Expr) : Refuses (primary expression) := by
  unfold primary
  refine .peek fun t ht => ?_
  have hliteral : ∀ k ∈ literalKinds, k ∉ nesting := by decide
  rw [literal_eq_none fun hk => kind_ne_of_endsBlock ht (hliteral _ hk) rfl]
  rcases ht with ht | ht <;> simp only [ht] <;> exact .missingExpression

theorem not_sign_of_endsBlock {t : Token} (ht : t.EndsBlock) :
    ¬(t.kind = .bang ∨ t.kind = .minus) :=
  not_or_intro (kind_ne_of_endsBlock ht (by decide)) (kind_ne_of_endsBlock ht (by decide))

theorem refuses_unary (bound n : Nat) (expression : Parser Expr) :
    Refuses (unary bound expression n) := by
  cases n with
  | zero => exact .missingExpression
  | succ n =>
    rw [unary_succ]
    refine .peek fun t ht => ?_
    rw [if_neg (not_sign_of_endsBlock ht)]
    exact (refuses_primary expression).bind

theorem refuses_operators (bound : Nat) {operand : Parser Expr} (ho : Refuses operand)
    (levels : List Level) : Refuses (operators bound operand levels) := by
  induction levels with
  | nil => exact ho
  | cons level levels ih => exact ih.bind

theorem refuses_assignment (n : Nat) : Refuses (assignment n) := by
  cases n with
  | zero => exact .missingExpression
  | succ n => exact (refuses_operators (n + 1) (refuses_unary (n + 1) (n + 1) _) Level.all).bind

/-! ## Bodies within blocks -/

/-- Ending alike by itself and in a block.  At the end of the body there are two faults for one. -/
inductive Meets (w : Enclosure) (P : Reading → Prop) :
    EStateM.Result ParseError Reading α → EStateM.Result ParseError Reading α → Prop
  | ok {a : α} {s : Reading} : P s → Meets w P (.ok a s) (.ok a (s.within w.toSurroundings))
  | error {e : ParseError} {s : Reading} : s.InBody w → s.rest ≠ [] → e.token.kind ≠ .eof →
      Meets w P (.error e s) (.error e (s.within w.toSurroundings))
  | stopped {e e' : ParseError} {s t : Reading} : s.rest = [] → e.token.kind = .eof →
      t.rest = w.behind → t.stop = w.stop → Meets w P (.error e s) (.error e' t)

/-- Whether a parser does in a block what it does without one from `s` on, and the state that it
leaves if it succeeds is one of `P`. -/
def Keeps (w : Enclosure) (P : Reading → Prop) (s : Reading) (p : Parser α) : Prop :=
  Meets w P (p s) (p (s.within w.toSurroundings))

namespace Keeps

variable {p q : Parser α} {f : α → Parser β}

theorem mono (h : Keeps w P s p) (hPQ : ∀ s, P s → Q s) : Keeps w Q s p := by
  unfold Keeps at h ⊢
  generalize p s = x at h ⊢
  generalize p (s.within w.toSurroundings) = y at h ⊢
  cases h with
  | ok h => exact .ok (hPQ _ h)
  | error hs hr he => exact .error hs hr he
  | stopped hr he ht ht' => exact .stopped hr he ht ht'

theorem pure {a : α} (h : P s) : Keeps w P s (pure a) := .ok h

theorem bind (hp : Keeps w P s p) (hf : ∀ a s', P s' → Keeps w Q s' (f a)) :
    Keeps w Q s (p >>= f) := by
  unfold Keeps at hp ⊢
  rw [bind_apply, bind_apply]
  generalize p s = x at hp ⊢
  generalize p (s.within w.toSurroundings) = y at hp ⊢
  cases hp with
  | ok h => exact hf _ _ h
  | error hs hr he => exact .error hs hr he
  | stopped hr he ht ht' => exact .stopped hr he ht ht'

theorem map {g : α → β} (hp : Keeps w P s p) : Keeps w P s (g <$> p) :=
  bind (f := fun a => Pure.pure (g a)) hp fun _ _ h => pure h

theorem ite {c : Prop} [Decidable c] (hp : c → Keeps w P s p) (hq : ¬c → Keeps w P s q) :
    Keeps w P s (if c then p else q) := by
  split
  · next h => exact hp h
  · next h => exact hq h

/-- At the end, where the token ahead is not the same, what is done does not depend on it. -/
theorem peek {f : Token → Parser β} {q : Parser β} (hf : ∀ t : Token, t.EndsBlock → f t = q)
    (hs : s.InBody w) (hin : s.rest ≠ [] → Keeps w P s (f s.ahead)) (hend : Keeps w P s q) :
    Keeps w P s (peek >>= f) := by
  unfold Keeps at hin hend ⊢
  rw [bind_of_ok (peek_apply s), bind_of_ok (peek_apply _)]
  by_cases hr : s.rest = []
  · rwa [hf _ (.inr (hs.kind_ahead hr)), hf _ (.inl (Reading.kind_ahead_within hr))]
  · rw [Reading.ahead_within hr]
    exact hin hr

theorem peekIf {c : Token → Prop} [∀ t, Decidable (c t)] {f : Token → Parser β} {q : Parser β}
    (hc : ∀ t : Token, t.EndsBlock → ¬c t) (hs : s.InBody w)
    (hin : s.rest ≠ [] → c s.ahead → Keeps w P s (f s.ahead)) (hq : Keeps w P s q) :
    Keeps w P s (Parser.peek >>= fun t => if c t then f t else q) :=
  .peek (fun t ht => if_neg (hc t ht)) hs (fun hr => .ite (hin hr) fun _ => hq) hq

/-- Looking at the token ahead for a part that is optional. -/
theorem peekOptional {c : Token → Prop} [∀ t, Decidable (c t)] {a : α} {g : α → Parser β}
    (hc : ∀ t : Token, t.EndsBlock → ¬c t) (hs : s.InBody w)
    (hp : Keeps w (Reading.InBody w) s p)
    (hg : ∀ a s', s'.InBody w → Keeps w P s' (g a)) :
    Keeps w P s (Parser.peek >>= fun t => (if c t then Pure.pure a else p) >>= g) := by
  refine .peek (fun t ht => by rw [if_neg (hc t ht)]) hs (fun _ => ?_) (.bind hp hg)
  exact .bind (.ite (fun _ => pure hs) fun _ => hp) hg

theorem take {f : Token → Parser β} (hr : s.rest ≠ []) (h : Keeps w P s.next (f s.ahead)) :
    Keeps w P s (take >>= f) := by
  unfold Keeps at h ⊢
  rwa [bind_of_ok (take_apply s), bind_of_ok (take_apply _), Reading.ahead_within hr,
    Reading.next_within hr]

theorem refuses (hs : s.InBody w) (hr : s.rest = []) (hp : Refuses p) : Keeps w P s p := by
  obtain ⟨fault, h⟩ := hp s (.inr (hs.kind_ahead hr))
  obtain ⟨fault', h'⟩ := hp (s.within w.toSurroundings) (.inl (Reading.kind_ahead_within hr))
  unfold Keeps
  rw [h, h']
  exact .stopped hr (hs.kind_ahead hr) (by rw [Reading.within, hr]; rfl) rfl

theorem missingExpression (hs : s.InBody w) : Keeps w P s (missingExpression : Parser α) := by
  by_cases hr : s.rest = []
  · exact refuses hs hr .missingExpression
  · unfold Keeps
    show Meets w P (.error ⟨s.ahead, _⟩ s) (.error ⟨(s.within w.toSurroundings).ahead, _⟩ _)
    rw [Reading.ahead_within hr]
    exact .error hs hr (hs.ended.ahead_ne_eof hr)

theorem skip {kind : Kind} {f : Bool → Parser β} (hkind : kind ∉ nesting) (hs : s.InBody w)
    (ht : s.next.InBody w → Keeps w P s.next (f true)) (hf : Keeps w P s (f false)) :
    Keeps w P s (skip kind >>= f) := by
  by_cases h : s.ahead.kind = kind
  · have hr : s.rest ≠ [] := fun hr => hkind (by rw [← h, hs.kind_ahead hr]; decide)
    have hnext := ht hs.next
    unfold Keeps at hnext ⊢
    rwa [bind_of_ok (skip_of_eq h), bind_of_ok (skip_of_eq (Reading.ahead_within hr ▸ h)),
      Reading.next_within hr]
  · have hwithin : (s.within w.toSurroundings).ahead.kind ≠ kind := by
      by_cases hr : s.rest = []
      · rw [Reading.kind_ahead_within hr]
        exact fun he => hkind (by rw [← he]; decide)
      · rwa [Reading.ahead_within hr]
    unfold Keeps at hf ⊢
    rwa [bind_of_ok (skip_of_ne h), bind_of_ok (skip_of_ne hwithin)]

theorem expect {what : Missing} {f : Token → Parser β} (hwhat : what ≠ .afterBlock)
    (hs : s.InBody w)
    (h : s.ahead.kind = what.kind → s.rest ≠ [] → Keeps w P s.next (f s.ahead)) :
    Keeps w P s (expect what >>= f) := by
  have hkind : what.kind ≠ .rightBrace := by
    intro hk
    cases what <;> cases hk
    exact hwhat rfl
  by_cases hr : s.rest = []
  · exact refuses hs hr (Refuses.expect hkind).bind
  by_cases hk : s.ahead.kind = what.kind
  · have hnext := h hk hr
    unfold Keeps at hnext ⊢
    rwa [bind_of_ok (expect_of_eq hk), bind_of_ok (expect_of_eq (Reading.ahead_within hr ▸ hk)),
      Reading.ahead_within hr, Reading.next_within hr]
  · unfold Keeps
    rw [bind_apply, bind_apply, expect_of_ne hk, expect_of_ne (Reading.ahead_within hr ▸ hk),
      Reading.ahead_within hr]
    exact .error hs hr (hs.ended.ahead_ne_eof hr)

/-- A statement ends with a semicolon. -/
theorem expectEnd {what : Missing} {a : Token → β} (hwhat : what.kind = .semicolon)
    (hs : s.InBody w) :
    Keeps w (Reading.BehindSemicolon w) s (Parser.expect what >>= fun t => Pure.pure (a t)) := by
  refine .expect ?_ hs fun hk _ => pure (hs.behindSemicolon_next (hk.trans hwhat))
  rintro rfl
  cases hwhat

theorem report {t : Token} (ht : t.kind ≠ .eof) (fault : ParseFault) (hs : s.InBody w) :
    Keeps w (Reading.InBody w) s (report t fault) := by
  have h : Meets w (Reading.InBody w) (.ok () (s.record ⟨t, fault⟩))
      (.ok () ((s.record ⟨t, fault⟩).within w.toSurroundings)) := .ok (hs.record ht)
  rwa [← s.record_within] at h

/-- A fault that is recorded at the end is not the last one there. -/
theorem limited {count : Nat} {fault : ParseFault} (hrefuses : Refuses p)
    (hp : ∀ s : Reading, s.InBody w → Keeps w P s p) (hs : s.InBody w) :
    Keeps w P s (limit count fault >>= fun _ => p) := by
  by_cases hcount : count < arityLimit
  · have h := hp s hs
    unfold Keeps at h ⊢
    rwa [bind_of_ok (limit_of_lt hcount), bind_of_ok (limit_of_lt hcount)]
  have hle := Nat.not_lt.mp hcount
  unfold Keeps
  rw [bind_of_ok (limit_of_le hle), bind_of_ok (limit_of_le hle)]
  by_cases hr : s.rest = []
  · obtain ⟨e, h⟩ := hrefuses (s.record ⟨s.ahead, fault⟩) (.inr (hs.kind_ahead hr))
    obtain ⟨e', h'⟩ := hrefuses ((s.within w.toSurroundings).record ⟨_, fault⟩)
      (.inl (Reading.kind_ahead_within hr))
    rw [h, h']
    exact .stopped hr (hs.kind_ahead hr) (by rw [Reading.record, Reading.within, hr]; rfl) rfl
  · rw [Reading.ahead_within hr, Reading.record_within]
    exact hp _ (hs.record (hs.ended.ahead_ne_eof hr))

end Keeps

/-! ## Expressions -/

section Expressions

variable {expression : Parser Expr} (hrefuses : Refuses expression)
  (he : ∀ s : Reading, s.InBody w → Keeps w (Reading.InBody w) s expression)

include hrefuses he in
theorem keeps_arguments (n count : Nat) (hs : s.InBody w) :
    Keeps w (Reading.InBody w) s (arguments expression n count) := by
  induction n generalizing s count with
  | zero =>
    exact .limited hrefuses.bind (fun s₁ h₁ => .bind (he s₁ h₁) fun _ _ h₂ => .pure h₂) hs
  | succ n ih =>
    rw [arguments_succ]
    refine .limited hrefuses.bind (fun s₁ h₁ => .bind (he s₁ h₁) fun _ s₂ h₂ => ?_) hs
    refine .skip (by decide) h₂ (fun h₃ => ?_) (.pure h₂)
    exact .bind (ih (count + 1) h₃) fun _ _ h₄ => .pure h₄

include hrefuses he in
theorem keeps_argumentList (bound : Nat) (hs : s.InBody w) :
    Keeps w (Reading.InBody w) s (argumentList bound expression) :=
  .peekIf (fun t ht => kind_ne_of_endsBlock ht (by decide)) hs (fun _ _ => .pure hs)
    (keeps_arguments hrefuses he bound 0 hs)

include hrefuses he in
theorem keeps_calls (bound n : Nat) (callee : Expr) (hs : s.InBody w) :
    Keeps w (Reading.InBody w) s (calls bound expression n callee) := by
  induction n generalizing s callee with
  | zero => exact .pure hs
  | succ n ih =>
    rw [calls_succ]
    refine .skip (by decide) hs (fun h₁ => ?_) (.pure hs)
    refine .bind (keeps_argumentList hrefuses he bound h₁) fun _ s₂ h₂ => ?_
    exact .expect (by decide) h₂ fun _ _ => ih _ h₂.next

include he in
theorem keeps_primary (hs : s.InBody w) :
    Keeps w (Reading.InBody w) s (primary expression) := by
  -- What is done at the end does not show before the token there is known to be no literal.
  by_cases hr : s.rest = []
  · exact .refuses hs hr (refuses_primary expression)
  have hnext := hs.next
  have hinner : Keeps w (Reading.InBody w) s.next (do
      let inner ← expression
      let _ ← expect .afterGrouping
      return Expr.grouping inner) :=
    .bind (he _ hnext) fun _ s₁ h₁ => .expect (by decide) h₁ fun _ _ => .pure h₁.next
  unfold primary Keeps
  rw [bind_of_ok (peek_apply s), bind_of_ok (peek_apply _), Reading.ahead_within hr]
  show Keeps w (Reading.InBody w) s _
  split
  · exact .take hr (.pure hnext)
  · split
    · exact .take hr (.pure hnext)
    · exact .take hr hinner
    · exact .missingExpression hs

include hrefuses he in
theorem keeps_unary (bound n : Nat) (hs : s.InBody w) :
    Keeps w (Reading.InBody w) s (unary bound expression n) := by
  induction n generalizing s with
  | zero => exact .missingExpression hs
  | succ n ih =>
    have hcall : Keeps w (Reading.InBody w) s (primary expression >>= fun callee =>
        calls bound expression bound callee) :=
      .bind (keeps_primary he hs) fun _ _ h₁ => keeps_calls hrefuses he bound bound _ h₁
    rw [unary_succ]
    refine .peekIf (fun t => not_sign_of_endsBlock) hs (fun hr _ => ?_) hcall
    exact .take hr (.bind (ih hs.next) fun _ _ h₁ => .pure h₁)

end Expressions

theorem not_mem_operators {t : Token} (ht : t.EndsBlock) (level : Level) :
    ¬level.operators.contains t.kind = true := by
  rcases ht with ht | ht <;> rw [ht] <;> cases level <;> decide

theorem keeps_operations {operand : Parser Expr}
    (ho : ∀ s : Reading, s.InBody w → Keeps w (Reading.InBody w) s operand) (level : Level)
    (n : Nat) (left : Expr) (hs : s.InBody w) :
    Keeps w (Reading.InBody w) s (operations level operand n left) := by
  induction n generalizing s left with
  | zero => exact .pure hs
  | succ n ih =>
    rw [operations_succ]
    refine .peekIf (fun t ht => not_mem_operators ht level) hs (fun hr _ => .take hr ?_) (.pure hs)
    exact .bind (ho _ hs.next) fun _ _ h₁ => ih _ h₁

theorem keeps_operators (bound : Nat) {operand : Parser Expr}
    (ho : ∀ s : Reading, s.InBody w → Keeps w (Reading.InBody w) s operand) (levels : List Level)
    (hs : s.InBody w) : Keeps w (Reading.InBody w) s (operators bound operand levels) := by
  induction levels generalizing s with
  | nil => exact ho s hs
  | cons level levels ih =>
    exact .bind (ih hs) fun _ _ h₁ => keeps_operations (fun _ => ih) level bound _ h₁

theorem keeps_assignment (n : Nat) (hs : s.InBody w) :
    Keeps w (Reading.InBody w) s (assignment n) := by
  induction n generalizing s with
  | zero => exact .missingExpression hs
  | succ n ih =>
    unfold assignment
    have hunary : ∀ s : Reading, s.InBody w →
        Keeps w (Reading.InBody w) s (unary (n + 1) (assignment n) (n + 1)) :=
      fun _ => keeps_unary (refuses_assignment n) (fun _ => ih) (n + 1) (n + 1)
    refine .bind (keeps_operators (n + 1) hunary Level.all hs) fun target s₁ h₁ => ?_
    refine .peekIf (fun t ht => kind_ne_of_endsBlock ht (by decide)) h₁ (fun hr hk => ?_) (.pure h₁)
    refine .take hr (.bind (ih h₁.next) fun value s₂ h₂ => ?_)
    split
    · exact .pure h₂
    · exact .bind (.report (by rw [hk]; decide) _ h₂) fun _ _ h₃ => .pure h₃

/-! ## Statements -/

theorem keeps_expressionStatement (bound : Nat) (hs : s.InBody w) :
    Keeps w (Reading.BehindSemicolon w) s (expressionStatement bound) :=
  .bind (keeps_assignment bound hs) fun _ _ h₁ => .expectEnd rfl h₁

theorem keeps_variableDeclaration (bound : Nat) (hs : s.InBody w) :
    Keeps w (Reading.BehindSemicolon w) s (variableDeclaration bound) := by
  rw [variableDeclaration_eq]
  refine .expect (by decide) hs fun _ _ => .skip (by decide) hs.next (fun h₁ => ?_) ?_
  · exact .bind (.map (keeps_assignment bound h₁)) fun _ _ h₂ => .expectEnd rfl h₂
  · exact .bind (.pure hs.next) fun _ _ h₁ => .expectEnd rfl h₁

theorem keeps_parameters (n count : Nat) (hs : s.InBody w) :
    Keeps w (Reading.InBody w) s (parameters n count) := by
  have hrefuses : Refuses (expect .parameterName) := .expect (by decide)
  induction n generalizing s count with
  | zero =>
    exact .limited hrefuses.bind
      (fun s₁ h₁ => .expect (by decide) h₁ fun _ _ => .pure h₁.next) hs
  | succ n ih =>
    refine .limited hrefuses.bind (fun s₁ h₁ => .expect (by decide) h₁ fun _ _ => ?_) hs
    refine .skip (by decide) h₁.next (fun h₂ => ?_) (.pure h₁.next)
    exact .bind (ih (count + 1) h₂) fun _ _ h₃ => .pure h₃

theorem keeps_parameterList (bound : Nat) (hs : s.InBody w) :
    Keeps w (Reading.InBody w) s (parameterList bound) :=
  .peekIf (fun t ht => kind_ne_of_endsBlock ht (by decide)) hs (fun _ _ => .pure hs)
    (keeps_parameters bound 0 hs)

/-- The body of a function would be a block inside. -/
theorem keeps_functionDeclaration (bound : Nat) (declaration : Parser (Option Stmt))
    (hs : s.InBody w) :
    Keeps w (Reading.BehindSemicolon w) s (functionDeclaration bound declaration) := by
  unfold functionDeclaration
  refine .expect (by decide) hs fun _ _ => .expect (by decide) hs.next fun _ _ => ?_
  refine .bind (keeps_parameterList bound hs.next.next) fun _ s₁ h₁ => ?_
  refine .expect (by decide) h₁ fun _ _ => .expect (by decide) h₁.next fun hk hr => ?_
  exact absurd hk fun hk => h₁.next.ahead_not_mem hr (by rw [hk]; decide)

theorem keeps_print (bound : Nat) (keyword : Token) (hs : s.InBody w) :
    Keeps w (Reading.BehindSemicolon w) s (print bound keyword) :=
  .bind (keeps_assignment bound hs) fun _ _ h₁ => .expectEnd rfl h₁

theorem keeps_checkReturn {keyword : Token} (hk : keyword.kind ≠ .eof) (hs : s.InBody w) :
    Keeps w (Reading.InBody w) s (checkReturn keyword) := by
  have h : Keeps w (Reading.InBody w) s
      (if s.depth = 0 then report keyword .topLevelReturn else pure ()) :=
    .ite (fun _ => .report hk _ hs) fun _ => .pure hs
  exact h

theorem keeps_ret (bound : Nat) {keyword : Token} (hk : keyword.kind ≠ .eof) (hs : s.InBody w) :
    Keeps w (Reading.BehindSemicolon w) s (ret bound keyword) := by
  rw [ret_eq]
  refine .bind (keeps_checkReturn hk hs) fun _ s₁ h₁ => ?_
  exact .peekOptional (fun t ht => kind_ne_of_endsBlock ht (by decide)) h₁
    (.map (keeps_assignment bound h₁)) fun _ _ h₂ => .expectEnd rfl h₂

theorem keeps_initializer (bound : Nat) (hs : s.InBody w) :
    Keeps w (Reading.InBody w) s (initializer bound) := by
  have hexpression : Keeps w (Reading.InBody w) s (some <$> expressionStatement bound) :=
    .map ((keeps_expressionStatement bound hs).mono fun _ h => h.toInBody)
  unfold initializer
  refine .peek (fun t ht => ?_) hs (fun hr => ?_) hexpression
  · rcases ht with ht | ht <;> simp only [ht]
  · split
    · exact .take hr (.pure hs.next)
    · refine .take hr (.map ?_)
      exact (keeps_variableDeclaration bound hs.next).mono fun _ h => h.toInBody
    · exact hexpression

section Parts

variable {statement : Parser Stmt}
  (hst : ∀ s : Reading, s.InBody w → Keeps w (Reading.BehindSemicolon w) s statement)
include hst

theorem keeps_branch (bound : Nat) (hs : s.InBody w) :
    Keeps w (Reading.BehindSemicolon w) s (branch bound statement) := by
  rw [branch_eq]
  refine .expect (by decide) hs fun _ _ => .bind (keeps_assignment bound hs.next) fun _ s₁ h₁ => ?_
  refine .expect (by decide) h₁ fun _ _ => .bind (hst _ h₁.next) fun _ s₂ h₂ => ?_
  refine .skip (by decide) h₂.toInBody (fun h₃ => ?_) (.pure h₂)
  exact .bind (.map (hst _ h₃)) fun _ _ h₄ => .pure h₄

theorem keeps_whileLoop (bound : Nat) (hs : s.InBody w) :
    Keeps w (Reading.BehindSemicolon w) s (whileLoop bound statement) := by
  refine .expect (by decide) hs fun _ _ => .bind (keeps_assignment bound hs.next) fun _ s₁ h₁ => ?_
  exact .expect (by decide) h₁ fun _ _ => .bind (hst _ h₁.next) fun _ _ h₂ => .pure h₂

theorem keeps_forLoop (bound : Nat) (hs : s.InBody w) :
    Keeps w (Reading.BehindSemicolon w) s (forLoop bound statement) := by
  rw [forLoop_eq]
  refine .expect (by decide) hs fun _ _ => .bind (keeps_initializer bound hs.next) fun _ s₁ h₁ => ?_
  refine .peekOptional (fun t ht => kind_ne_of_endsBlock ht (by decide)) h₁
    (keeps_assignment bound h₁) fun _ s₂ h₂ => .expect (by decide) h₂ fun _ _ => ?_
  refine .peekOptional (fun t ht => kind_ne_of_endsBlock ht (by decide)) h₂.next
    (.map (keeps_assignment bound h₂.next)) fun _ s₃ h₃ => .expect (by decide) h₃ fun _ _ => ?_
  exact .bind (hst _ h₃.next) fun _ _ h₄ => .pure h₄

theorem keeps_statementOf (bound : Nat) (declaration : Parser (Option Stmt)) (hs : s.InBody w) :
    Keeps w (Reading.BehindSemicolon w) s (statementOf bound statement declaration) := by
  unfold statementOf
  refine .peek (fun t ht => ?_) hs (fun hr => ?_) (keeps_expressionStatement bound hs)
  · rcases ht with ht | ht <;> simp only [ht]
  · split
    · exact .take hr (keeps_branch hst bound hs.next)
    · exact .take hr (keeps_print bound _ hs.next)
    · next hk => exact .take hr (keeps_ret bound (by rw [hk]; decide) hs.next)
    · next hk => exact absurd (by rw [hk]; decide) (hs.ahead_not_mem hr)
    · exact .take hr (keeps_whileLoop hst bound hs.next)
    · exact .take hr (keeps_forLoop hst bound hs.next)
    · exact keeps_expressionStatement bound hs

theorem keeps_declarationOf (bound : Nat) (declaration : Parser (Option Stmt)) (hs : s.InBody w) :
    Keeps w (Reading.BehindSemicolon w) s (declarationOf bound statement declaration) := by
  have hstatement := keeps_statementOf hst bound declaration hs
  unfold declarationOf
  refine .peek (fun t ht => ?_) hs (fun hr => ?_) hstatement
  · rcases ht with ht | ht <;> simp only [ht]
  · split
    · exact .take hr (keeps_variableDeclaration bound hs.next)
    · exact .take hr (keeps_functionDeclaration bound declaration hs.next)
    · exact hstatement

end Parts

theorem keeps_statement (n : Nat) (hs : s.InBody w) :
    Keeps w (Reading.BehindSemicolon w) s (statement n) := by
  induction n generalizing s with
  | zero => exact .missingExpression hs
  | succ n ih => exact keeps_statementOf (fun _ => ih) (n + 1) (declaration n) hs

end Parser
end Lox
