import Lox.Proofs.Grammar.Remainder

/-!
Chunks of a program.

A chunk is a row of tokens up to a semicolon, with nothing in it that statements could go beyond the
semicolon with.  Whatever goes wrong in a chunk, recovery ends behind its semicolon at the latest.
So a chunk is read alike by itself and among others.
-/

namespace Lox

open Grammar

namespace Grammar

/-- The kinds that a chunk has none of in front of its end.  Blocks and the heads of `for`
statements have semicolons inside, and behind a semicolon an `else` goes on with a statement. -/
def unchunked : List Kind := [.semicolon, .leftBrace, .rightBrace, .kwFor, .kwElse, .eof]

/-- Tokens with a semicolon behind them. -/
def Chunk (ts : List Token) : Prop :=
  ∃ us t, ts = us ++ [t] ∧ (∀ u ∈ us, u.kind ∉ unchunked) ∧ t.kind = .semicolon

theorem chunk_cons {t : Token} {ts : List Token} (h : Chunk (t :: ts)) :
    t.kind = .semicolon ∧ ts = [] ∨ t.kind ∉ unchunked ∧ Chunk ts := by
  obtain ⟨us, semicolon, hts, hus, hsemi⟩ := h
  cases us with
  | nil =>
    obtain ⟨rfl, rfl⟩ := List.cons.inj hts
    exact .inl ⟨hsemi, rfl⟩
  | cons u us =>
    obtain ⟨rfl, rfl⟩ := List.cons.inj hts
    obtain ⟨hu, hus⟩ := List.forall_mem_cons.mp hus
    exact .inr ⟨hu, us, semicolon, rfl, hus, hsemi⟩

theorem Chunk.exists_cons {ts : List Token} (h : Chunk ts) : ∃ t us, ts = t :: us := by
  obtain ⟨us, t, rfl, -, -⟩ := h
  exact List.exists_cons_of_ne_nil (List.append_ne_nil_of_right_ne_nil us (List.cons_ne_nil t []))

theorem Chunk.kind_ne {ts : List Token} (h : Chunk ts) {k : Kind} (hk : k ∈ unchunked)
    (hsemi : k ≠ .semicolon) : ∀ t ∈ ts, t.kind ≠ k := by
  obtain ⟨us, semicolon, rfl, hus, hend⟩ := h
  intro t ht
  rcases List.mem_append.mp ht with ht | ht
  · exact fun he => hus t ht (he ▸ hk)
  · rw [List.mem_singleton.mp ht, hend]
    exact hsemi.symm

/-- What may stand around a chunk. -/
structure Surroundings where
  /-- The faults that were recorded before. -/
  before : List ParseError
  /-- The tokens behind. -/
  behind : List Token
  /-- The token that ends the list. -/
  stop : Token
  stop_eof : stop.kind = .eof
  behind_ne_eof : ∀ t ∈ behind, t.kind ≠ .eof
  ahead_ne_else : (behind.headD stop).kind ≠ .kwElse

def Surroundings.nothing {stop : Token} (h : stop.kind = .eof) : Surroundings where
  before := []
  behind := []
  stop := stop
  stop_eof := h
  behind_ne_eof := nofun
  ahead_ne_else := fun he => nomatch h.symm.trans he

end Grammar

namespace Reading

variable {s : Reading} {w : Surroundings}

/-- The state of reading the tokens that are left with others behind them. -/
def within (s : Reading) (w : Surroundings) : Reading where
  rest := s.rest ++ w.behind
  stop := w.stop
  depth := s.depth
  errors := w.before ++ s.errors

/-- Whether a chunk is left, or the end of one. -/
structure InChunk (s : Reading) : Prop where
  stop : s.stop.kind = .eof
  rest : Chunk s.rest

/-- Whether nothing is left. -/
structure Past (s : Reading) : Prop where
  stop : s.stop.kind = .eof
  rest : s.rest = []

theorem record_within (s : Reading) (w : Surroundings) (e : ParseError) :
    (s.within w).record e = (s.record e).within w := by
  unfold record within
  rw [List.append_assoc]

namespace InChunk

theorem cases_rest (hs : s.InChunk) :
    ∃ t ts, s.rest = t :: ts ∧ (t.kind = .semicolon ∧ ts = [] ∨ t.kind ∉ unchunked ∧ Chunk ts) := by
  obtain ⟨t, ts, hr⟩ := hs.rest.exists_cons
  exact ⟨t, ts, hr, chunk_cons (hr ▸ hs.rest)⟩

theorem ahead_within (hs : s.InChunk) : (s.within w).ahead = s.ahead := by
  obtain ⟨t, ts, hr, -⟩ := hs.cases_rest
  unfold within ahead
  rw [hr]
  rfl

theorem next_within (hs : s.InChunk) : (s.within w).next = s.next.within w := by
  obtain ⟨t, ts, hr, -⟩ := hs.cases_rest
  unfold within next
  rw [hr]
  rfl

theorem ahead_ne (hs : s.InChunk) {k : Kind} (hk : k ∈ unchunked) (hsemi : k ≠ .semicolon) :
    s.ahead.kind ≠ k := by
  obtain ⟨t, ts, hr⟩ := hs.rest.exists_cons
  rw [s.ahead_of_rest hr]
  exact hs.rest.kind_ne hk hsemi t (hr ▸ List.mem_cons_self)

theorem next (hs : s.InChunk) (ha : s.ahead.kind ≠ .semicolon) : s.next.InChunk := by
  obtain ⟨t, ts, hr, hcases⟩ := hs.cases_rest
  rw [s.ahead_of_rest hr] at ha
  rw [s.next_of_rest hr]
  exact ⟨hs.stop, (hcases.resolve_left fun h => ha h.1).2⟩

/-- The semicolon is the last token of a chunk. -/
theorem past_next (hs : s.InChunk) (ha : s.ahead.kind = .semicolon) : s.next.Past := by
  obtain ⟨t, ts, hr, hcases⟩ := hs.cases_rest
  rw [s.ahead_of_rest hr] at ha
  rw [s.next_of_rest hr]
  exact ⟨hs.stop, (hcases.resolve_right fun h => h.1 (ha ▸ by decide)).2⟩

theorem record (hs : s.InChunk) (e : ParseError) : (s.record e).InChunk := ⟨hs.stop, hs.rest⟩

theorem ended (hs : s.InChunk) : s.Ended := ⟨hs.stop, hs.rest.kind_ne (by decide) (by decide)⟩

theorem ended_within (hs : s.InChunk) : (s.within w).Ended := by
  refine ⟨w.stop_eof, fun t ht => ?_⟩
  rcases List.mem_append.mp ht with ht | ht
  · exact hs.ended.rest t ht
  · exact w.behind_ne_eof t ht

end InChunk

theorem Past.ahead_ne_else (hs : s.Past) : s.ahead.kind ≠ .kwElse := by
  rw [ahead, hs.rest, List.headD_nil, hs.stop]
  decide

theorem Past.ahead_within_ne_else (hs : s.Past) : (s.within w).ahead.kind ≠ .kwElse := by
  rw [ahead, within, hs.rest]
  exact w.ahead_ne_else

end Reading

namespace Parser

variable {α β : Type} {s : Reading} {w : Surroundings} {P Q : Reading → Prop}

/-! ## Chunks within surroundings -/

/-- Ending alike by itself and within surroundings.  A fault is found within the chunk. -/
inductive Ends (w : Surroundings) (P : Reading → Prop) :
    EStateM.Result ParseError Reading α → EStateM.Result ParseError Reading α → Prop
  | ok {a : α} {s : Reading} : P s → Ends w P (.ok a s) (.ok a (s.within w))
  | error {e : ParseError} {s : Reading} :
      s.InChunk → Ends w P (.error e s) (.error e (s.within w))

/-- Whether surroundings make no difference to what a parser does from `s` on, and the state that
it leaves if it succeeds is one of `P`. -/
def Stays (w : Surroundings) (P : Reading → Prop) (s : Reading) (p : Parser α) : Prop :=
  Ends w P (p s) (p (s.within w))

namespace Stays

variable {p q : Parser α} {f : α → Parser β}

theorem pure {a : α} (h : P s) : Stays w P s (pure a) := .ok h

theorem throw (hs : s.InChunk) (e : ParseError) : Stays w P s (throw e : Parser α) := .error hs

theorem bind (hp : Stays w P s p) (hf : ∀ a s', P s' → Stays w Q s' (f a)) :
    Stays w Q s (p >>= f) := by
  unfold Stays at hp ⊢
  rw [bind_apply, bind_apply]
  generalize p s = x at hp ⊢
  generalize p (s.within w) = y at hp ⊢
  cases hp with
  | ok h => exact hf _ _ h
  | error hs => exact .error hs

theorem map {g : α → β} (hp : Stays w P s p) : Stays w P s (g <$> p) :=
  bind (f := fun a => Pure.pure (g a)) hp fun _ _ h => pure h

theorem ite {c : Prop} [Decidable c] (hp : c → Stays w P s p) (hq : ¬c → Stays w P s q) :
    Stays w P s (if c then p else q) := by
  split
  · next h => exact hp h
  · next h => exact hq h

theorem peek {f : Token → Parser β} (hs : s.InChunk) (h : Stays w P s (f s.ahead)) :
    Stays w P s (peek >>= f) := by
  unfold Stays at h ⊢
  rwa [bind_of_ok (peek_apply s), bind_of_ok (peek_apply _), hs.ahead_within]

theorem take {f : Token → Parser β} (hs : s.InChunk) (ha : s.ahead.kind ≠ .semicolon)
    (h : s.next.InChunk → Stays w P s.next (f s.ahead)) : Stays w P s (take >>= f) := by
  have hnext := h (hs.next ha)
  unfold Stays at hnext ⊢
  rwa [bind_of_ok (take_apply s), bind_of_ok (take_apply _), hs.ahead_within, hs.next_within]

theorem skip {kind : Kind} {f : Bool → Parser β} (hs : s.InChunk) (hk : kind ≠ .semicolon)
    (ht : s.next.InChunk → Stays w P s.next (f true)) (hf : Stays w P s (f false)) :
    Stays w P s (skip kind >>= f) := by
  by_cases h : s.ahead.kind = kind
  · have hnext := ht (hs.next (h ▸ hk))
    unfold Stays at hnext ⊢
    rwa [bind_of_ok (skip_of_eq h), bind_of_ok (skip_of_eq (hs.ahead_within ▸ h)), hs.next_within]
  · unfold Stays at hf ⊢
    rwa [bind_of_ok (skip_of_ne h), bind_of_ok (skip_of_ne (hs.ahead_within ▸ h))]

/-- Neither behind a chunk by itself nor behind one within surroundings is there an `else`. -/
theorem skipElse {f : Bool → Parser β} (hs : s.Past) (hf : Stays w P s (f false)) :
    Stays w P s (Parser.skip .kwElse >>= f) := by
  unfold Stays at hf ⊢
  rwa [bind_of_ok (skip_of_ne hs.ahead_ne_else), bind_of_ok (skip_of_ne hs.ahead_within_ne_else)]

theorem expectOr {what : Missing} {f : Token → Parser β} (hs : s.InChunk)
    (h : s.ahead.kind = what.kind → Stays w P s.next (f s.ahead)) :
    Stays w P s (expect what >>= f) := by
  by_cases hk : s.ahead.kind = what.kind
  · have hnext := h hk
    unfold Stays at hnext ⊢
    rwa [bind_of_ok (expect_of_eq hk), bind_of_ok (expect_of_eq (hs.ahead_within ▸ hk)),
      hs.ahead_within, hs.next_within]
  · unfold Stays
    rw [bind_apply, bind_apply, expect_of_ne hk, expect_of_ne (hs.ahead_within ▸ hk),
      hs.ahead_within]
    exact .error hs

theorem expect {what : Missing} {f : Token → Parser β} (hs : s.InChunk)
    (hwhat : what.kind ≠ .semicolon) (h : s.next.InChunk → Stays w P s.next (f s.ahead)) :
    Stays w P s (expect what >>= f) :=
  expectOr hs fun hk => h (hs.next (hk ▸ hwhat))

/-- The semicolon ends the chunk. -/
theorem expectEnd {what : Missing} {a : Token → β} (hs : s.InChunk)
    (hwhat : what.kind = .semicolon) :
    Stays w Reading.Past s (Parser.expect what >>= fun t => Pure.pure (a t)) :=
  expectOr hs fun hk => pure (hs.past_next (hk.trans hwhat))

theorem report (hs : s.InChunk) (t : Token) (fault : ParseFault) :
    Stays w Reading.InChunk s (report t fault) := by
  have h : Ends w Reading.InChunk (.ok () (s.record ⟨t, fault⟩))
      (.ok () ((s.record ⟨t, fault⟩).within w)) := .ok (hs.record _)
  rwa [← s.record_within] at h

theorem missingExpression (hs : s.InChunk) : Stays w P s (missingExpression : Parser α) :=
  peek hs (throw hs _)

theorem limit (hs : s.InChunk) (count : Nat) (fault : ParseFault) :
    Stays w Reading.InChunk s (limit count fault) :=
  ite (fun _ => peek hs (report hs _ _)) fun _ => pure hs

end Stays

/-! ## Expressions -/

section Expressions

variable {expression : Parser Expr}
  (he : ∀ s : Reading, s.InChunk → Stays w Reading.InChunk s expression)
include he

theorem stays_arguments (n count : Nat) (hs : s.InChunk) :
    Stays w Reading.InChunk s (arguments expression n count) := by
  induction n generalizing s count with
  | zero => exact .bind (.limit hs _ _) fun _ s₁ h₁ => .bind (he s₁ h₁) fun e s₂ h₂ => .pure h₂
  | succ n ih =>
    rw [arguments_succ]
    refine .bind (.limit hs _ _) fun _ s₁ h₁ => .bind (he s₁ h₁) fun e s₂ h₂ => ?_
    refine .skip h₂ (by decide) (fun h₃ => ?_) (.pure h₂)
    exact .bind (ih (count + 1) h₃) fun es s₄ h₄ => .pure h₄

theorem stays_argumentList (bound : Nat) (hs : s.InChunk) :
    Stays w Reading.InChunk s (argumentList bound expression) :=
  .peek hs (.ite (fun _ => .pure hs) fun _ => stays_arguments he bound 0 hs)

theorem stays_calls (bound n : Nat) (callee : Expr) (hs : s.InChunk) :
    Stays w Reading.InChunk s (calls bound expression n callee) := by
  induction n generalizing s callee with
  | zero => exact .pure hs
  | succ n ih =>
    rw [calls_succ]
    refine .skip hs (by decide) (fun h₁ => ?_) (.pure hs)
    refine .bind (stays_argumentList he bound h₁) fun es s₂ h₂ => ?_
    exact .expect h₂ (by decide) fun h₃ => ih _ h₃

theorem stays_primary (hs : s.InChunk) : Stays w Reading.InChunk s (primary expression) := by
  unfold primary
  refine .peek hs ?_
  split
  · next v hv =>
    have hk : s.ahead.kind ≠ .semicolon := ne_of_mem_of_not_mem (kind_of_literal hv) (by decide)
    exact .take hs hk fun h₁ => .pure h₁
  · split
    · next hk => exact .take hs (by rw [hk]; decide) fun h₁ => .pure h₁
    · next hk =>
      refine .take hs (by rw [hk]; decide) fun h₁ => .bind (he _ h₁) fun e s₂ h₂ => ?_
      exact .expect h₂ (by decide) fun h₃ => .pure h₃
    · exact .missingExpression hs

theorem stays_unary (bound n : Nat) (hs : s.InChunk) :
    Stays w Reading.InChunk s (unary bound expression n) := by
  induction n generalizing s with
  | zero => exact .missingExpression hs
  | succ n ih =>
    rw [unary_succ]
    refine .peek hs (.ite (fun hk => ?_) fun _ => ?_)
    · refine .take hs (by rcases hk with hk | hk <;> rw [hk] <;> decide) fun h₁ => ?_
      exact .bind (ih h₁) fun e s₂ h₂ => .pure h₂
    · exact .bind (stays_primary he hs) fun callee s₁ h₁ => stays_calls he bound bound callee h₁

end Expressions

theorem ne_semicolon_of_mem_operators {level : Level} {k : Kind} (h : k ∈ level.operators) :
    k ≠ .semicolon := by
  rintro rfl
  cases level <;> exact absurd h (by decide)

theorem stays_operations {operand : Parser Expr}
    (ho : ∀ s : Reading, s.InChunk → Stays w Reading.InChunk s operand) (level : Level) (n : Nat)
    (left : Expr) (hs : s.InChunk) :
    Stays w Reading.InChunk s (operations level operand n left) := by
  induction n generalizing s left with
  | zero => exact .pure hs
  | succ n ih =>
    rw [operations_succ]
    refine .peek hs (.ite (fun hk => ?_) fun _ => .pure hs)
    have hne := ne_semicolon_of_mem_operators (List.contains_iff_mem.mp hk)
    exact .take hs hne fun h₁ => .bind (ho _ h₁) fun right s₂ h₂ => ih _ h₂

theorem stays_operators (bound : Nat) {operand : Parser Expr}
    (ho : ∀ s : Reading, s.InChunk → Stays w Reading.InChunk s operand) (levels : List Level)
    (hs : s.InChunk) : Stays w Reading.InChunk s (operators bound operand levels) := by
  induction levels generalizing s with
  | nil => exact ho s hs
  | cons level levels ih =>
    exact .bind (ih hs) fun left s₁ h₁ => stays_operations (fun _ => ih) level bound left h₁

theorem stays_assignment (n : Nat) (hs : s.InChunk) :
    Stays w Reading.InChunk s (assignment n) := by
  induction n generalizing s with
  | zero => exact .missingExpression hs
  | succ n ih =>
    unfold assignment
    have hunary : ∀ s : Reading, s.InChunk →
        Stays w Reading.InChunk s (unary (n + 1) (assignment n) (n + 1)) :=
      fun _ => stays_unary (fun _ => ih) (n + 1) (n + 1)
    refine .bind (stays_operators (n + 1) hunary Level.all hs) fun target s₁ h₁ => ?_
    refine .peek h₁ (.ite (fun hk => ?_) fun _ => .pure h₁)
    refine .take h₁ (by rw [hk]; decide) fun h₂ => .bind (ih h₂) fun value s₃ h₃ => ?_
    split
    · exact .pure h₃
    · exact .bind (.report h₃ _ _) fun _ s₄ h₄ => .pure h₄

/-! ## Statements -/

theorem stays_expressionStatement (bound : Nat) (hs : s.InChunk) :
    Stays w Reading.Past s (expressionStatement bound) :=
  .bind (stays_assignment bound hs) fun _ _ h₁ => .expectEnd h₁ rfl

/-- An optional expression. -/
theorem stays_optional {c : Prop} [Decidable c] (bound : Nat) (hs : s.InChunk) :
    Stays w Reading.InChunk s (if c then pure none else some <$> assignment bound) :=
  .ite (fun _ => .pure hs) fun _ => .map (stays_assignment bound hs)

theorem stays_variableDeclaration (bound : Nat) (hs : s.InChunk) :
    Stays w Reading.Past s (variableDeclaration bound) := by
  rw [variableDeclaration_eq]
  refine .expect hs (by decide) fun h₁ => .skip h₁ (by decide) (fun h₂ => ?_) ?_
  · exact .bind (.map (stays_assignment bound h₂)) fun _ _ h₃ => .expectEnd h₃ rfl
  · exact .bind (.pure h₁) fun _ _ h₂ => .expectEnd h₂ rfl

theorem stays_parameters (n count : Nat) (hs : s.InChunk) :
    Stays w Reading.InChunk s (parameters n count) := by
  induction n generalizing s count with
  | zero =>
    exact .bind (.limit hs _ _) fun _ _ h₁ => .expect h₁ (by decide) fun h₂ => .pure h₂
  | succ n ih =>
    refine .bind (.limit hs _ _) fun _ _ h₁ => .expect h₁ (by decide) fun h₂ => ?_
    refine .skip h₂ (by decide) (fun h₃ => ?_) (.pure h₂)
    exact .bind (ih (count + 1) h₃) fun _ _ h₄ => .pure h₄

theorem stays_parameterList (bound : Nat) (hs : s.InChunk) :
    Stays w Reading.InChunk s (parameterList bound) :=
  .peek hs (.ite (fun _ => .pure hs) fun _ => stays_parameters bound 0 hs)

/-- No function body starts in a chunk. -/
theorem stays_functionDeclaration (bound : Nat) (declaration : Parser (Option Stmt))
    (hs : s.InChunk) : Stays w Reading.Past s (functionDeclaration bound declaration) := by
  unfold functionDeclaration
  refine .expect hs (by decide) fun h₁ => .expect h₁ (by decide) fun h₂ => ?_
  refine .bind (stays_parameterList bound h₂) fun _ _ h₃ => .expect h₃ (by decide) fun h₄ => ?_
  exact .expectOr h₄ fun hk => absurd hk (h₄.ahead_ne (by decide) (by decide))

theorem stays_print (bound : Nat) (keyword : Token) (hs : s.InChunk) :
    Stays w Reading.Past s (print bound keyword) :=
  .bind (stays_assignment bound hs) fun _ _ h₁ => .expectEnd h₁ rfl

theorem stays_checkReturn (keyword : Token) (hs : s.InChunk) :
    Stays w Reading.InChunk s (checkReturn keyword) := by
  have h : Stays w Reading.InChunk s
      (if s.depth = 0 then report keyword .topLevelReturn else pure ()) :=
    .ite (fun _ => .report hs _ _) fun _ => .pure hs
  exact h

theorem stays_ret (bound : Nat) (keyword : Token) (hs : s.InChunk) :
    Stays w Reading.Past s (ret bound keyword) := by
  rw [ret_eq]
  refine .bind (stays_checkReturn keyword hs) fun _ s₁ h₁ => .peek h₁ ?_
  exact .bind (stays_optional bound h₁) fun _ _ h₂ => .expectEnd h₂ rfl

section Parts

variable {statement : Parser Stmt}
  (hst : ∀ s : Reading, s.InChunk → Stays w Reading.Past s statement)
include hst

theorem stays_branch (bound : Nat) (hs : s.InChunk) :
    Stays w Reading.Past s (branch bound statement) := by
  rw [branch_eq]
  refine .expect hs (by decide) fun h₁ => .bind (stays_assignment bound h₁) fun c s₂ h₂ => ?_
  refine .expect h₂ (by decide) fun h₃ => .bind (hst _ h₃) fun whenTrue s₄ h₄ => ?_
  exact .skipElse h₄ (.pure h₄)

theorem stays_whileLoop (bound : Nat) (hs : s.InChunk) :
    Stays w Reading.Past s (whileLoop bound statement) := by
  refine .expect hs (by decide) fun h₁ => .bind (stays_assignment bound h₁) fun c s₂ h₂ => ?_
  exact .expect h₂ (by decide) fun h₃ => .bind (hst _ h₃) fun _ _ h₄ => .pure h₄

theorem stays_statementOf (bound : Nat) (declaration : Parser (Option Stmt)) (hs : s.InChunk) :
    Stays w Reading.Past s (statementOf bound statement declaration) := by
  unfold statementOf
  refine .peek hs ?_
  split
  · next hk => exact .take hs (by rw [hk]; decide) fun h₁ => stays_branch hst bound h₁
  · next hk => exact .take hs (by rw [hk]; decide) fun h₁ => stays_print bound _ h₁
  · next hk => exact .take hs (by rw [hk]; decide) fun h₁ => stays_ret bound _ h₁
  · next hk => exact absurd hk (hs.ahead_ne (by decide) (by decide))
  · next hk => exact .take hs (by rw [hk]; decide) fun h₁ => stays_whileLoop hst bound h₁
  · next hk => exact absurd hk (hs.ahead_ne (by decide) (by decide))
  · exact stays_expressionStatement bound hs

theorem stays_declarationOf (bound : Nat) (declaration : Parser (Option Stmt)) (hs : s.InChunk) :
    Stays w Reading.Past s (declarationOf bound statement declaration) := by
  unfold declarationOf
  refine .peek hs ?_
  split
  · next hk => exact .take hs (by rw [hk]; decide) fun h₁ => stays_variableDeclaration bound h₁
  · next hk =>
    exact .take hs (by rw [hk]; decide) fun h₁ => stays_functionDeclaration bound declaration h₁
  · exact stays_statementOf hst bound declaration hs

end Parts

theorem stays_statement (n : Nat) (hs : s.InChunk) : Stays w Reading.Past s (statement n) := by
  induction n generalizing s with
  | zero => exact .missingExpression hs
  | succ n ih => exact stays_statementOf (fun _ => ih) (n + 1) (declaration n) hs

/-! ## Recovery -/

theorem resume_of_semicolon {t : Token} (ht : t.kind = .semicolon) (ts : List Token) :
    resume t ts = ts := by
  cases ts with
  | nil => rfl
  | cons u us => rw [resume, if_pos (by simp [ht])]

/-- Recovery in a chunk stops at a place in it, or behind it. -/
theorem resume_append {previous : Token} (hprevious : previous.kind ≠ .semicolon)
    {ts : List Token} (h : Chunk ts) (us : List Token) :
    resume previous (ts ++ us) = resume previous ts ++ us ∧
      (Chunk (resume previous ts) ∨ resume previous ts = []) := by
  induction ts generalizing previous with
  | nil =>
    obtain ⟨t, ts, hnil⟩ := h.exists_cons
    exact nomatch hnil
  | cons t ts ih =>
    rw [List.cons_append, resume, resume]
    split
    · exact ⟨rfl, .inl h⟩
    rcases chunk_cons h with ⟨ht, rfl⟩ | ⟨ht, hts⟩
    · rw [List.nil_append, resume_of_semicolon ht, resume_of_semicolon ht]
      exact ⟨rfl, .inr rfl⟩
    · exact ih (fun hsemi => ht (hsemi ▸ by decide)) hts

theorem dropToBoundary_append {ts : List Token} (h : Chunk ts) (us : List Token) :
    dropToBoundary (ts ++ us) = dropToBoundary ts ++ us ∧
      (Chunk (dropToBoundary ts) ∨ dropToBoundary ts = []) := by
  obtain ⟨t, ts, rfl⟩ := h.exists_cons
  rcases chunk_cons h with ⟨ht, rfl⟩ | ⟨ht, hts⟩
  · rw [List.cons_append, dropToBoundary, dropToBoundary, List.nil_append,
      resume_of_semicolon ht, resume_of_semicolon ht]
    exact ⟨rfl, .inr rfl⟩
  · exact resume_append (fun hsemi => ht (hsemi ▸ by decide)) hts us

theorem recovering_of_some {p : Parser Stmt} {first : Stmt} {s' : Reading}
    (h : recovering p s = .ok (some first) s') : p s = .ok first s' := by
  unfold recovering at h
  cases hp : p s with
  | ok a s' =>
    rw [hp] at h
    cases h
    rfl
  | error e s' =>
    rw [hp] at h
    cases h

/-- A declaration that is given up leaves the rest of the chunk or nothing of it. -/
theorem stays_recovering {p : Parser Stmt} (hp : Stays w Reading.Past s p) :
    Stays w (fun s => s.InChunk ∨ s.Past) s (recovering p) := by
  unfold Stays recovering at *
  generalize p s = x at hp ⊢
  generalize p (s.within w) = y at hp ⊢
  cases hp with
  | ok h => exact .ok (.inr h)
  | @error e s' hs' =>
    obtain ⟨hdrop, hrest⟩ := dropToBoundary_append hs'.rest w.behind
    let left := (s'.record e).after (dropToBoundary s'.rest)
    have hleft : left.InChunk ∨ left.Past := hrest.imp (⟨hs'.stop, ·⟩) (⟨hs'.stop, ·⟩)
    have hwithin : ((s'.within w).record e).after (dropToBoundary (s'.rest ++ w.behind)) =
        left.within w := by
      rw [hdrop, s'.record_within]
      rfl
    have hends : Ends w (fun s => s.InChunk ∨ s.Past) (.ok (none : Option Stmt) left)
        (.ok none (left.within w)) := .ok hleft
    rwa [← hwithin] at hends

theorem stays_declaration (n : Nat) (hs : s.InChunk) :
    Stays w (fun s => s.InChunk ∨ s.Past) s (declaration n) := by
  cases n with
  | zero => exact stays_recovering (.missingExpression hs)
  | succ n =>
    exact stays_recovering
      (stays_declarationOf (fun _ => stays_statement n) (n + 1) (declaration n) hs)

/-- A declaration that is not given up ends with the chunk. -/
theorem past_of_some {n : Nat} (hs : s.InChunk) {first : Stmt} {s' : Reading}
    (h : declaration n s = .ok (some first) s') : s'.Past := by
  cases n with
  | zero => exact nomatch recovering_of_some h
  | succ n =>
    have hstays := stays_declarationOf (w := .nothing hs.stop) (fun _ => stays_statement n) (n + 1)
      (declaration n) hs
    unfold Stays at hstays
    rw [recovering_of_some h] at hstays
    generalize declarationOf (n + 1) (statement n) (declaration n) _ = y at hstays
    cases hstays with
    | ok hpast => exact hpast

end Parser

/-! ## Programs of chunks -/

namespace Grammar

/-- The state behind a chunk within surroundings, with the faults of the chunk recorded. -/
def Surroundings.beyond (w : Surroundings) (depth : Nat) (errors : List ParseError) : Reading :=
  ⟨w.behind, w.stop, depth, w.before ++ errors⟩

/-- Within surroundings a chunk is read as it is by itself, and then what stands behind it. -/
theorem remainder_within (w : Surroundings) {s : Reading} (hs : s.InChunk) :
    let beyond := remainder (w.beyond s.depth (remainder s).errors)
    remainder (s.within w) = ⟨(remainder s).statements ++ beyond.statements, beyond.errors⟩ := by
  induction hn : s.rest.length using Nat.strongRecOn generalizing s with
  | ind n ih =>
    have hne : s.rest ≠ [] := by
      obtain ⟨t, ts, hr⟩ := hs.rest.exists_cons
      rw [hr]
      exact List.cons_ne_nil t ts
    have hne' : (s.within w).rest ≠ [] := List.append_ne_nil_of_left_ne_nil hne w.behind
    have hbound : s.rest.length ≤ (s.within w).rest.length := by
      show _ ≤ (s.rest ++ w.behind).length
      rw [List.length_append]
      exact Nat.le_add_right _ _
    have hstays := Parser.stays_declaration (w := w) (s.within w).rest.length hs
    obtain ⟨first?, s', hfirst⟩ := Parser.declaration_returns (s.within w).rest.length s
    have hdepth := ((Parser.sound_declaration _ s hs.stop).later hfirst).depth
    have hshorter := Parser.takes_declaration _ hs.stop hne _ _ hfirst
    have hown := remainder_step hs.ended hne hbound hfirst
    unfold Parser.Stays at hstays
    rw [hfirst] at hstays
    generalize hwithin : Parser.declaration (s.within w).rest.length (s.within w) = y at hstays
    cases hstays with
    | ok hplace =>
      rw [remainder_step hs.ended_within hne' (Nat.le_refl _) hwithin, hown, ← hdepth]
      rcases hplace with hin | hpast
      · rw [ih _ (hn ▸ hshorter) hin rfl]
        simp only [List.append_assoc]
      · rw [remainder_of_nil hpast.rest, List.append_nil]
        have hbeyond : s'.within w = w.beyond s'.depth s'.errors := by
          unfold Reading.within
          rw [hpast.rest]
          rfl
        rw [hbeyond]

theorem kind_ne_of_chunks {chunks : List (List Token × Token)}
    (h : ∀ c ∈ chunks, Chunk c.1 ∧ c.2.kind = .eof) {k : Kind} (hk : k ∈ unchunked)
    (hsemi : k ≠ .semicolon) : ∀ t ∈ (chunks.map Prod.fst).flatten, t.kind ≠ k := by
  intro t ht
  obtain ⟨ts, hts, ht⟩ := List.mem_flatten.mp ht
  obtain ⟨c, hc, rfl⟩ := List.mem_map.mp hts
  exact (h c hc).1.kind_ne hk hsemi t ht

theorem remainder_chunks {chunks : List (List Token × Token)}
    (h : ∀ c ∈ chunks, Chunk c.1 ∧ c.2.kind = .eof) {stop : Token} (hstop : stop.kind = .eof)
    (before : List ParseError) :
    remainder ⟨(chunks.map Prod.fst).flatten, stop, 0, before⟩ =
      ⟨(chunks.map fun c => parse (c.1 ++ [c.2])).flatMap Parse.statements,
        before ++ (chunks.map fun c => parse (c.1 ++ [c.2])).flatMap Parse.errors⟩ := by
  induction chunks generalizing before with
  | nil => rw [remainder_of_nil rfl]; simp
  | cons c chunks ih =>
    obtain ⟨hc, hchunks⟩ := List.forall_mem_cons.mp h
    have helse : ((chunks.map Prod.fst).flatten.headD stop).kind ≠ .kwElse := by
      cases hflat : (chunks.map Prod.fst).flatten with
      | nil => rw [List.headD_nil, hstop]; decide
      | cons t ts =>
        exact kind_ne_of_chunks hchunks (by decide) (by decide) t (hflat ▸ List.mem_cons_self)
    let w : Surroundings :=
      ⟨before, (chunks.map Prod.fst).flatten, stop, hstop,
        kind_ne_of_chunks hchunks (by decide) (by decide), helse⟩
    have hown : remainder ⟨c.1, c.2, 0, []⟩ = parse (c.1 ++ [c.2]) := by
      rw [parse_eq_remainder, start_ended (hc.1.kind_ne (by decide) (by decide)) hc.2]
    have hwithin := remainder_within w (s := ⟨c.1, c.2, 0, []⟩) ⟨hc.2, hc.1⟩
    rw [hown, Surroundings.beyond, ih hchunks] at hwithin
    rw [List.map_cons, List.flatten_cons, List.map_cons, List.flatMap_cons, List.flatMap_cons,
      ← List.append_assoc]
    rw [Reading.within, List.append_nil] at hwithin
    exact hwithin

/-- A chunk without faults is one statement, because the first one takes all of it. -/
theorem Chunk.single {ts : List Token} (h : Chunk ts) {e : Token} (he : e.kind = .eof)
    {ss : List Stmt} (hss : Derives nearestIf ts ss) : ∃ s, ss = [s] := by
  cases hss with
  | nil =>
    obtain ⟨t, us, hnil⟩ := h.exists_cons
    exact nomatch hnil
  | @cons _ us vs s ss hfirst hothers =>
    have helse : ((Reading.mk (us ++ vs) e 0 []).after vs).ahead.kind ≠ .kwElse := by
      cases vs with
      | nil => exact fun hk => nomatch he.symm.trans hk
      | cons t vs =>
        exact h.kind_ne (by decide) (by decide) t (List.mem_append_right us List.mem_cons_self)
    have hrun := Parser.complete_declaration _ hfirst rfl (Nat.le_refl _) nofun helse
    have hnil : vs = [] := (Parser.past_of_some ⟨he, h⟩ hrun).rest
    cases hothers with
    | nil => exact ⟨s, rfl⟩
    | @cons _ ws xs _ _ hsecond _ =>
      have hws : ws ≠ [] := List.ne_nil_of_length_pos hsecond.starts.length_pos
      exact absurd (List.append_eq_nil_iff.mp hnil).1 hws

theorem length_flatMap_of_le_one {α β : Type} {f : α → List β} :
    ∀ {xs : List α}, (∀ x ∈ xs, (f x).length ≤ 1) →
      (xs.flatMap f).length = xs.countP fun x => f x ≠ []
  | [], _ => rfl
  | x :: xs, h => by
    obtain ⟨hx, hxs⟩ := List.forall_mem_cons.mp h
    rw [List.flatMap_cons, List.length_append, length_flatMap_of_le_one hxs, List.countP_cons,
      Nat.add_comm]
    congr 1
    have hone : (f x).length = if f x ≠ [] then 1 else 0 := by
      split
      · next hne => exact Nat.le_antisymm hx (List.length_pos_iff.mpr hne)
      · next hnil => rw [Decidable.not_not.mp hnil, List.length_nil]
    simpa using hone

end Grammar

/-- Chunks are read as they are by themselves, each with its own statements and faults.  So if no
chunk has two faults, there are as many faults as there are chunks with one, and the statement of a
chunk without faults stays. -/
theorem chunks_read_apart {chunks : List (List Token × Token)}
    (h : ∀ c ∈ chunks, Chunk c.1 ∧ c.2.kind = .eof) {e : Token} (he : e.kind = .eof) :
    let apart := chunks.map fun c => parse (c.1 ++ [c.2])
    let whole := parse ((chunks.map Prod.fst).flatten ++ [e])
    whole = ⟨apart.flatMap Parse.statements, apart.flatMap Parse.errors⟩ ∧
    ((∀ p ∈ apart, p.errors.length ≤ 1) →
      whole.errors.length = apart.countP fun p => p.errors ≠ []) ∧
    ∀ p ∈ apart, p.errors = [] → ∃ s, p.statements = [s] ∧ s ∈ whole.statements := by
  intro apart whole
  have hwhole : whole = ⟨apart.flatMap Parse.statements, apart.flatMap Parse.errors⟩ := by
    have hall := remainder_chunks h he []
    rwa [← start_ended (kind_ne_of_chunks h (by decide) (by decide)) he,
      ← parse_eq_remainder] at hall
  refine ⟨hwhole, fun hone => ?_, fun p hp hclean => ?_⟩
  · rw [hwhole]
    exact length_flatMap_of_le_one hone
  · obtain ⟨c, hc, rfl⟩ := List.mem_map.mp hp
    obtain ⟨hchunk, hend⟩ := h c hc
    have hderives := nearest_of_parse hclean
    rw [body_eq (hchunk.kind_ne (by decide) (by decide)) hend] at hderives
    obtain ⟨s, hs⟩ := hchunk.single hend hderives
    refine ⟨s, hs, ?_⟩
    rw [hwhole]
    exact List.mem_flatMap.mpr ⟨_, hp, hs ▸ List.mem_singleton_self s⟩

/-- Recovery in the first chunk stops at its keyword, and behind the chunk a second time. -/
theorem chunks_read_apart_keyword :
    let name : Token := ⟨.bare .identifier, "x", 2, 1⟩
    let semicolon : Token := ⟨.bare .semicolon, ";", 2, 2⟩
    let keyword : Token := ⟨.bare .kwPrint, "print", 1, 3⟩
    let stray : Token := ⟨.bare .rightParen, ")", 1, 1⟩
    let stop : Token := ⟨.bare .eof, "", 3, 1⟩
    let bad := [stray, keyword, stray, semicolon]
    let good := [name, semicolon]
    (∀ c ∈ [(bad, stop), (good, stop), (bad, stop)], Chunk c.1 ∧ c.2.kind = .eof) ∧
      stop.kind = .eof ∧
      parse (bad ++ [stop]) = ⟨[], [⟨stray, .missingExpression⟩, ⟨stray, .missingExpression⟩]⟩ ∧
      parse (bad ++ good ++ bad ++ [stop]) = ⟨[.expression (.variable name)],
        List.replicate 4 ⟨stray, .missingExpression⟩⟩ := by
  intro name semicolon keyword stray stop bad good
  have hbad : Chunk bad := by
    refine ⟨[stray, keyword, stray], semicolon, rfl, ?_, rfl⟩
    simp only [List.forall_mem_cons]
    decide
  have hgood : Chunk good := by
    refine ⟨[name], semicolon, rfl, ?_, rfl⟩
    simp only [List.forall_mem_cons]
    decide
  have hchunks : ∀ c ∈ [(bad, stop), (good, stop), (bad, stop)], Chunk c.1 ∧ c.2.kind = .eof := by
    simp only [List.forall_mem_cons]
    exact ⟨⟨hbad, rfl⟩, ⟨hgood, rfl⟩, ⟨hbad, rfl⟩, nofun⟩
  exact ⟨hchunks, rfl, rfl, (chunks_read_apart hchunks (e := stop) rfl).1⟩

end Lox
