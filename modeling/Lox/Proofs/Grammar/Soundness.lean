import Lox.Proofs.Grammar.Reading

/-!
Nothing outside the grammar is read without a fault.

Each parser takes a phrase of its own relation or records why there is none.  The bounds on
recursion play no part in this: a parser that is cut short has taken a shorter phrase.
-/

namespace Lox
namespace Parser

open Grammar

variable {s : Reading}

/-! ## Expressions -/

section Expressions

variable {expression : Parser Expr}
  (he : ∀ s : Reading, s.stop.kind = .eof → Reads s expression Assignment)
include he

theorem reads_arguments (n count : Nat) (hs : s.stop.kind = .eof) :
    Reads s (arguments expression n count) fun ts es =>
      ArgumentSequence ts es ∧ count + es.length ≤ maxEntries := by
  induction n generalizing s count with
  | zero =>
    unfold arguments
    refine .bind (.limit count .tooManyArguments) fun _ s₁ h₁ => ?_
    refine .bind (he s₁ (h₁.eof hs)) fun e s₂ h₂ => .pure ?_
    rintro ts hts us ⟨rfl, hc⟩
    rw [List.nil_append, List.append_nil]
    exact ⟨.one hts, hc⟩
  | succ n ih =>
    rw [arguments_succ]
    refine .bind (.limit count .tooManyArguments) fun _ s₁ h₁ => ?_
    have hs₁ := h₁.eof hs
    refine .bind (he s₁ hs₁) fun e s₂ h₂ => ?_
    have hs₂ := h₂.eof hs₁
    refine .skip hs₂ (by decide) (fun hk => ?_) fun _ => ?_
    · rw [if_pos rfl]
      refine .bind (ih (count + 1) (s₂.later_next.eof hs₂)) fun es s₃ h₃ => .pure ?_
      rintro us ⟨hus, hlen⟩ ts hts vs ⟨rfl, hc⟩
      rw [List.nil_append, List.append_nil]
      exact ⟨.cons hts hk hus, by rw [List.length_cons]; omega⟩
    · rw [if_neg Bool.false_ne_true]
      refine .pure ?_
      rintro ts hts us ⟨rfl, hc⟩
      rw [List.nil_append, List.append_nil]
      exact ⟨.one hts, hc⟩

theorem reads_argumentList (bound : Nat) (hs : s.stop.kind = .eof) :
    Reads s (argumentList bound expression) Arguments := by
  unfold argumentList
  refine .peek (.ite (fun _ => .pure .empty) fun _ => ?_)
  refine (reads_arguments he bound 0 hs).mono ?_
  rintro ts es ⟨hts, hlen⟩
  exact .some hts (by omega)

theorem reads_primary (hs : s.stop.kind = .eof) : Reads s (primary expression) Primary := by
  unfold primary
  refine .peek ?_
  split
  · next v hv =>
    have hk : s.ahead.kind ≠ .eof := ne_of_mem_of_not_mem (kind_of_literal hv) (by decide)
    exact .take hs hk (.pure (.literal hv))
  · split
    · next hk => exact .take hs (by rw [hk]; decide) (.pure (.variable hk))
    · next hk =>
      refine .take hs (by rw [hk]; decide) ?_
      have hs₁ := s.later_next.eof hs
      refine .bind (he s.next hs₁) fun e s₂ h₂ => ?_
      refine .expect (h₂.eof hs₁) fun hr => .pure fun ts hts => ?_
      exact .grouping hk hts hr
    · exact .missingExpression

theorem reads_calls (bound n : Nat) (callee : Expr) (hs : s.stop.kind = .eof) :
    Reads s (calls bound expression n callee) fun us e =>
      ∀ ts, Call ts callee → Call (ts ++ us) e := by
  induction n generalizing s callee with
  | zero =>
    unfold calls
    exact .pure fun ts hts => by rwa [List.append_nil]
  | succ n ih =>
    rw [calls_succ]
    refine .skip hs (by decide) (fun hl => ?_) fun _ => ?_
    · rw [if_pos rfl]
      have hs₁ := s.later_next.eof hs
      refine .bind (reads_argumentList he bound hs₁) fun es s₂ h₂ => ?_
      have hs₂ := h₂.eof hs₁
      refine .expect hs₂ fun hr => ?_
      refine (ih (.call callee s₂.ahead es) (s₂.later_next.eof hs₂)).mono ?_
      intro vs e hvs us hus ts hts
      have h := hvs _ (.call hts hl hus hr)
      simpa only [List.append_assoc, List.cons_append, List.nil_append] using h
    · rw [if_neg Bool.false_ne_true]
      exact .pure fun ts hts => by rwa [List.append_nil]

theorem reads_unary (bound n : Nat) (hs : s.stop.kind = .eof) :
    Reads s (unary bound expression n) Unary := by
  induction n generalizing s with
  | zero =>
    unfold unary
    exact .missingExpression
  | succ n ih =>
    rw [unary_succ]
    refine .peek (.ite (fun hk => ?_) fun _ => ?_)
    · refine .take hs (by rcases hk with hk | hk <;> rw [hk] <;> decide) ?_
      refine .bind (ih (s.later_next.eof hs)) fun e s₂ h₂ => .pure fun ts hts => ?_
      rw [List.append_nil]
      exact .operator hk hts
    · refine .bind (reads_primary he hs) fun callee s₁ h₁ => ?_
      refine (reads_calls he bound bound callee (h₁.eof hs)).mono ?_
      exact fun us e hus ts hts => .call (hus ts (.primary hts))

end Expressions

theorem ne_eof_of_mem_operators {level : Level} {k : Kind} (h : k ∈ level.operators) :
    k ≠ .eof := by
  rintro rfl
  cases level <;> exact absurd h (by decide)

theorem reads_operations {level : Level} {levels : List Level} {operand : Parser Expr}
    (ho : ∀ s : Reading, s.stop.kind = .eof → Reads s operand (Operators levels))
    (n : Nat) (left : Expr) (hs : s.stop.kind = .eof) :
    Reads s (operations level operand n left) fun us e =>
      ∀ ts, Operators (level :: levels) ts left → Operators (level :: levels) (ts ++ us) e := by
  induction n generalizing s left with
  | zero =>
    unfold operations
    exact .pure fun ts hts => by rwa [List.append_nil]
  | succ n ih =>
    rw [operations_succ]
    refine .peek (.ite (fun hk => ?_) fun _ => .pure fun ts hts => by rwa [List.append_nil])
    have hmem : s.ahead.kind ∈ level.operators := List.contains_iff_mem.1 hk
    refine .take hs (ne_eof_of_mem_operators hmem) ?_
    have hs₁ := s.later_next.eof hs
    refine .bind (ho s.next hs₁) fun right s₂ h₂ => ?_
    refine (ih (level.combine left s.ahead right) (h₂.eof hs₁)).mono ?_
    intro vs e hvs us hus ts hts
    have h := hvs _ (.operation hts hmem hus)
    rwa [List.append_assoc] at h

theorem reads_operators (bound : Nat) {operand : Parser Expr}
    (ho : ∀ s : Reading, s.stop.kind = .eof → Reads s operand Unary) (levels : List Level)
    (hs : s.stop.kind = .eof) : Reads s (operators bound operand levels) (Operators levels) := by
  induction levels generalizing s with
  | nil =>
    unfold operators
    exact (ho s hs).mono fun _ _ => .operand
  | cons level levels ih =>
    unfold operators
    refine .bind (ih hs) fun left s₁ h₁ => ?_
    refine (reads_operations (fun _ => ih) bound left (h₁.eof hs)).mono ?_
    exact fun us e hus ts hts => hus ts (.tighter hts)

theorem reads_assignment (n : Nat) (hs : s.stop.kind = .eof) :
    Reads s (assignment n) Assignment := by
  induction n generalizing s with
  | zero =>
    unfold assignment
    exact .missingExpression
  | succ n ih =>
    unfold assignment
    have hu : ∀ s : Reading, s.stop.kind = .eof →
        Reads s (unary (n + 1) (assignment n) (n + 1)) Unary :=
      fun s hs => reads_unary (fun s hs => ih hs) (n + 1) (n + 1) hs
    refine .bind (reads_operators (n + 1) hu Level.all hs) fun target s₁ h₁ => ?_
    have hs₁ := h₁.eof hs
    refine .peek (.ite (fun hk => ?_) fun _ => .pure fun ts hts => ?_)
    · refine .take hs₁ (by rw [hk]; decide) ?_
      refine .bind (ih (s₁.later_next.eof hs₁)) fun value s₂ h₂ => ?_
      split
      · next x =>
        refine .pure fun us hus ts hts => ?_
        obtain ⟨rfl, hx⟩ := Grammar.Operators.variable_inv hts
        exact .assign hx hk (by rwa [List.append_nil])
      · exact .bind (.report (D := fun _ _ => False) _ _) fun _ _ _ => .pure fun _ h => h.elim
    · rw [List.append_nil]
      exact .operators hts

/-! ## Parts of statements -/

theorem reads_optional {c : Prop} [Decidable c] (bound : Nat) (hs : s.stop.kind = .eof) :
    Reads s (if c then pure none else some <$> assignment bound) Grammar.Optional :=
  .ite (fun _ => .pure .none) fun _ => .map ((reads_assignment bound hs).mono fun _ _ => .some)

theorem reads_condition {c : Prop} [Decidable c] (bound : Nat) (hs : s.stop.kind = .eof) :
    Reads s (if c then pure (.literal (.bool true)) else assignment bound) fun ts e =>
      ∃ o, e = Option.getD o (.literal (.bool true)) ∧ Grammar.Optional ts o :=
  .ite (fun _ => .pure ⟨none, rfl, .none⟩) fun _ =>
    (reads_assignment bound hs).mono fun _ e h => ⟨some e, rfl, .some h⟩

theorem reads_expressionStatement (bound : Nat) (hs : s.stop.kind = .eof) :
    Reads s (expressionStatement bound) ExpressionStatement := by
  unfold expressionStatement
  refine .bind (reads_assignment bound hs) fun e s₁ h₁ => ?_
  exact .expect (h₁.eof hs) fun hk => .pure fun ts hts => .mk hts hk

theorem reads_variableDeclaration (bound : Nat) {keyword : Token} (hk : keyword.kind = .kwVar)
    (hs : s.stop.kind = .eof) :
    Reads s (variableDeclaration bound) fun ts => VariableDeclaration (keyword :: ts) := by
  rw [variableDeclaration_eq]
  refine .expect hs fun hx => ?_
  have hs₁ := s.later_next.eof hs
  refine .skip hs₁ (by decide) (fun he => ?_) fun _ => ?_
  · have hs₂ := s.next.later_next.eof hs₁
    rw [if_pos rfl]
    refine .bind (.map (E := fun ts i => ∃ e, i = some e ∧ Assignment ts e)
      ((reads_assignment bound hs₂).mono fun ts e hts => ⟨e, rfl, hts⟩)) fun i s₃ h₃ => ?_
    refine .expect (h₃.eof hs₂) fun hsemi => .pure ?_
    rintro ts ⟨e, rfl, hts⟩
    exact .initialized hk hx he hts hsemi
  · rw [if_neg Bool.false_ne_true]
    exact .expect hs₁ fun hsemi => .pure (.bare hk hx hsemi)

theorem reads_parameters (n count : Nat) (hs : s.stop.kind = .eof) :
    Reads s (parameters n count) fun ts xs =>
      ParameterSequence ts xs ∧ count + xs.length ≤ maxEntries := by
  induction n generalizing s count with
  | zero =>
    unfold parameters
    refine .bind (.limit count .tooManyParameters) fun _ s₁ h₁ => ?_
    refine .expect (h₁.eof hs) fun hx => .pure ?_
    rintro ts ⟨rfl, hc⟩
    exact ⟨.one hx, hc⟩
  | succ n ih =>
    unfold parameters
    refine .bind (.limit count .tooManyParameters) fun _ s₁ h₁ => ?_
    have hs₁ := h₁.eof hs
    refine .expect hs₁ fun hx => ?_
    have hs₂ := s₁.later_next.eof hs₁
    refine .skip hs₂ (by decide) (fun hk => ?_) fun _ => ?_
    · rw [if_pos rfl]
      refine .bind (ih (count + 1) (s₁.next.later_next.eof hs₂)) fun xs s₃ h₃ => .pure ?_
      rintro us ⟨hus, hlen⟩ ts ⟨rfl, hc⟩
      rw [List.append_nil]
      exact ⟨.cons hx hk hus, by rw [List.length_cons]; omega⟩
    · rw [if_neg Bool.false_ne_true]
      refine .pure ?_
      rintro ts ⟨rfl, hc⟩
      exact ⟨.one hx, hc⟩

theorem reads_parameterList (bound : Nat) (hs : s.stop.kind = .eof) :
    Reads s (parameterList bound) Parameters := by
  unfold parameterList
  refine .peek (.ite (fun _ => .pure .empty) fun _ => ?_)
  refine (reads_parameters bound 0 hs).mono ?_
  rintro ts xs ⟨hts, hlen⟩
  exact .some hts (by omega)

theorem reads_initializer (bound : Nat) (hs : s.stop.kind = .eof) :
    Reads s (initializer bound) Initializer := by
  unfold initializer
  refine .peek ?_
  split
  · next hk => exact .take hs (by rw [hk]; decide) (.pure (.none hk))
  · next hk =>
    refine .take hs (by rw [hk]; decide) (.map ?_)
    exact (reads_variableDeclaration bound hk (s.later_next.eof hs)).mono fun _ _ => .variable
  · exact .map ((reads_expressionStatement bound hs).mono fun _ _ => .expression)

/-! ## Statements -/

/-- The tokens behind a fault are some of those that were left. -/
theorem resume_suffix (previous : Token) (ts : List Token) : resume previous ts <:+ ts := by
  induction ts generalizing previous with
  | nil => exact List.suffix_refl _
  | cons t ts ih =>
    unfold resume
    split
    · exact List.suffix_refl _
    · exact (ih t).trans (List.suffix_cons t ts)

theorem dropToBoundary_suffix (ts : List Token) : dropToBoundary ts <:+ ts := by
  cases ts with
  | nil => exact List.suffix_refl _
  | cons t ts => exact (resume_suffix t ts).trans (List.suffix_cons t ts)

theorem reads_recovering {p : Parser Stmt} {D : List Token → Stmt → Prop} (h : Reads s p D) :
    Reads s (recovering p) fun ts o => ∃ a, o = some a ∧ D ts a := by
  unfold Reads at h ⊢
  unfold recovering
  cases hp : p s with
  | ok a s' =>
    rw [hp] at h
    refine ⟨h.1, fun he => ?_⟩
    obtain ⟨ts, hts, hD⟩ := h.2 he
    exact ⟨ts, hts, a, rfl, hD⟩
  | error e s' =>
    rw [hp] at h
    have hrec := h.trans (s'.later_record e)
    refine ⟨⟨(dropToBoundary_suffix _).trans hrec.rest, hrec.stop, hrec.depth, hrec.errors⟩, ?_⟩
    -- A fault was recorded, so nothing has to be shown of the tokens.
    intro he
    have hlen := congrArg List.length he
    have := h.errors.length_le
    simp only [Reading.record, List.length_append, List.length_singleton] at hlen
    omega

theorem reads_insideFunction {α : Type} {p : Parser α} {D : List Token → α → Prop}
    (h : Reads { s with depth := s.depth + 1 } p D) : Reads s (insideFunction p) D := by
  unfold Reads at h ⊢
  unfold insideFunction
  cases hp : p { s with depth := s.depth + 1 } with
  | ok a s' =>
    rw [hp] at h
    exact ⟨⟨h.1.rest, h.1.stop, rfl, h.1.errors⟩, h.2⟩
  | error e s' =>
    rw [hp] at h
    exact ⟨h.rest, h.stop, rfl, h.errors⟩

/-- What is asked of the parser for statements. -/
def SoundStatement (p : Parser Stmt) : Prop :=
  ∀ s : Reading, s.stop.kind = .eof →
    Reads s p fun ts st => ∃ a, Statement anyIf s.inside a ts st

/-- What is asked of the parser for declarations. -/
def SoundDeclaration (p : Parser (Option Stmt)) : Prop :=
  ∀ s : Reading, s.stop.kind = .eof →
    Reads s p fun ts o => ∃ st, o = some st ∧ Grammar.Declaration anyIf s.inside ts st

theorem reads_declarations {ends : Kind → Bool} {declaration : Parser (Option Stmt)}
    (hd : SoundDeclaration declaration) (n : Nat) (hs : s.stop.kind = .eof) :
    Reads s (declarations ends declaration n) (Declarations anyIf s.inside) := by
  induction n generalizing s with
  | zero =>
    unfold declarations
    exact .pure .nil
  | succ n ih =>
    rw [declarations_succ]
    refine .peek (.ite (fun _ => .pure .nil) fun _ => ?_)
    refine .bind (hd s hs) fun first? s₁ h₁ => ?_
    refine .bind (ih (h₁.eof hs)) fun others s₂ h₂ => .pure ?_
    rintro us hus ts ⟨st, rfl, hts⟩
    rw [h₁.inside_eq] at hus
    rw [List.append_nil]
    exact .cons hts hus

theorem reads_block {declaration : Parser (Option Stmt)} (hd : SoundDeclaration declaration)
    (bound : Nat) (hs : s.stop.kind = .eof) :
    Reads s (block bound declaration) fun ts ss => ∃ us right,
      ts = us ++ [right] ∧ right.kind = .rightBrace ∧ Declarations anyIf s.inside us ss := by
  unfold block
  refine .bind (reads_declarations hd bound hs) fun body s₁ h₁ => ?_
  exact .expect (h₁.eof hs) fun hr => .pure fun ts hts => ⟨ts, _, rfl, hr, hts⟩

theorem reads_functionDeclaration {declaration : Parser (Option Stmt)}
    (hd : SoundDeclaration declaration) (bound : Nat) {keyword : Token}
    (hk : keyword.kind = .kwFun) (hs : s.stop.kind = .eof) :
    Reads s (functionDeclaration bound declaration) fun ts =>
      Grammar.Declaration anyIf s.inside (keyword :: ts) := by
  unfold functionDeclaration
  refine .expect hs fun hx => ?_
  have hs₁ := s.later_next.eof hs
  refine .expect hs₁ fun hl => ?_
  have hs₂ := s.next.later_next.eof hs₁
  refine .bind (reads_parameterList bound hs₂) fun xs s₃ h₃ => ?_
  have hs₃ := h₃.eof hs₂
  refine .expect hs₃ fun hr => ?_
  have hs₄ := s₃.later_next.eof hs₃
  refine .expect hs₄ fun hlb => ?_
  have hs₅ := s₃.next.later_next.eof hs₄
  refine .bind (reads_insideFunction (reads_block hd bound hs₅)) fun body s₆ h₆ => .pure ?_
  rintro _ ⟨us, rightBrace, rfl, hrb, hus⟩ ps hps
  have h : Grammar.Declaration anyIf s.inside _ _ := .function hk hx hl hps hr hlb hus hrb
  simpa only [List.append_assoc, List.cons_append, List.append_nil] using h

section Parts

variable {statement : Parser Stmt} (hst : SoundStatement statement) (bound : Nat)
  {keyword : Token}

theorem reads_print (hk : keyword.kind = .kwPrint) (hs : s.stop.kind = .eof) :
    Reads s (print bound keyword) fun ts =>
      Statement anyIf s.inside .closed (keyword :: ts) := by
  unfold print
  refine .bind (reads_assignment bound hs) fun e s₁ h₁ => ?_
  exact .expect (h₁.eof hs) fun hsemi => .pure fun ts hts => .print hk hts hsemi

theorem reads_checkReturn :
    Reads s (checkReturn keyword) fun ts _ => ts = [] ∧ s.inside = true := by
  have h : checkReturn keyword s =
      (if s.depth = 0 then report keyword .topLevelReturn else pure () : Parser Unit) s := rfl
  refine .of_eq h (.ite (fun _ => .report _ _) fun hd => .pure ⟨rfl, ?_⟩)
  simpa [Reading.inside] using hd

theorem reads_ret (hk : keyword.kind = .kwReturn) (hs : s.stop.kind = .eof) :
    Reads s (ret bound keyword) fun ts =>
      Statement anyIf s.inside .closed (keyword :: ts) := by
  rw [ret_eq]
  refine .bind reads_checkReturn fun _ s₁ h₁ => .peek ?_
  have hs₁ := h₁.eof hs
  refine .bind (reads_optional bound hs₁) fun value s₂ h₂ => ?_
  refine .expect (h₂.eof hs₁) fun hsemi => .pure ?_
  rintro ts hts us ⟨rfl, hin⟩
  rw [hin]
  exact .ret hk hts hsemi

include hst

theorem reads_branch (hk : keyword.kind = .kwIf) (hs : s.stop.kind = .eof) :
    Reads s (branch bound statement) fun ts st =>
      ∃ a, Statement anyIf s.inside a (keyword :: ts) st := by
  rw [branch_eq]
  refine .expect hs fun hl => ?_
  have hs₁ := s.later_next.eof hs
  refine .bind (reads_assignment bound hs₁) fun c s₂ h₂ => ?_
  have hs₂ := h₂.eof hs₁
  have hin₂ : s₂.next.inside = s.inside := h₂.inside_eq
  refine .expect hs₂ fun hr => ?_
  have hs₃ := s₂.later_next.eof hs₂
  refine .bind (hst _ hs₃) fun whenTrue s₄ h₄ => ?_
  have hs₄ := h₄.eof hs₃
  have hin₄ : s₄.inside = s.inside := h₄.inside_eq.trans hin₂
  refine .skip hs₄ (by decide) (fun hsep => ?_) fun _ => ?_
  · rw [if_pos rfl]
    have hs₅ := s₄.later_next.eof hs₄
    refine .bind (.map (E := fun ts o => ∃ b st, o = some st ∧ Statement anyIf s₄.inside b ts st)
      ((hst _ hs₅).mono fun ts st ⟨b, hts⟩ => ⟨b, st, rfl, hts⟩)) fun whenFalse s₆ h₆ => .pure ?_
    rintro vs ⟨b, st, rfl, hvs⟩ us ⟨a, hus⟩ ts hts
    rw [hin₂] at hus
    rw [hin₄] at hvs
    have h := Statement.branchElse hk hl hts hr hus trivial hsep hvs
    exact ⟨b, by simpa only [List.append_assoc, List.cons_append, List.append_nil] using h⟩
  · rw [if_neg Bool.false_ne_true]
    refine .bind (.pure (D := fun ts o => ts = [] ∧ o = none) ⟨rfl, rfl⟩) fun _ _ _ => .pure ?_
    rintro vs ⟨rfl, rfl⟩ us ⟨a, hus⟩ ts hts
    rw [hin₂] at hus
    exact ⟨.dangling, by simpa only [List.append_nil] using .branch hk hl hts hr hus⟩

theorem reads_whileLoop (hk : keyword.kind = .kwWhile) (hs : s.stop.kind = .eof) :
    Reads s (whileLoop bound statement) fun ts st =>
      ∃ a, Statement anyIf s.inside a (keyword :: ts) st := by
  unfold whileLoop
  refine .expect hs fun hl => ?_
  have hs₁ := s.later_next.eof hs
  refine .bind (reads_assignment bound hs₁) fun c s₂ h₂ => ?_
  have hs₂ := h₂.eof hs₁
  have hin₂ : s₂.next.inside = s.inside := h₂.inside_eq
  refine .expect hs₂ fun hr => ?_
  refine .bind (hst _ (s₂.later_next.eof hs₂)) fun body s₄ h₄ => .pure ?_
  rintro us ⟨a, hus⟩ ts hts
  rw [hin₂] at hus
  exact ⟨a, by simpa using .loop hk hl hts hr hus⟩

theorem reads_forLoop (hk : keyword.kind = .kwFor) (hs : s.stop.kind = .eof) :
    Reads s (forLoop bound statement) fun ts st =>
      ∃ a, Statement anyIf s.inside a (keyword :: ts) st := by
  rw [forLoop_eq]
  refine .expect hs fun hl => ?_
  have hs₁ := s.later_next.eof hs
  refine .bind (reads_initializer bound hs₁) fun initializer s₂ h₂ => .peek ?_
  have hs₂ := h₂.eof hs₁
  have hin₂ : s₂.inside = s.inside := h₂.inside_eq
  refine .bind (reads_condition bound hs₂) fun condition s₃ h₃ => ?_
  have hs₃ := h₃.eof hs₂
  have hin₃ : s₃.next.inside = s.inside := h₃.inside_eq.trans hin₂
  refine .expect hs₃ fun hsemi => .peek ?_
  have hs₄ := s₃.later_next.eof hs₃
  refine .bind (reads_optional bound hs₄) fun increment s₅ h₅ => ?_
  have hs₅ := h₅.eof hs₄
  have hin₅ : s₅.next.inside = s.inside := h₅.inside_eq.trans hin₃
  refine .expect hs₅ fun hr => ?_
  refine .bind (hst _ (s₅.later_next.eof hs₅)) fun body s₆ h₆ => .pure ?_
  rintro us ⟨a, hus⟩ ns hns cs ⟨c, rfl, hcs⟩ is his
  rw [hin₅] at hus
  have h := Statement.forLoop hk hl his hcs hsemi hns hr hus
  exact ⟨a, by simpa only [List.append_assoc, List.cons_append, List.append_nil] using h⟩

theorem reads_statementOf {declaration : Parser (Option Stmt)}
    (hd : SoundDeclaration declaration) (hs : s.stop.kind = .eof) :
    Reads s (statementOf bound statement declaration) fun ts st =>
      ∃ a, Statement anyIf s.inside a ts st := by
  have hs₁ := s.later_next.eof hs
  unfold statementOf
  refine .peek ?_
  split
  · next hk => exact .take hs (by rw [hk]; decide) (reads_branch hst bound hk hs₁)
  · next hk =>
    refine .take hs (by rw [hk]; decide) ?_
    exact (reads_print bound hk hs₁).mono fun _ _ h => ⟨_, h⟩
  · next hk =>
    refine .take hs (by rw [hk]; decide) ?_
    exact (reads_ret bound hk hs₁).mono fun _ _ h => ⟨_, h⟩
  · next hk =>
    refine .take hs (by rw [hk]; decide) ?_
    refine .bind (reads_block hd bound hs₁) fun body s₂ h₂ => .pure ?_
    rintro _ ⟨us, right, rfl, hr, hus⟩
    rw [List.append_nil]
    exact ⟨_, .block hk hus hr⟩
  · next hk => exact .take hs (by rw [hk]; decide) (reads_whileLoop hst bound hk hs₁)
  · next hk => exact .take hs (by rw [hk]; decide) (reads_forLoop hst bound hk hs₁)
  · exact (reads_expressionStatement bound hs).mono fun _ _ h => ⟨_, .expression h⟩

theorem reads_declarationOf {declaration : Parser (Option Stmt)}
    (hd : SoundDeclaration declaration) (hs : s.stop.kind = .eof) :
    Reads s (declarationOf bound statement declaration)
      (Grammar.Declaration anyIf s.inside) := by
  have hs₁ := s.later_next.eof hs
  unfold declarationOf
  refine .peek ?_
  split
  · next hk =>
    refine .take hs (by rw [hk]; decide) ?_
    exact (reads_variableDeclaration bound hk hs₁).mono fun _ _ => .variable
  · next hk =>
    exact .take hs (by rw [hk]; decide) (reads_functionDeclaration hd bound hk hs₁)
  · exact (reads_statementOf hst bound hd hs).mono fun _ _ h => h.elim fun _ => .statement

end Parts

mutual

theorem sound_statement : ∀ n, SoundStatement (statement n)
  | 0 => fun s hs => by
    unfold statement
    exact .missingExpression
  | n + 1 => fun s hs => by
    unfold statement
    exact reads_statementOf (sound_statement n) (n + 1) (sound_declaration n) hs

theorem sound_declaration : ∀ n, SoundDeclaration (declaration n)
  | 0 => fun s hs => by
    unfold declaration
    exact reads_recovering .missingExpression
  | n + 1 => fun s hs => by
    unfold declaration
    exact reads_recovering
      (reads_declarationOf (sound_statement n) (n + 1) (sound_declaration n) hs)

end

end Parser
end Lox
