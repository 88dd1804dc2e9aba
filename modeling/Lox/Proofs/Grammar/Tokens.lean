import Lox.Proofs.Grammar.Programs
import Lox.Proofs.Grammar.Roles

/-!
Where the tokens of trees come from.

A tree holds no token that is not in the phrase it was read from.  So what is known of all tokens of
a source is known of all tokens in its program.
-/

namespace Lox
namespace Grammar

variable {Before : Ending → Prop} {t : Token}

/-! ## Expressions -/

mutual

theorem Assignment.mem : ∀ {ts : List Token} {e : Expr}, Assignment ts e → t ∈ e.tokens → t ∈ ts
  | _, _, .assign _ _ h, ht => by
    rw [Expr.tokens] at ht
    grind [h.mem]
  | _, _, .operators h, ht => h.mem ht

theorem Operators.mem : ∀ {levels : List Level} {ts : List Token} {e : Expr},
    Operators levels ts e → t ∈ e.tokens → t ∈ ts
  | _, _, _, .operand h, ht => h.mem ht
  | _, _, _, .tighter h, ht => h.mem ht
  | _, _, _, .operation hl _ hr, ht => by
    rw [tokens_combine] at ht
    grind [hl.mem, hr.mem]

theorem Unary.mem : ∀ {ts : List Token} {e : Expr}, Unary ts e → t ∈ e.tokens → t ∈ ts
  | _, _, .operator _ h, ht => by
    rw [Expr.tokens] at ht
    grind [h.mem]
  | _, _, .call h, ht => h.mem ht

theorem Call.mem : ∀ {ts : List Token} {e : Expr}, Call ts e → t ∈ e.tokens → t ∈ ts
  | _, _, .primary h, ht => h.mem ht
  | _, _, .call hf _ hes _, ht => by
    rw [Expr.tokens] at ht
    grind [hf.mem, hes.mem]

theorem Arguments.mem : ∀ {ts : List Token} {es : List Expr}, Arguments ts es →
    t ∈ Expr.tokensOfAll es → t ∈ ts
  | _, _, .empty, ht => ht
  | _, _, .some h _, ht => h.mem ht

theorem ArgumentSequence.mem : ∀ {ts : List Token} {es : List Expr}, ArgumentSequence ts es →
    t ∈ Expr.tokensOfAll es → t ∈ ts
  | _, _, .one h, ht => by
    rw [Expr.tokensOfAll, Expr.tokensOfAll, List.append_nil] at ht
    exact h.mem ht
  | _, _, .cons h _ hs, ht => by
    rw [Expr.tokensOfAll] at ht
    grind [h.mem, hs.mem]

theorem Primary.mem : ∀ {ts : List Token} {e : Expr}, Primary ts e → t ∈ e.tokens → t ∈ ts
  | _, _, .literal _, ht => absurd ht List.not_mem_nil
  | _, _, .variable _, ht => ht
  | _, _, .grouping _ h _, ht => by
    rw [Expr.tokens] at ht
    grind [h.mem]

end

theorem Optional.mem {ts : List Token} {e : Option Expr} (h : Optional ts e)
    (ht : t ∈ Expr.tokensOfOptional e) : t ∈ ts := by
  cases h with
  | none => exact ht
  | some h => exact h.mem ht

/-! ## Parts of statements -/

theorem Parameters.mem {ts xs : List Token} (h : Parameters ts xs) (ht : t ∈ xs) : t ∈ ts := by
  cases h with
  | empty => exact ht
  | some h _ =>
    induction h with
    | one _ => exact ht
    | cons _ _ _ ih => grind

theorem ExpressionStatement.mem {ts : List Token} {s : Stmt} (h : ExpressionStatement ts s)
    (ht : t ∈ s.tokens) : t ∈ ts := by
  cases h with
  | mk h _ => exact List.mem_append_left _ (h.mem ht)

theorem VariableDeclaration.mem {ts : List Token} {s : Stmt} (h : VariableDeclaration ts s)
    (ht : t ∈ s.tokens) : t ∈ ts := by
  cases h with
  | bare =>
    rw [Stmt.tokens, Expr.tokensOfOptional] at ht
    grind
  | initialized _ _ _ h _ =>
    rw [Stmt.tokens, Expr.tokensOfOptional] at ht
    grind [h.mem]

theorem Initializer.mem {ts : List Token} {i : Option Stmt} (h : Initializer ts i)
    (ht : t ∈ Stmt.tokensOfOptional i) : t ∈ ts := by
  cases h with
  | none _ => exact absurd ht List.not_mem_nil
  | «variable» h => exact h.mem ht
  | expression h => exact h.mem ht

/-! ## Statements -/

mutual

theorem Statement.mem : ∀ {inside : Bool} {a : Ending} {ts : List Token} {s : Stmt},
    Statement Before inside a ts s → t ∈ s.tokens → t ∈ ts
  | _, _, _, _, .expression h, ht => h.mem ht
  | _, _, _, _, .print _ h _, ht => by
    rw [Stmt.tokens] at ht
    grind [h.mem]
  | _, _, _, _, .ret _ h _, ht => by
    rw [Stmt.tokens] at ht
    grind [h.mem]
  | _, _, _, _, .block _ h _, ht => by
    rw [Stmt.tokens] at ht
    grind [h.mem]
  | _, _, _, _, .branch _ _ hc _ h, ht => by
    rw [Stmt.tokens, Stmt.tokensOfOptional] at ht
    grind [hc.mem, h.mem]
  | _, _, _, _, .branchElse _ _ hc _ h _ _ h', ht => by
    rw [Stmt.tokens, Stmt.tokensOfOptional] at ht
    grind [hc.mem, h.mem, h'.mem]
  | _, _, _, _, .loop _ _ hc _ h, ht => by
    rw [Stmt.tokens] at ht
    grind [hc.mem, h.mem]
  | _, _, _, _, .forLoop _ _ hi hc _ hn _ h, ht => by
    rw [mem_tokens_forLoop] at ht
    grind [hi.mem, hc.mem, hn.mem, h.mem]

theorem Declaration.mem : ∀ {inside : Bool} {ts : List Token} {s : Stmt},
    Declaration Before inside ts s → t ∈ s.tokens → t ∈ ts
  | _, _, _, .variable h, ht => h.mem ht
  | _, _, _, .function _ _ _ hps _ _ h _, ht => by
    rw [Stmt.tokens, Declaration.tokens, List.mem_append, List.mem_cons] at ht
    rcases ht with (rfl | ht) | ht
    · simp
    · simp [hps.mem ht]
    · simp [h.mem ht]
  | _, _, _, .statement h, ht => h.mem ht

theorem Declarations.mem : ∀ {inside : Bool} {ts : List Token} {ss : List Stmt},
    Declarations Before inside ts ss → t ∈ Stmt.tokensOfAll ss → t ∈ ts
  | _, _, _, .nil, ht => ht
  | _, _, _, .cons h hs, ht => by
    rw [Stmt.tokensOfAll] at ht
    grind [h.mem, hs.mem]

end
end Grammar

/-- A program is written in tokens of its source. -/
theorem Program.mem_scan {source : String} (h : (ofSource source).diagnostics = []) {t : Token}
    (ht : t ∈ Stmt.tokensOfAll (ofSource source).statements) : t ∈ (scan source).tokens :=
  List.takeWhile_subset _ ((derives h).mem ht)

end Lox
