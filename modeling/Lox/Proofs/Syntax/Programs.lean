import Mathlib
import Lox.Proofs.Decimal.Doubles
import Lox.Proofs.Grammar.Written
import Lox.Proofs.Source.Lexemes
import Lox.Proofs.Syntax.Equality

/-!
Equality of the programs that sources hold.

Number literals are read as numbers, so no number in a program differs from itself, and a source
that is read twice gives equal programs.
-/

namespace Lox

/-! ## Trees of tokens -/

/-- Whether a token is spelled as the lexical grammar says.  The token that ends a source has no
spelling. -/
def Token.Spelled (t : Token) : Prop := t.kind ≠ .eof → Lexeme (.token t.form) t.lexeme.toList

theorem Token.spelled_of_scan {source : String} {t : Token} (ht : t ∈ (scan source).tokens) :
    t.Spelled := Scan.lexeme_of_mem ht

theorem Token.numbers_of_kind {t : Token} (h : t.kind ≠ .number) : t.numbers = [] := by
  obtain ⟨form, lexeme, line, column⟩ := t
  cases form with
  | number x => exact absurd rfl h
  | bare _ _ | string _ => rfl

/-- Number literals have no sign and are numbers. -/
theorem Lexeme.unsigned {x : Float} {text : List Char} (h : Lexeme (.token (.number x)) text) :
    Decimal.Unsigned x := by
  cases h with
  | integer _ => exact Decimal.unsigned_read _ _
  | fraction _ _ => exact Decimal.unsigned_read _ _

theorem Token.comparable {t : Token} (ht : t.Spelled) : Comparable t.numbers := by
  by_cases hk : t.kind = .number
  · have hlexeme := ht (by rw [hk]; decide)
    obtain ⟨form, lexeme, line, column⟩ := t
    cases form with
    | number x => exact List.forall_mem_singleton.mpr hlexeme.unsigned.isNaN
    | bare _ _ | string _ => exact comparable_nil
  · rw [numbers_of_kind hk]
    exact comparable_nil

theorem Token.numbers_of_literal {t : Token} {v : Value} (h : t.literal? = some v) :
    v.numbers = t.numbers := by
  unfold literal? at h
  unfold numbers
  split at h <;> next hform => first | cases h; rw [hform]; rfl | cases h

theorem Expr.comparable_numbersOfAll {es : List Expr} (h : ∀ e ∈ es, Comparable e.numbers) :
    Comparable (Expr.numbersOfAll es) := by
  induction es with
  | nil => exact comparable_nil
  | cons e es ih =>
    rw [List.forall_mem_cons] at h
    exact comparable_append.mpr ⟨h.1, ih h.2⟩

theorem Stmt.comparable_numbersOfAll {ss : List Stmt} (h : ∀ s ∈ ss, Comparable s.numbers) :
    Comparable (Stmt.numbersOfAll ss) := by
  induction ss with
  | nil => exact comparable_nil
  | cons s ss ih =>
    rw [List.forall_mem_cons] at h
    exact comparable_append.mpr ⟨h.1, ih h.2⟩

theorem Expr.Written.comparable {e : Expr} (h : e.Written Token.Spelled) :
    Comparable e.numbers := by
  induction h with
  | literal ht hv =>
    rw [Expr.numbers, Token.numbers_of_literal hv]
    exact Token.comparable ht
  | always => exact comparable_nil
  | grouping _ ih => exact ih
  | unary ht _ _ ih | assign ht _ _ ih => exact comparable_append.mpr ⟨Token.comparable ht, ih⟩
  | binary _ ht _ _ ihl ihr | logical _ ht _ _ ihl ihr =>
    exact comparable_append.mpr ⟨comparable_append.mpr ⟨ihl, Token.comparable ht⟩, ihr⟩
  | «variable» hx _ => exact Token.comparable hx
  | call _ ht _ _ ihf ihes =>
    exact comparable_append.mpr ⟨comparable_append.mpr ⟨ihf, Token.comparable ht⟩,
      Expr.comparable_numbersOfAll ihes⟩

theorem Expr.comparable_numbersOfOptional {e : Option Expr}
    (h : ∀ u ∈ e, u.Written Token.Spelled) : Comparable (Expr.numbersOfOptional e) := by
  cases e with
  | none => exact comparable_nil
  | some u => exact (h u rfl).comparable

theorem Stmt.Written.comparable {s : Stmt} (h : s.Written Token.Spelled) :
    Comparable s.numbers := by
  induction h with
  | print ht _ he => exact comparable_append.mpr ⟨Token.comparable ht, he.comparable⟩
  | expression he => exact he.comparable
  | declare ht _ he | ret ht _ he =>
    exact comparable_append.mpr ⟨Token.comparable ht, Expr.comparable_numbersOfOptional he⟩
  | block _ ih => exact Stmt.comparable_numbersOfAll ih
  | @branch c s t hc _ _ ihs iht =>
    refine comparable_append.mpr ⟨comparable_append.mpr ⟨hc.comparable, ihs⟩, ?_⟩
    cases t with
    | none => exact comparable_nil
    | some u => exact iht u rfl
  | loop hc _ ih => exact comparable_append.mpr ⟨hc.comparable, ih⟩
  | @function x xs ss hx _ hxs _ ih =>
    have hparameters : Comparable (xs.flatMap Token.numbers) := fun y hy => by
      obtain ⟨p, hp, hy⟩ := List.mem_flatMap.mp hy
      exact Token.comparable (hxs p hp).1 y hy
    exact comparable_append.mpr ⟨comparable_append.mpr ⟨Token.comparable hx, hparameters⟩,
      Stmt.comparable_numbersOfAll ih⟩

/-! ## The laws -/

/-- The laws of an equality that looks at numbers as doubles, and of listings that show no more than
it looks at. -/
structure ComparesLawfully {α β : Type} [BEq α] (numbers : α → List Float) (listing : α → β) :
    Prop where
  symm : ∀ a b : α, (a == b) = true → (b == a) = true
  trans : ∀ a b c : α, (a == b) = true → (b == c) = true → (a == c) = true
  refl_iff : ∀ a : α, (a == a) = true ↔ Comparable (numbers a)
  listing_eq : ∀ a b : α, (a == b) = true → listing a = listing b

/-- Equality of canonical forms is lawful. -/
theorem ComparesLawfully.of_canonical {α β : Type} [BEq α] {numbers : α → List Float}
    {listing : α → β} (canonical : α → α)
    (hbeq : ∀ a b : α, (a == b) = true ↔
      canonical a = canonical b ∧ Comparable (numbers a) ∧ Comparable (numbers b))
    (hlisting : ∀ a, listing (canonical a) = listing a) : ComparesLawfully numbers listing where
  symm a b h := by
    rw [hbeq] at h ⊢
    exact ⟨h.1.symm, h.2.2, h.2.1⟩
  trans a b c h h' := by
    rw [hbeq] at h h' ⊢
    exact ⟨h.1.trans h'.1, h.2.1, h'.2.2⟩
  refl_iff a := by
    rw [hbeq]
    exact ⟨fun h => h.2.1, fun h => ⟨rfl, h, h⟩⟩
  listing_eq a b h := by
    rw [hbeq] at h
    rw [← hlisting a, h.1, hlisting b]

/-- Equality of trees is lawful and listings respect it.  It is symmetric and transitive, a tree
equals itself exactly if no number in its literals and tokens differs from itself, and equal trees
are listed alike, for which they need not be the same: the two zeros are equal.  In the program of a
source no number differs from itself, so it equals the program of that source read once more. -/
theorem trees_compare_lawfully :
    ComparesLawfully Expr.numbers Expr.render ∧
    ComparesLawfully Stmt.numbersOfAll Stmt.renderAll ∧
    (∀ source, ((Program.ofSource source).statements == (Program.ofSource source).statements) =
      true) ∧
    (Expr.literal (.number 0) == .literal (.number (-0))) = true ∧
    Expr.literal (.number 0) ≠ .literal (.number (-0)) := by
  have hexpressions : ComparesLawfully Expr.numbers Expr.render :=
    .of_canonical Expr.canonical (fun _ _ => Expr.beq_iff) Expr.render_canonical
  have hstatements : ComparesLawfully Stmt.numbersOfAll Stmt.renderAll :=
    .of_canonical Stmt.canonicalAll (fun _ _ => Stmt.beqList_iff) Stmt.renderAll_canonicalAll
  refine ⟨hexpressions, hstatements, fun source => ?_, by decide, fun h => ?_⟩
  · refine (hstatements.refl_iff _).mpr (Stmt.comparable_numbersOfAll fun s hs => ?_)
    exact (Program.written (fun _ => Token.spelled_of_scan) s hs).comparable
  · have hzeros : (0 : Float) = -0 := Value.number.inj (Expr.literal.inj h)
    have hbits := congrArg Float.toBits hzeros
    exact absurd hbits (by decide)

end Lox
