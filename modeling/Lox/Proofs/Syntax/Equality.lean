import Mathlib
import Lox.Syntax.Equality
import Lox.Syntax.Render

/-!
The laws of equality of trees.

Equality of trees is not identity.  A double that is no number differs from itself, the two zeros
are equal, and of a function only its identity counts.  A tree in canonical form has no more in it
than equality looks at: two trees are equal exactly if they have the same canonical form and no
number in them differs from itself.  Listing a tree shows no more than its canonical form.
-/

namespace Lox

/-! ## Canonical forms -/

/-- The number without the sign of a zero. -/
def unsignedZero (x : Float) : Float := if x == 0 then 0 else x

def Form.canonical : Form → Form
  | number x => number (unsignedZero x)
  | form => form

def Token.canonical (t : Token) : Token := { t with form := t.form.canonical }

theorem Kind.bare_identifier : identifier.Bare := by decide

/-- The declaration of a function of that name and nothing else. -/
def Declaration.bare (name : String) : Declaration :=
  ⟨⟨.bare .identifier Kind.bare_identifier, name, 0, 0⟩, [], []⟩

def Value.canonical : Value → Value
  | number x => number (unsignedZero x)
  | function f => function ⟨.bare f.name, f.site, f.scope⟩
  | native f => native ⟨f.name, 0, 0⟩
  | v => v

mutual

def Expr.canonical : Expr → Expr
  | .binary l t r => .binary l.canonical t.canonical r.canonical
  | .grouping e => .grouping e.canonical
  | .literal v => .literal v.canonical
  | .logical l t r => .logical l.canonical t.canonical r.canonical
  | .unary t e => .unary t.canonical e.canonical
  | .variable x => .variable x.canonical
  | .assign x e => .assign x.canonical e.canonical
  | .call f t es => .call f.canonical t.canonical (Expr.canonicalAll es)

def Expr.canonicalAll : List Expr → List Expr
  | [] => []
  | e :: es => e.canonical :: Expr.canonicalAll es

end

def Expr.canonicalOptional : Option Expr → Option Expr
  | none => none
  | some e => some e.canonical

mutual

def Stmt.canonical : Stmt → Stmt
  | .print t e => .print t.canonical e.canonical
  | .expression e => .expression e.canonical
  | .declare x e => .declare x.canonical (Expr.canonicalOptional e)
  | .block ss => .block (Stmt.canonicalAll ss)
  | .branch c s t => .branch c.canonical s.canonical (Stmt.canonicalOptional t)
  | .loop c s => .loop c.canonical s.canonical
  | .function d => .function d.canonical
  | .ret t e => .ret t.canonical (Expr.canonicalOptional e)

def Stmt.canonicalAll : List Stmt → List Stmt
  | [] => []
  | s :: ss => s.canonical :: Stmt.canonicalAll ss

def Stmt.canonicalOptional : Option Stmt → Option Stmt
  | none => none
  | some s => some s.canonical

def Declaration.canonical : Declaration → Declaration
  | ⟨x, xs, ss⟩ => ⟨x.canonical, xs.map Token.canonical, Stmt.canonicalAll ss⟩

end

/-! ## The numbers in a tree -/

def Form.numbers : Form → List Float
  | number x => [x]
  | _ => []

/-- The number that a token holds, if it holds one. -/
def Token.numbers (t : Token) : List Float := t.form.numbers

/-- A function is known by its identity, so the numbers in it do not count. -/
def Value.numbers : Value → List Float
  | number x => [x]
  | _ => []

mutual

/-- The numbers that a tree holds in its literals and in its tokens. -/
def Expr.numbers : Expr → List Float
  | .binary l t r => l.numbers ++ t.numbers ++ r.numbers
  | .grouping e => e.numbers
  | .literal v => v.numbers
  | .logical l t r => l.numbers ++ t.numbers ++ r.numbers
  | .unary t e => t.numbers ++ e.numbers
  | .variable x => x.numbers
  | .assign x e => x.numbers ++ e.numbers
  | .call f t es => f.numbers ++ t.numbers ++ Expr.numbersOfAll es

def Expr.numbersOfAll : List Expr → List Float
  | [] => []
  | e :: es => e.numbers ++ Expr.numbersOfAll es

end

def Expr.numbersOfOptional : Option Expr → List Float
  | none => []
  | some e => e.numbers

mutual

def Stmt.numbers : Stmt → List Float
  | .print t e => t.numbers ++ e.numbers
  | .expression e => e.numbers
  | .declare x e => x.numbers ++ Expr.numbersOfOptional e
  | .block ss => Stmt.numbersOfAll ss
  | .branch c s t => c.numbers ++ s.numbers ++ Stmt.numbersOfOptional t
  | .loop c s => c.numbers ++ s.numbers
  | .function d => d.numbers
  | .ret t e => t.numbers ++ Expr.numbersOfOptional e

def Stmt.numbersOfAll : List Stmt → List Float
  | [] => []
  | s :: ss => s.numbers ++ Stmt.numbersOfAll ss

def Stmt.numbersOfOptional : Option Stmt → List Float
  | none => []
  | some s => s.numbers

def Declaration.numbers : Declaration → List Float
  | ⟨x, xs, ss⟩ => x.numbers ++ xs.flatMap Token.numbers ++ Stmt.numbersOfAll ss

end

/-- Whether none of these doubles differs from itself. -/
def Comparable (xs : List Float) : Prop := ∀ x ∈ xs, x.isNaN = false

@[simp] theorem comparable_nil : Comparable [] := fun _ h => absurd h List.not_mem_nil

@[simp] theorem comparable_append {xs ys : List Float} :
    Comparable (xs ++ ys) ↔ Comparable xs ∧ Comparable ys := List.forall_mem_append

/-! ## Numbers, tokens and values -/

theorem beq_unsignedZero {x : Float} : (x == unsignedZero x) = true ↔ x.isNaN = false := by
  rw [Float.isNaN_eq_decide_eq_nan, decide_eq_false_iff_not, ← ne_eq, ← Float.beq_self_iff]
  unfold unsignedZero
  split
  · next h => exact ⟨fun _ => PartialEquivBEq.trans h (PartialEquivBEq.symm h), fun _ => h⟩
  · rfl

/-- Two numbers are equal if they differ at most in the sign of a zero and are numbers at all. -/
theorem beq_iff_unsignedZero {x y : Float} :
    (x == y) = true ↔ unsignedZero x = unsignedZero y ∧ Comparable [x] ∧ Comparable [y] := by
  simp only [Comparable, List.forall_mem_singleton, ← beq_unsignedZero]
  constructor
  · intro h
    have hself {z : Float} (hz : (z == z) = true) : (z == unsignedZero z) = true := by
      rwa [beq_unsignedZero, Float.isNaN_eq_decide_eq_nan, decide_eq_false_iff_not, ← ne_eq,
        ← Float.beq_self_iff]
    refine ⟨?_, hself (PartialEquivBEq.trans h (PartialEquivBEq.symm h)),
      hself (PartialEquivBEq.trans (PartialEquivBEq.symm h) h)⟩
    have hzero : (x == 0) = (y == 0) := BEq.congr_left h
    unfold unsignedZero
    rw [hzero]
    split
    · rfl
    · next hy =>
      obtain ⟨-, -, rfl | ⟨rfl, rfl⟩ | ⟨rfl, rfl⟩⟩ := Float.beq_iff_ne_nan_and_eq.mp h
      · rfl
      · exact absurd (by decide) hy
      · exact absurd (by decide) hy
  · rintro ⟨h, hx, hy⟩
    rw [h] at hx
    exact PartialEquivBEq.trans hx (PartialEquivBEq.symm hy)

theorem Form.beq_iff {f g : Form} :
    (f == g) = true ↔ f.canonical = g.canonical ∧ Comparable f.numbers ∧ Comparable g.numbers := by
  change f.equals g = true ↔ _
  cases f <;> cases g <;>
    simp [Form.equals, Form.canonical, Form.numbers, beq_iff_unsignedZero]

theorem Token.beq_iff {t u : Token} :
    (t == u) = true ↔ t.canonical = u.canonical ∧ Comparable t.numbers ∧ Comparable u.numbers := by
  obtain ⟨f, x, line, column⟩ := t
  obtain ⟨g, y, line', column'⟩ := u
  change (f == g && (x == y && (line == line' && column == column'))) = true ↔ _
  simp only [Bool.and_eq_true, Form.beq_iff, beq_iff_eq, canonical, numbers, Token.mk.injEq]
  tauto

theorem Token.beqList_iff {ts us : List Token} : (ts == us) = true ↔
    ts.map canonical = us.map canonical ∧ Comparable (ts.flatMap numbers) ∧
      Comparable (us.flatMap numbers) := by
  induction ts generalizing us with
  | nil => cases us <;> simp
  | cons t ts ih =>
    cases us with
    | nil => simp
    | cons u us =>
      rw [List.cons_beq_cons, Bool.and_eq_true, beq_iff, ih]
      simp only [List.map_cons, List.cons.injEq, List.flatMap_cons, comparable_append]
      tauto

theorem Value.beq_iff {v w : Value} :
    (v == w) = true ↔ v.canonical = w.canonical ∧ Comparable v.numbers ∧ Comparable w.numbers := by
  change v.equals w = true ↔ _
  cases v <;> cases w <;> simp [Value.equals, Value.canonical, Value.numbers, beq_iff_unsignedZero]
  · rename_i f g
    simp [Closure.same, Declaration.bare, Closure.name]
    tauto

/-! ## Trees -/

mutual

/-- Two expressions are equal exactly if they have the same canonical form and no number in them
differs from itself. -/
theorem Expr.equals_iff : ∀ a b : Expr,
    a.equals b = true ↔ a.canonical = b.canonical ∧ Comparable a.numbers ∧ Comparable b.numbers
  | .binary l o r, b => by
    cases b with
    | binary l' o' r' =>
      simp only [Expr.equals, Expr.canonical, Expr.numbers, Expr.binary.injEq, Bool.and_eq_true,
        comparable_append, Token.beq_iff, Expr.equals_iff l, Expr.equals_iff r]
      tauto
    | _ => simp [Expr.equals, Expr.canonical]
  | .grouping e, b => by
    cases b with
    | grouping e' =>
      simp only [Expr.equals, Expr.canonical, Expr.numbers, Expr.grouping.injEq, Expr.equals_iff e]
    | _ => simp [Expr.equals, Expr.canonical]
  | .literal v, b => by
    cases b with
    | literal w =>
      simp only [Expr.equals, Expr.canonical, Expr.numbers, Expr.literal.injEq, Value.beq_iff]
    | _ => simp [Expr.equals, Expr.canonical]
  | .logical l o r, b => by
    cases b with
    | logical l' o' r' =>
      simp only [Expr.equals, Expr.canonical, Expr.numbers, Expr.logical.injEq, Bool.and_eq_true,
        comparable_append, Token.beq_iff, Expr.equals_iff l, Expr.equals_iff r]
      tauto
    | _ => simp [Expr.equals, Expr.canonical]
  | .unary o r, b => by
    cases b with
    | unary o' r' =>
      simp only [Expr.equals, Expr.canonical, Expr.numbers, Expr.unary.injEq, Bool.and_eq_true,
        comparable_append, Token.beq_iff, Expr.equals_iff r]
      tauto
    | _ => simp [Expr.equals, Expr.canonical]
  | .variable x, b => by
    cases b with
    | «variable» x' =>
      simp only [Expr.equals, Expr.canonical, Expr.numbers, Expr.variable.injEq, Token.beq_iff]
    | _ => simp [Expr.equals, Expr.canonical]
  | .assign x e, b => by
    cases b with
    | assign x' e' =>
      simp only [Expr.equals, Expr.canonical, Expr.numbers, Expr.assign.injEq, Bool.and_eq_true,
        comparable_append, Token.beq_iff, Expr.equals_iff e]
      tauto
    | _ => simp [Expr.equals, Expr.canonical]
  | .call f p es, b => by
    cases b with
    | call f' p' es' =>
      simp only [Expr.equals, Expr.canonical, Expr.numbers, Expr.call.injEq, Bool.and_eq_true,
        comparable_append, Token.beq_iff, Expr.equals_iff f, Expr.equalsAll_iff es]
      tauto
    | _ => simp [Expr.equals, Expr.canonical]

theorem Expr.equalsAll_iff : ∀ as bs : List Expr, Expr.equalsAll as bs = true ↔
    Expr.canonicalAll as = Expr.canonicalAll bs ∧ Comparable (Expr.numbersOfAll as) ∧
      Comparable (Expr.numbersOfAll bs)
  | [], bs => by cases bs <;> simp [Expr.equalsAll, Expr.canonicalAll, Expr.numbersOfAll]
  | a :: as, bs => by
    cases bs with
    | nil => simp [Expr.equalsAll, Expr.canonicalAll]
    | cons b bs =>
      simp only [Expr.equalsAll, Expr.canonicalAll, Expr.numbersOfAll, List.cons.injEq,
        Bool.and_eq_true, comparable_append, Expr.equals_iff a, Expr.equalsAll_iff as]
      tauto

end

theorem Expr.equalsOptional_iff (a b : Option Expr) : Expr.equalsOptional a b = true ↔
    Expr.canonicalOptional a = Expr.canonicalOptional b ∧
      Comparable (Expr.numbersOfOptional a) ∧ Comparable (Expr.numbersOfOptional b) := by
  cases a <;> cases b <;>
    simp [Expr.equalsOptional, Expr.canonicalOptional, Expr.numbersOfOptional, Expr.equals_iff]

mutual

/-- The same for statements. -/
theorem Stmt.equals_iff : ∀ a b : Stmt,
    a.equals b = true ↔ a.canonical = b.canonical ∧ Comparable a.numbers ∧ Comparable b.numbers
  | .print k e, b => by
    cases b with
    | print k' e' =>
      simp only [Stmt.equals, Stmt.canonical, Stmt.numbers, Stmt.print.injEq, Bool.and_eq_true,
        comparable_append, Token.beq_iff, Expr.equals_iff]
      tauto
    | _ => simp [Stmt.equals, Stmt.canonical]
  | .expression e, b => by
    cases b with
    | expression e' =>
      simp only [Stmt.equals, Stmt.canonical, Stmt.numbers, Stmt.expression.injEq, Expr.equals_iff]
    | _ => simp [Stmt.equals, Stmt.canonical]
  | .declare x e, b => by
    cases b with
    | declare x' e' =>
      simp only [Stmt.equals, Stmt.canonical, Stmt.numbers, Stmt.declare.injEq, Bool.and_eq_true,
        comparable_append, Token.beq_iff, Expr.equalsOptional_iff]
      tauto
    | _ => simp [Stmt.equals, Stmt.canonical]
  | .block ss, b => by
    cases b with
    | block ss' =>
      simp only [Stmt.equals, Stmt.canonical, Stmt.numbers, Stmt.block.injEq,
        Stmt.equalsAll_iff ss]
    | _ => simp [Stmt.equals, Stmt.canonical]
  | .branch c s t, b => by
    cases b with
    | branch c' s' t' =>
      simp only [Stmt.equals, Stmt.canonical, Stmt.numbers, Stmt.branch.injEq, Bool.and_eq_true,
        comparable_append, Expr.equals_iff, Stmt.equals_iff s, Stmt.equalsOptional_iff t]
      tauto
    | _ => simp [Stmt.equals, Stmt.canonical]
  | .loop c s, b => by
    cases b with
    | loop c' s' =>
      simp only [Stmt.equals, Stmt.canonical, Stmt.numbers, Stmt.loop.injEq, Bool.and_eq_true,
        comparable_append, Expr.equals_iff, Stmt.equals_iff s]
      tauto
    | _ => simp [Stmt.equals, Stmt.canonical]
  | .function d, b => by
    cases b with
    | function d' =>
      simp only [Stmt.equals, Stmt.canonical, Stmt.numbers, Stmt.function.injEq,
        Declaration.equals_iff d]
    | _ => simp [Stmt.equals, Stmt.canonical]
  | .ret k e, b => by
    cases b with
    | ret k' e' =>
      simp only [Stmt.equals, Stmt.canonical, Stmt.numbers, Stmt.ret.injEq, Bool.and_eq_true,
        comparable_append, Token.beq_iff, Expr.equalsOptional_iff]
      tauto
    | _ => simp [Stmt.equals, Stmt.canonical]

theorem Stmt.equalsAll_iff : ∀ as bs : List Stmt, Stmt.equalsAll as bs = true ↔
    Stmt.canonicalAll as = Stmt.canonicalAll bs ∧ Comparable (Stmt.numbersOfAll as) ∧
      Comparable (Stmt.numbersOfAll bs)
  | [], bs => by cases bs <;> simp [Stmt.equalsAll, Stmt.canonicalAll, Stmt.numbersOfAll]
  | a :: as, bs => by
    cases bs with
    | nil => simp [Stmt.equalsAll, Stmt.canonicalAll]
    | cons b bs =>
      simp only [Stmt.equalsAll, Stmt.canonicalAll, Stmt.numbersOfAll, List.cons.injEq,
        Bool.and_eq_true, comparable_append, Stmt.equals_iff a, Stmt.equalsAll_iff as]
      tauto

theorem Stmt.equalsOptional_iff : ∀ a b : Option Stmt, Stmt.equalsOptional a b = true ↔
    Stmt.canonicalOptional a = Stmt.canonicalOptional b ∧
      Comparable (Stmt.numbersOfOptional a) ∧ Comparable (Stmt.numbersOfOptional b)
  | none, b => by
    cases b <;> simp [Stmt.equalsOptional, Stmt.canonicalOptional, Stmt.numbersOfOptional]
  | some a, b => by
    cases b with
    | none => simp [Stmt.equalsOptional, Stmt.canonicalOptional]
    | some b =>
      simp only [Stmt.equalsOptional, Stmt.canonicalOptional, Stmt.numbersOfOptional,
        Option.some.injEq, Stmt.equals_iff a]

theorem Declaration.equals_iff : ∀ a b : Declaration,
    a.equals b = true ↔ a.canonical = b.canonical ∧ Comparable a.numbers ∧ Comparable b.numbers
  | ⟨x, xs, ss⟩, b => by
    cases b with
    | mk x' xs' ss' =>
      simp only [Declaration.equals, Declaration.canonical, Declaration.numbers,
        Declaration.mk.injEq, Bool.and_eq_true, comparable_append, Token.beq_iff,
        Token.beqList_iff, Stmt.equalsAll_iff ss]
      tauto

end

theorem Stmt.beqList_eq (ss ts : List Stmt) : (ss == ts) = Stmt.equalsAll ss ts := by
  induction ss generalizing ts with
  | nil => cases ts <;> simp [Stmt.equalsAll]
  | cons s ss ih =>
    cases ts with
    | nil => simp [Stmt.equalsAll]
    | cons t ts =>
      rw [List.cons_beq_cons, ih, Stmt.equalsAll]
      rfl

theorem Expr.beq_iff {a b : Expr} :
    (a == b) = true ↔ a.canonical = b.canonical ∧ Comparable a.numbers ∧ Comparable b.numbers :=
  Expr.equals_iff a b

theorem Stmt.beqList_iff {ss ts : List Stmt} : (ss == ts) = true ↔
    Stmt.canonicalAll ss = Stmt.canonicalAll ts ∧ Comparable (Stmt.numbersOfAll ss) ∧
      Comparable (Stmt.numbersOfAll ts) := by
  rw [Stmt.beqList_eq, Stmt.equalsAll_iff]

/-! ## Listings -/

/-- A zero is written without its sign. -/
theorem Decimal.Layout.number_zero (l : Layout) {x : Float} (h : (x == 0) = true) :
    l.number x = l.zero := by
  have hbits : x.toBits.toNat / Nat.pow 2 52 % Nat.pow 2 11 = 0 ∧
      x.toBits.toNat % Nat.pow 2 52 = 0 := by
    obtain ⟨-, -, rfl | ⟨rfl, -⟩ | ⟨rfl, -⟩⟩ := Float.beq_iff_ne_nan_and_eq.mp h <;> decide
  unfold number
  dsimp only
  rw [hbits.1, hbits.2, if_neg (by decide), if_pos ⟨rfl, rfl⟩]

theorem Decimal.text_unsignedZero (x : Float) : text (unsignedZero x) = text x := by
  unfold unsignedZero
  split
  · next h => exact (layout.number_zero (by decide)).trans (layout.number_zero h).symm
  · rfl

theorem Value.text_canonical (v : Value) : v.canonical.text = v.text := by
  cases v with
  | number x => exact Decimal.text_unsignedZero x
  | _ => rfl

theorem Token.lexeme_canonical (t : Token) : t.canonical.lexeme = t.lexeme := rfl

mutual

theorem Expr.render_canonical : ∀ e : Expr, e.canonical.render = e.render
  | .binary l o r | .logical l o r => by
    simp only [Expr.canonical, Expr.render, Token.lexeme_canonical, Expr.render_canonical l,
      Expr.render_canonical r]
  | .grouping e => by simp only [Expr.canonical, Expr.render, Expr.render_canonical e]
  | .literal v => v.text_canonical
  | .unary o e | .assign o e => by
    simp only [Expr.canonical, Expr.render, Token.lexeme_canonical, Expr.render_canonical e]
  | .variable _ => rfl
  | .call f p es => by
    simp only [Expr.canonical, Expr.render, Expr.render_canonical f, Expr.renderAll_canonicalAll es]

theorem Expr.renderAll_canonicalAll : ∀ es : List Expr,
    Expr.renderAll (Expr.canonicalAll es) = Expr.renderAll es
  | [] => rfl
  | e :: es => by
    simp only [Expr.canonicalAll, Expr.renderAll, Expr.render_canonical e,
      Expr.renderAll_canonicalAll es]

end

mutual

theorem Stmt.render_canonical : ∀ s : Stmt, s.canonical.render = s.render
  | .print _ e | .expression e => by
    simp only [Stmt.canonical, Stmt.render, Expr.render_canonical e]
  | .declare _ none | .ret _ none => rfl
  | .declare x (some e) | .ret x (some e) => by
    simp only [Stmt.canonical, Expr.canonicalOptional, Stmt.render, Token.lexeme_canonical,
      Expr.render_canonical e]
  | .block ss => by simp only [Stmt.canonical, Stmt.render, Stmt.renderAll_canonicalAll ss]
  | .branch c s none => by
    simp only [Stmt.canonical, Stmt.canonicalOptional, Stmt.render, Expr.render_canonical c,
      Stmt.render_canonical s]
  | .branch c s (some t) => by
    simp only [Stmt.canonical, Stmt.canonicalOptional, Stmt.render, Expr.render_canonical c,
      Stmt.render_canonical s, Stmt.render_canonical t]
  | .loop c s => by
    simp only [Stmt.canonical, Stmt.render, Expr.render_canonical c, Stmt.render_canonical s]
  | .function ⟨x, xs, ss⟩ => by
    have hlexemes : Token.lexeme ∘ Token.canonical = Token.lexeme := rfl
    simp only [Stmt.canonical, Declaration.canonical, Stmt.render, Declaration.renderParameters,
      List.map_map, hlexemes, Token.lexeme_canonical, Stmt.renderAll_canonicalAll ss]

theorem Stmt.renderAll_canonicalAll : ∀ ss : List Stmt,
    Stmt.renderAll (Stmt.canonicalAll ss) = Stmt.renderAll ss
  | [] => rfl
  | s :: ss => by
    simp only [Stmt.canonicalAll, Stmt.renderAll, Stmt.render_canonical s,
      Stmt.renderAll_canonicalAll ss]

end

end Lox
