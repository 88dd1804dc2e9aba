import Lox.Grammar.Statement

/-!
The grammar of the language, as a relation between rows of tokens and trees.

Each relation holds of a row of tokens and a tree when the row is a phrase and the tree is that of
its derivation.  Nothing here says how to find one: no token is looked at ahead of time, levels of
operators recurse on the left, and there is neither a bound nor an order of attempts.

The only freedom that the productions leave is which `if` an `else` belongs to.  It is settled by a
condition on statements in front of an `else`.  With no condition the relations are the bare
productions; when such a statement must not end in an `if` without an `else`, every `else` belongs
to the nearest `if`.
-/

namespace Lox
namespace Grammar

/-- The most entries that a list of parameters or arguments may have. -/
def maxEntries : Nat := 255

/-! ## Expressions -/

mutual

inductive Assignment : List Token → Expr → Prop
  | assign {x equal : Token} {ts : List Token} {e : Expr} :
      x.kind = .identifier → equal.kind = .equal → Assignment ts e →
      Assignment (x :: equal :: ts) (.assign x e)
  | operators {ts : List Token} {e : Expr} : Operators Level.all ts e → Assignment ts e

/-- Binary operators of the given levels, loosest first.  The left operand of an operator may be of
the same level, the right one is of the next tighter level. -/
inductive Operators : List Level → List Token → Expr → Prop
  | operand {ts : List Token} {e : Expr} : Unary ts e → Operators [] ts e
  | tighter {level : Level} {levels : List Level} {ts : List Token} {e : Expr} :
      Operators levels ts e → Operators (level :: levels) ts e
  | operation {level : Level} {levels : List Level} {ts us : List Token} {l r : Expr} {t : Token} :
      Operators (level :: levels) ts l → t.kind ∈ level.operators → Operators levels us r →
      Operators (level :: levels) (ts ++ t :: us) (level.combine l t r)

inductive Unary : List Token → Expr → Prop
  | operator {t : Token} {ts : List Token} {e : Expr} :
      t.kind = .bang ∨ t.kind = .minus → Unary ts e → Unary (t :: ts) (.unary t e)
  | call {ts : List Token} {e : Expr} : Call ts e → Unary ts e

inductive Call : List Token → Expr → Prop
  | primary {ts : List Token} {e : Expr} : Primary ts e → Call ts e
  | call {ts us : List Token} {f : Expr} {es : List Expr} {left right : Token} :
      Call ts f → left.kind = .leftParen → Arguments us es → right.kind = .rightParen →
      Call (ts ++ left :: us ++ [right]) (.call f right es)

inductive Arguments : List Token → List Expr → Prop
  | empty : Arguments [] []
  | some {ts : List Token} {es : List Expr} :
      ArgumentSequence ts es → es.length ≤ maxEntries → Arguments ts es

/-- One or more arguments with commas between them. -/
inductive ArgumentSequence : List Token → List Expr → Prop
  | one {ts : List Token} {e : Expr} : Assignment ts e → ArgumentSequence ts [e]
  | cons {ts us : List Token} {e : Expr} {es : List Expr} {comma : Token} :
      Assignment ts e → comma.kind = .comma → ArgumentSequence us es →
      ArgumentSequence (ts ++ comma :: us) (e :: es)

inductive Primary : List Token → Expr → Prop
  | literal {t : Token} {v : Value} : t.literal? = some v → Primary [t] (.literal v)
  | variable {t : Token} : t.kind = .identifier → Primary [t] (.variable t)
  | grouping {left right : Token} {ts : List Token} {e : Expr} :
      left.kind = .leftParen → Assignment ts e → right.kind = .rightParen →
      Primary (left :: ts ++ [right]) (.grouping e)

end

/-- An expression that may be left out. -/
inductive Optional : List Token → Option Expr → Prop
  | none : Optional [] none
  | some {ts : List Token} {e : Expr} : Assignment ts e → Optional ts (some e)

/-! ## Parts of statements -/

/-- One or more names with commas between them. -/
inductive ParameterSequence : List Token → List Token → Prop
  | one {x : Token} : x.kind = .identifier → ParameterSequence [x] [x]
  | cons {x comma : Token} {ts xs : List Token} :
      x.kind = .identifier → comma.kind = .comma → ParameterSequence ts xs →
      ParameterSequence (x :: comma :: ts) (x :: xs)

inductive Parameters : List Token → List Token → Prop
  | empty : Parameters [] []
  | some {ts xs : List Token} :
      ParameterSequence ts xs → xs.length ≤ maxEntries → Parameters ts xs

/-- An expression with a semicolon. -/
inductive ExpressionStatement : List Token → Stmt → Prop
  | mk {ts : List Token} {e : Expr} {semicolon : Token} :
      Assignment ts e → semicolon.kind = .semicolon →
      ExpressionStatement (ts ++ [semicolon]) (.expression e)

inductive VariableDeclaration : List Token → Stmt → Prop
  | bare {keyword x semicolon : Token} :
      keyword.kind = .kwVar → x.kind = .identifier → semicolon.kind = .semicolon →
      VariableDeclaration [keyword, x, semicolon] (.declare x none)
  | initialized {keyword x equal semicolon : Token} {ts : List Token} {e : Expr} :
      keyword.kind = .kwVar → x.kind = .identifier → equal.kind = .equal → Assignment ts e →
      semicolon.kind = .semicolon →
      VariableDeclaration (keyword :: x :: equal :: ts ++ [semicolon]) (.declare x (some e))

/-- The first clause in the head of a `for` statement. -/
inductive Initializer : List Token → Option Stmt → Prop
  | none {semicolon : Token} : semicolon.kind = .semicolon → Initializer [semicolon] none
  | variable {ts : List Token} {s : Stmt} : VariableDeclaration ts s → Initializer ts (some s)
  | expression {ts : List Token} {s : Stmt} : ExpressionStatement ts s → Initializer ts (some s)

/-! ## Statements -/

/-- Whether a statement ends in an `if` that has no `else`. -/
inductive Ending where
  | closed
  | dangling
deriving DecidableEq

/- `Before a` says that a statement with ending `a` may stand in front of an `else`, and `inside`
whether a function body is around the phrase. -/
mutual

inductive Statement (Before : Ending → Prop) : (inside : Bool) → Ending → List Token → Stmt → Prop
  | expression {inside : Bool} {ts : List Token} {s : Stmt} :
      ExpressionStatement ts s → Statement Before inside .closed ts s
  | print {inside : Bool} {keyword semicolon : Token} {ts : List Token} {e : Expr} :
      keyword.kind = .kwPrint → Assignment ts e → semicolon.kind = .semicolon →
      Statement Before inside .closed (keyword :: ts ++ [semicolon]) (.print keyword e)
  | ret {keyword semicolon : Token} {ts : List Token} {e : Option Expr} :
      keyword.kind = .kwReturn → Optional ts e → semicolon.kind = .semicolon →
      Statement Before true .closed (keyword :: ts ++ [semicolon]) (.ret keyword e)
  | block {inside : Bool} {left right : Token} {ts : List Token} {ss : List Stmt} :
      left.kind = .leftBrace → Declarations Before inside ts ss → right.kind = .rightBrace →
      Statement Before inside .closed (left :: ts ++ [right]) (.block ss)
  | branch {inside : Bool} {a : Ending} {keyword left right : Token} {ts us : List Token} {c : Expr}
      {s : Stmt} :
      keyword.kind = .kwIf → left.kind = .leftParen → Assignment ts c → right.kind = .rightParen →
      Statement Before inside a us s →
      Statement Before inside .dangling (keyword :: left :: ts ++ right :: us) (.branch c s none)
  | branchElse {inside : Bool} {a b : Ending} {keyword left right separator : Token}
      {ts us vs : List Token} {c : Expr} {s t : Stmt} :
      keyword.kind = .kwIf → left.kind = .leftParen → Assignment ts c → right.kind = .rightParen →
      Statement Before inside a us s → Before a → separator.kind = .kwElse →
      Statement Before inside b vs t →
      Statement Before inside b (keyword :: left :: ts ++ right :: us ++ separator :: vs)
        (.branch c s (some t))
  | loop {inside : Bool} {a : Ending} {keyword left right : Token} {ts us : List Token} {c : Expr}
      {s : Stmt} :
      keyword.kind = .kwWhile → left.kind = .leftParen → Assignment ts c →
      right.kind = .rightParen → Statement Before inside a us s →
      Statement Before inside a (keyword :: left :: ts ++ right :: us) (.loop c s)
  | forLoop {inside : Bool} {a : Ending} {keyword left semicolon right : Token}
      {is cs ns us : List Token} {i : Option Stmt} {c n : Option Expr} {s : Stmt} :
      keyword.kind = .kwFor → left.kind = .leftParen → Initializer is i → Optional cs c →
      semicolon.kind = .semicolon → Optional ns n → right.kind = .rightParen →
      Statement Before inside a us s →
      Statement Before inside a (keyword :: left :: is ++ cs ++ semicolon :: ns ++ right :: us)
        (.forLoop i (c.getD (.literal (.bool true))) n s)

inductive Declaration (Before : Ending → Prop) : (inside : Bool) → List Token → Stmt → Prop
  | variable {inside : Bool} {ts : List Token} {s : Stmt} :
      VariableDeclaration ts s → Declaration Before inside ts s
  | function {inside : Bool} {keyword x left right leftBrace rightBrace : Token}
      {ps ts xs : List Token} {ss : List Stmt} :
      keyword.kind = .kwFun → x.kind = .identifier → left.kind = .leftParen → Parameters ps xs →
      right.kind = .rightParen → leftBrace.kind = .leftBrace → Declarations Before true ts ss →
      rightBrace.kind = .rightBrace →
      Declaration Before inside
        (keyword :: x :: left :: ps ++ right :: leftBrace :: ts ++ [rightBrace])
        (.function ⟨x, xs, ss⟩)
  | statement {inside : Bool} {a : Ending} {ts : List Token} {s : Stmt} :
      Statement Before inside a ts s → Declaration Before inside ts s

inductive Declarations (Before : Ending → Prop) : (inside : Bool) → List Token → List Stmt → Prop
  | nil {inside : Bool} : Declarations Before inside [] []
  | cons {inside : Bool} {ts us : List Token} {s : Stmt} {ss : List Stmt} :
      Declaration Before inside ts s → Declarations Before inside us ss →
      Declarations Before inside (ts ++ us) (s :: ss)

end

/-- The bare productions: any statement may stand in front of an `else`. -/
def anyIf : Ending → Prop := fun _ => True

/-- The rule that an `else` belongs to the nearest `if`. -/
def nearestIf : Ending → Prop := (· = .closed)

/-- Whether a row of tokens is a program with the given trees. -/
def Derives (Before : Ending → Prop) (tokens : List Token) (statements : List Stmt) : Prop :=
  Declarations Before false tokens statements

/-! ## What phrases start with -/

/-- Whether a row starts with a token of one of the given kinds. -/
def StartsWith (kinds : List Kind) (ts : List Token) : Prop :=
  ∃ t us, ts = t :: us ∧ t.kind ∈ kinds

theorem StartsWith.append {kinds : List Kind} {ts : List Token} (h : StartsWith kinds ts)
    (us : List Token) : StartsWith kinds (ts ++ us) := by
  obtain ⟨t, vs, rfl, hk⟩ := h
  exact ⟨t, vs ++ us, rfl, hk⟩

theorem StartsWith.mono {kinds kinds' : List Kind} {ts : List Token} (h : StartsWith kinds ts)
    (hk : ∀ k ∈ kinds, k ∈ kinds') : StartsWith kinds' ts := by
  obtain ⟨t, us, rfl, ht⟩ := h
  exact ⟨t, us, rfl, hk _ ht⟩

theorem StartsWith.length_pos {kinds : List Kind} {ts : List Token} (h : StartsWith kinds ts) :
    0 < ts.length := by
  obtain ⟨t, us, rfl, _⟩ := h
  exact Nat.succ_pos _

def literalKinds : List Kind := [.kwTrue, .kwFalse, .kwNil, .string, .number]

def primaryKinds : List Kind := literalKinds ++ [.identifier, .leftParen]

def expressionKinds : List Kind := primaryKinds ++ [.bang, .minus]

theorem kind_of_literal {t : Token} {v : Value} (h : t.literal? = some v) :
    t.kind ∈ literalKinds := by
  obtain ⟨form, lexeme, line, column⟩ := t
  cases form with
  | string text => simp [literalKinds, Token.kind, Form.kind]
  | number x => simp [literalKinds, Token.kind, Form.kind]
  | bare kind isBare =>
    cases kind <;> simp_all [Token.literal?, Token.kind, Form.kind, literalKinds]

theorem literal_eq_none {t : Token} (h : t.kind ∉ literalKinds) : t.literal? = none := by
  cases hv : t.literal? with
  | none => rfl
  | some v => exact absurd (kind_of_literal hv) h

theorem Primary.starts {ts : List Token} {e : Expr} (h : Primary ts e) :
    StartsWith primaryKinds ts := by
  cases h with
  | literal h => exact ⟨_, _, rfl, List.mem_append_left _ (kind_of_literal h)⟩
  | «variable» h => exact ⟨_, _, rfl, by rw [h]; decide⟩
  | grouping h _ _ => exact ⟨_, _, rfl, by rw [h]; decide⟩

theorem Call.starts {ts : List Token} {e : Expr} : Call ts e → StartsWith primaryKinds ts
  | .primary h => h.starts
  | .call h _ _ _ => by
    rw [List.append_assoc]
    exact h.starts.append _

theorem Unary.starts {ts : List Token} {e : Expr} : Unary ts e → StartsWith expressionKinds ts
  | .operator h _ => ⟨_, _, rfl, by rcases h with h | h <;> rw [h] <;> decide⟩
  | .call h => h.starts.mono fun _ => List.mem_append_left _

theorem Operators.starts {levels : List Level} {ts : List Token} {e : Expr} :
    Operators levels ts e → StartsWith expressionKinds ts
  | .operand h => h.starts
  | .tighter h => h.starts
  | .operation h _ _ => h.starts.append _

theorem Assignment.starts {ts : List Token} {e : Expr} (h : Assignment ts e) :
    StartsWith expressionKinds ts := by
  cases h with
  | assign h _ _ => exact ⟨_, _, rfl, by rw [h]; decide⟩
  | operators h => exact h.starts

theorem ArgumentSequence.starts {ts : List Token} {es : List Expr} (h : ArgumentSequence ts es) :
    StartsWith expressionKinds ts := by
  cases h with
  | one h => exact h.starts
  | cons h _ _ => exact h.starts.append _

def statementKinds : List Kind :=
  expressionKinds ++ [.kwIf, .kwPrint, .kwReturn, .leftBrace, .kwWhile, .kwFor]

def declarationKinds : List Kind := statementKinds ++ [.kwVar, .kwFun]

theorem ExpressionStatement.starts {ts : List Token} {s : Stmt} (h : ExpressionStatement ts s) :
    StartsWith expressionKinds ts := by
  cases h with
  | mk h _ => exact h.starts.append _

theorem VariableDeclaration.starts {ts : List Token} {s : Stmt} (h : VariableDeclaration ts s) :
    StartsWith [.kwVar] ts := by
  cases h with
  | bare h _ _ => exact ⟨_, _, rfl, by rw [h]; decide⟩
  | initialized h _ _ _ _ => exact ⟨_, _, rfl, by rw [h]; decide⟩

variable {Before : Ending → Prop} {inside : Bool} {a : Ending} {ts : List Token} {s : Stmt}

theorem Statement.starts (h : Statement Before inside a ts s) : StartsWith statementKinds ts := by
  cases h with
  | expression h => exact h.starts.mono fun _ => List.mem_append_left _
  | print h _ _ => exact ⟨_, _, rfl, by rw [h]; decide⟩
  | ret h _ _ => exact ⟨_, _, rfl, by rw [h]; decide⟩
  | block h _ _ => exact ⟨_, _, rfl, by rw [h]; decide⟩
  | branch h _ _ _ _ => exact ⟨_, _, rfl, by rw [h]; decide⟩
  | branchElse h _ _ _ _ _ _ _ => exact ⟨_, _, rfl, by rw [h]; decide⟩
  | loop h _ _ _ _ => exact ⟨_, _, rfl, by rw [h]; decide⟩
  | forLoop h _ _ _ _ _ _ _ => exact ⟨_, _, rfl, by rw [h]; decide⟩

theorem Declaration.starts (h : Declaration Before inside ts s) :
    StartsWith declarationKinds ts := by
  cases h with
  | «variable» h => exact h.starts.mono (by decide)
  | function h _ _ _ _ _ _ _ => exact ⟨_, _, rfl, by rw [h]; decide⟩
  | statement h => exact h.starts.mono fun _ => List.mem_append_left _

/-! ## Inversion -/

theorem Unary.variable_inv {ts : List Token} {x : Token} (h : Unary ts (.variable x)) :
    ts = [x] ∧ x.kind = .identifier := by
  cases h with
  | call h =>
    cases h with
    | primary h =>
      cases h with
      | «variable» h => exact ⟨rfl, h⟩

/-- A variable on its own is the only way to read a variable. -/
theorem Operators.variable_inv {levels : List Level} {ts : List Token} {x : Token}
    (h : Operators levels ts (.variable x)) : ts = [x] ∧ x.kind = .identifier := by
  induction levels with
  | nil =>
    cases h with
    | operand h => exact h.variable_inv
  | cons level levels ih =>
    generalize he : Expr.variable x = e at h
    cases h with
    | tighter h => exact ih (he ▸ h)
    | operation _ _ _ => cases level <;> simp [Level.combine] at he

end Grammar
end Lox
