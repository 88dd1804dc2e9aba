import Lox.Proofs.Evaluation.Roles
import Lox.Proofs.Grammar.Derivation
import Lox.Proofs.Relabeling.Trees

/-!
The tokens in the trees of phrases.

The grammar gives every token of a tree the role that its kind suits, and no list gets longer than
there may be entries.
-/

namespace Lox

/-- The kinds of token that the grammar allows in a role. -/
def Role.kinds : Role → List Kind
  | sign => [.bang, .minus]
  | operator =>
    Level.operators .equality ++ Level.operators .comparison ++ Level.operators .sum ++
      Level.operators .product
  | connective => [.kwOr, .kwAnd]
  | name => [.identifier]
  | closing _ => [.rightParen]
  | printing => [.kwPrint]

/-- Whether a token is one of `T` and may stand in a role.  A parenthesis does not close too many
arguments. -/
structure Role.Suits (T : Token → Prop) (role : Role) (t : Token) : Prop where
  known : T t
  kind : t.kind ∈ role.kinds
  arguments : ∀ n, role = .closing n → n ≤ Parser.arityLimit

namespace Grammar

variable {T : Token → Prop} {Before : Ending → Prop}

theorem fits_combine {level : Level} {l r : Expr} {t : Token} (ht : t.kind ∈ level.operators)
    (hT : T t) (hl : l.Fits (Role.Suits T)) (hr : r.Fits (Role.Suits T)) :
    (level.combine l t r).Fits (Role.Suits T) := by
  cases level with
  | disjunction | conjunction =>
    refine .logical hl ⟨hT, ?_, nofun⟩ hr
    simp only [Level.operators, List.mem_singleton] at ht
    simp [Role.kinds, ht]
  | equality | comparison | sum | product =>
    refine .binary hl ⟨hT, ?_, nofun⟩ hr
    simp [Role.kinds, ht]

theorem tokens_combine (level : Level) (l : Expr) (t : Token) (r : Expr) :
    (level.combine l t r).tokens = l.tokens ++ t :: r.tokens := by
  cases level <;> simp [Level.combine, Expr.tokens]

theorem name_suits {x : Token} (hx : x.kind = .identifier) (hT : T x) : Role.name.Suits T x :=
  ⟨hT, by simp [Role.kinds, hx], nofun⟩

theorem arity?_of_literal {t : Token} {v : Value} (h : t.literal? = some v) : v.arity? = none := by
  unfold Token.literal? at h
  split at h <;> first | cases h; rfl | exact nomatch h

/-! ## Expressions -/

mutual

theorem Assignment.fits : ∀ {ts : List Token} {e : Expr}, Assignment ts e →
    (∀ t ∈ e.tokens, T t) → e.Fits (Role.Suits T)
  | _, _, .assign hx _ h, hT => by
    rw [Expr.tokens, List.forall_mem_cons] at hT
    exact .assign (name_suits hx hT.1) (h.fits hT.2)
  | _, _, .operators h, hT => h.fits hT

theorem Operators.fits : ∀ {levels : List Level} {ts : List Token} {e : Expr},
    Operators levels ts e → (∀ t ∈ e.tokens, T t) → e.Fits (Role.Suits T)
  | _, _, _, .operand h, hT => h.fits hT
  | _, _, _, .tighter h, hT => h.fits hT
  | _, _, _, .operation hl ht hr, hT => by
    rw [tokens_combine, List.forall_mem_append, List.forall_mem_cons] at hT
    exact fits_combine ht hT.2.1 (hl.fits hT.1) (hr.fits hT.2.2)

theorem Unary.fits : ∀ {ts : List Token} {e : Expr}, Unary ts e → (∀ t ∈ e.tokens, T t) →
    e.Fits (Role.Suits T)
  | _, _, .operator ht h, hT => by
    rw [Expr.tokens, List.forall_mem_cons] at hT
    exact .unary ⟨hT.1, by simpa [Role.kinds] using ht, nofun⟩ (h.fits hT.2)
  | _, _, .call h, hT => h.fits hT

theorem Call.fits : ∀ {ts : List Token} {e : Expr}, Call ts e → (∀ t ∈ e.tokens, T t) →
    e.Fits (Role.Suits T)
  | _, _, .primary h, hT => h.fits hT
  | _, _, .call hf _ hes hr, hT => by
    rw [Expr.tokens, List.forall_mem_append, List.forall_mem_cons] at hT
    obtain ⟨hlength, hfits⟩ := hes.fits hT.2.2
    refine .call (hf.fits hT.1) ⟨hT.2.1, by simp [Role.kinds, hr], ?_⟩ hfits
    rintro n ⟨⟩
    exact hlength

theorem Arguments.fits : ∀ {ts : List Token} {es : List Expr}, Arguments ts es →
    (∀ t ∈ Expr.tokensOfAll es, T t) →
    es.length ≤ Parser.arityLimit ∧ ∀ e ∈ es, e.Fits (Role.Suits T)
  | _, _, .empty, _ => ⟨Nat.zero_le _, nofun⟩
  | _, _, .some h hlength, hT => ⟨hlength, h.fits hT⟩

theorem ArgumentSequence.fits : ∀ {ts : List Token} {es : List Expr}, ArgumentSequence ts es →
    (∀ t ∈ Expr.tokensOfAll es, T t) → ∀ e ∈ es, e.Fits (Role.Suits T)
  | _, _, .one h, hT => by
    rw [Expr.tokensOfAll, Expr.tokensOfAll, List.append_nil] at hT
    exact List.forall_mem_singleton.mpr (h.fits hT)
  | _, _, .cons h _ hs, hT => by
    rw [Expr.tokensOfAll, List.forall_mem_append] at hT
    exact List.forall_mem_cons.mpr ⟨h.fits hT.1, hs.fits hT.2⟩

theorem Primary.fits : ∀ {ts : List Token} {e : Expr}, Primary ts e → (∀ t ∈ e.tokens, T t) →
    e.Fits (Role.Suits T)
  | _, _, .literal h, _ => .literal (arity?_of_literal h)
  | _, _, .variable hx, hT => by
    rw [Expr.tokens, List.forall_mem_singleton] at hT
    exact .variable (name_suits hx hT)
  | _, _, .grouping _ h _, hT => .grouping (h.fits hT)

end

theorem Optional.fits {ts : List Token} {e : Option Expr} (h : Optional ts e)
    (hT : ∀ t ∈ Expr.tokensOfOptional e, T t) : ∀ u ∈ e, u.Fits (Role.Suits T) := by
  rintro u hu
  cases h with
  | none => exact nomatch hu
  | some h =>
    cases hu
    exact h.fits hT

/-! ## Parts of statements -/

theorem Parameters.suit {ts xs : List Token} (h : Parameters ts xs) (hT : ∀ x ∈ xs, T x) :
    xs.length ≤ Parser.arityLimit ∧ ∀ x ∈ xs, Role.name.Suits T x := by
  cases h with
  | empty => exact ⟨Nat.zero_le _, nofun⟩
  | some h hlength =>
    refine ⟨hlength, ?_⟩
    clear hlength
    induction h with
    | one hx => exact List.forall_mem_singleton.mpr (name_suits hx (hT _ List.mem_cons_self))
    | cons hx _ _ ih =>
      rw [List.forall_mem_cons] at hT ⊢
      exact ⟨name_suits hx hT.1, ih hT.2⟩

theorem ExpressionStatement.fits {ts : List Token} {s : Stmt} (h : ExpressionStatement ts s)
    (hT : ∀ t ∈ s.tokens, T t) : s.Fits (Role.Suits T) := by
  cases h with
  | mk h _ => exact .expression (h.fits hT)

theorem VariableDeclaration.fits {ts : List Token} {s : Stmt} (h : VariableDeclaration ts s)
    (hT : ∀ t ∈ s.tokens, T t) : s.Fits (Role.Suits T) := by
  cases h with
  | bare _ hx _ =>
    rw [Stmt.tokens, List.forall_mem_cons] at hT
    exact .declare (name_suits hx hT.1) nofun
  | initialized _ hx _ h _ =>
    rw [Stmt.tokens, List.forall_mem_cons] at hT
    refine .declare (name_suits hx hT.1) ?_
    rintro u ⟨⟩
    exact h.fits hT.2

theorem Initializer.fits {ts : List Token} {i : Option Stmt} (h : Initializer ts i)
    (hT : ∀ t ∈ Stmt.tokensOfOptional i, T t) : ∀ s ∈ i, s.Fits (Role.Suits T) := by
  rintro s hs
  cases h with
  | none _ => exact nomatch hs
  | «variable» h =>
    cases hs
    exact h.fits hT
  | expression h =>
    cases hs
    exact h.fits hT

/-- What fits as the clauses of a loop fits as the tree that is built from them. -/
theorem fits_forLoop {i : Option Stmt} {c n : Option Expr} {s : Stmt} {P : Role → Token → Prop}
    (hi : ∀ u ∈ i, u.Fits P) (hc : ∀ u ∈ c, u.Fits P) (hn : ∀ u ∈ n, u.Fits P) (hs : s.Fits P) :
    (Stmt.forLoop i (c.getD (.literal (.bool true))) n s).Fits P := by
  have hcondition : (c.getD (.literal (.bool true))).Fits P := by
    cases c with
    | none => exact .literal rfl
    | some c => exact hc c rfl
  have hloop : (Stmt.forLoop none (c.getD (.literal (.bool true))) n s).Fits P := by
    cases n with
    | none => exact .loop hcondition hs
    | some e =>
      refine .loop hcondition (.block (List.forall_mem_cons.mpr ⟨hs, ?_⟩))
      exact List.forall_mem_singleton.mpr (.expression (hn e rfl))
  cases i with
  | none => exact hloop
  | some t =>
    exact .block (List.forall_mem_cons.mpr ⟨hi t rfl, List.forall_mem_singleton.mpr hloop⟩)

/-- The tokens of a loop are those of its clauses. -/
theorem mem_tokens_forLoop {i : Option Stmt} {c n : Option Expr} {s : Stmt} {t : Token} :
    t ∈ (Stmt.forLoop i (c.getD (.literal (.bool true))) n s).tokens ↔
      (t ∈ Stmt.tokensOfOptional i ∨ t ∈ Expr.tokensOfOptional c) ∨
        t ∈ Expr.tokensOfOptional n ∨ t ∈ s.tokens := by
  cases i <;> cases c <;> cases n <;>
    simp [Stmt.forLoop, Stmt.tokens, Stmt.tokensOfAll, Stmt.tokensOfOptional, Expr.tokens,
      Expr.tokensOfOptional, or_comm, or_assoc, or_left_comm]

/-! ## Statements -/

mutual

theorem Statement.fits : ∀ {inside : Bool} {a : Ending} {ts : List Token} {s : Stmt},
    Statement Before inside a ts s → (∀ t ∈ s.tokens, T t) → s.Fits (Role.Suits T)
  | _, _, _, _, .expression h, hT => h.fits hT
  | _, _, _, _, .print hk h _, hT => by
    rw [Stmt.tokens, List.forall_mem_cons] at hT
    exact .print ⟨hT.1, by simp [Role.kinds, hk], nofun⟩ (h.fits hT.2)
  | _, _, _, _, .ret _ h _, hT => by
    rw [Stmt.tokens, List.forall_mem_cons] at hT
    exact .ret (h.fits hT.2)
  | _, _, _, _, .block _ h _, hT => .block (h.fits hT)
  | _, _, _, _, .branch _ _ hc _ h, hT => by
    rw [Stmt.tokens, List.forall_mem_append, List.forall_mem_append] at hT
    exact .branch (hc.fits hT.1.1) (h.fits hT.1.2) nofun
  | _, _, _, _, .branchElse _ _ hc _ h _ _ h', hT => by
    rw [Stmt.tokens, List.forall_mem_append, List.forall_mem_append] at hT
    refine .branch (hc.fits hT.1.1) (h.fits hT.1.2) ?_
    rintro u ⟨⟩
    exact h'.fits hT.2
  | _, _, _, _, .loop _ _ hc _ h, hT => by
    rw [Stmt.tokens, List.forall_mem_append] at hT
    exact .loop (hc.fits hT.1) (h.fits hT.2)
  | _, _, _, _, .forLoop _ _ hi hc _ hn _ h, hT => by
    simp only [mem_tokens_forLoop, or_imp, forall_and] at hT
    obtain ⟨⟨hTi, hTc⟩, hTn, hTs⟩ := hT
    exact fits_forLoop (hi.fits hTi) (hc.fits hTc) (hn.fits hTn) (h.fits hTs)

theorem Declaration.fits : ∀ {inside : Bool} {ts : List Token} {s : Stmt},
    Declaration Before inside ts s → (∀ t ∈ s.tokens, T t) → s.Fits (Role.Suits T)
  | _, _, _, .variable h, hT => h.fits hT
  | _, _, _, .function _ hx _ hps _ _ h _, hT => by
    rw [Stmt.tokens, Declaration.tokens, List.forall_mem_append, List.forall_mem_cons] at hT
    obtain ⟨hlength, hsuit⟩ := hps.suit hT.1.2
    exact .function (name_suits hx hT.1.1) hsuit hlength (h.fits hT.2)
  | _, _, _, .statement h, hT => h.fits hT

theorem Declarations.fits : ∀ {inside : Bool} {ts : List Token} {ss : List Stmt},
    Declarations Before inside ts ss → (∀ t ∈ Stmt.tokensOfAll ss, T t) →
    ∀ s ∈ ss, s.Fits (Role.Suits T)
  | _, _, _, .nil, _ => nofun
  | _, _, _, .cons h hs, hT => by
    rw [Stmt.tokensOfAll, List.forall_mem_append] at hT
    exact List.forall_mem_cons.mpr ⟨h.fits hT.1, hs.fits hT.2⟩

end

end Grammar

/-! ## No scopes -/

section

variable {Allowed : Role → Token → Prop}

theorem Value.scopes_of_arity? {v : Value} (h : v.arity? = none) : v.scopes = [] := by
  cases v with
  | function f => exact nomatch h
  | nil | bool _ | number _ | string _ | native _ => rfl

theorem Expr.scopesAll_eq_nil {es : List Expr} (h : ∀ e ∈ es, e.scopes = []) :
    Expr.scopesAll es = [] := by
  induction es with
  | nil => rfl
  | cons e es ih =>
    rw [List.forall_mem_cons] at h
    rw [Expr.scopesAll, h.1, ih h.2, List.append_nil]

/-- No function is written in a tree that fits, so no scope is. -/
theorem Expr.Fits.scopes {e : Expr} (h : e.Fits Allowed) : e.scopes = [] := by
  induction h with
  | literal h => exact Value.scopes_of_arity? h
  | grouping _ ih | unary _ _ ih | assign _ _ ih => exact ih
  | binary _ _ _ ihl ihr | logical _ _ _ ihl ihr => rw [Expr.scopes, ihl, ihr, List.append_nil]
  | «variable» _ => rfl
  | call _ _ _ ihf ihes => rw [Expr.scopes, ihf, Expr.scopesAll_eq_nil ihes, List.append_nil]

theorem Expr.scopesOptional_eq_nil {e : Option Expr} (h : ∀ u ∈ e, u.Fits Allowed) :
    Expr.scopesOptional e = [] := by
  cases e with
  | none => rfl
  | some u => exact (h u rfl).scopes

theorem Stmt.scopesAll_eq_nil {ss : List Stmt} (h : ∀ s ∈ ss, s.scopes = []) :
    Stmt.scopesAll ss = [] := by
  induction ss with
  | nil => rfl
  | cons s ss ih =>
    rw [List.forall_mem_cons] at h
    rw [Stmt.scopesAll, h.1, ih h.2, List.append_nil]

theorem Stmt.Fits.scopes {s : Stmt} (h : s.Fits Allowed) : s.scopes = [] := by
  induction h with
  | print _ he | expression he => exact he.scopes
  | declare _ he | ret he => exact Expr.scopesOptional_eq_nil he
  | block _ ih => exact Stmt.scopesAll_eq_nil ih
  | @branch c s t hc _ _ ihs iht =>
    have ht : Stmt.scopesOptional t = [] := by
      cases t with
      | none => rfl
      | some u => exact iht u rfl
    rw [Stmt.scopes, hc.scopes, ihs, ht]
    rfl
  | loop hc _ ih => rw [Stmt.scopes, hc.scopes, ih, List.append_nil]
  | @function d _ _ _ _ ih =>
    obtain ⟨name, parameters, body⟩ := d
    exact Stmt.scopesAll_eq_nil ih

end

end Lox
