import Lox.Proofs.Grammar.Acceptance
import Lox.Proofs.Grammar.Roles

/-!
What reading writes into trees, with faults and without.

A fault loses a declaration but never leaves a wrong tree behind: whatever is read is built from
tokens of the source, each in a place that its kind suits, and its literals are values of literal
tokens.  The one literal that no token stands for is the condition of a loop without one.
-/

namespace Lox

variable {T : Token → Prop}

/-- Whether an expression is written in tokens of `T`, each of a kind that suits its role. -/
inductive Expr.Written (T : Token → Prop) : Expr → Prop
  | literal {t : Token} {v : Value} : T t → t.literal? = some v → Written T (.literal v)
  | always : Written T (.literal (.bool true))
  | grouping {e : Expr} : Written T e → Written T (.grouping e)
  | unary {t : Token} {e : Expr} : T t → t.kind ∈ Role.sign.kinds → Written T e →
      Written T (.unary t e)
  | binary {l r : Expr} {t : Token} : Written T l → T t → t.kind ∈ Role.operator.kinds →
      Written T r → Written T (.binary l t r)
  | logical {l r : Expr} {t : Token} : Written T l → T t → t.kind ∈ Role.connective.kinds →
      Written T r → Written T (.logical l t r)
  | variable {x : Token} : T x → x.kind = .identifier → Written T (.variable x)
  | assign {x : Token} {e : Expr} : T x → x.kind = .identifier → Written T e →
      Written T (.assign x e)
  | call {f : Expr} {t : Token} {es : List Expr} : Written T f → T t → t.kind = .rightParen →
      (∀ e ∈ es, Written T e) → Written T (.call f t es)

/-- The same for statements. -/
inductive Stmt.Written (T : Token → Prop) : Stmt → Prop
  | print {t : Token} {e : Expr} : T t → t.kind = .kwPrint → e.Written T → Written T (.print t e)
  | expression {e : Expr} : e.Written T → Written T (.expression e)
  | declare {x : Token} {e : Option Expr} : T x → x.kind = .identifier →
      (∀ u ∈ e, u.Written T) → Written T (.declare x e)
  | block {ss : List Stmt} : (∀ s ∈ ss, Written T s) → Written T (.block ss)
  | branch {c : Expr} {s : Stmt} {t : Option Stmt} : c.Written T → Written T s →
      (∀ u ∈ t, Written T u) → Written T (.branch c s t)
  | loop {c : Expr} {s : Stmt} : c.Written T → Written T s → Written T (.loop c s)
  | function {x : Token} {xs : List Token} {ss : List Stmt} : T x → x.kind = .identifier →
      (∀ p ∈ xs, T p ∧ p.kind = .identifier) → (∀ s ∈ ss, Written T s) →
      Written T (.function ⟨x, xs, ss⟩)
  | ret {t : Token} {e : Option Expr} : T t → t.kind = .kwReturn → (∀ u ∈ e, u.Written T) →
      Written T (.ret t e)

theorem Expr.Written.combine {level : Level} {l r : Expr} {t : Token} (hl : l.Written T) (hT : T t)
    (ht : t.kind ∈ level.operators) (hr : r.Written T) : (level.combine l t r).Written T := by
  cases level with
  | disjunction | conjunction =>
    refine .logical hl hT ?_ hr
    simp only [Level.operators, List.mem_singleton] at ht
    simp [Role.kinds, ht]
  | equality | comparison | sum | product =>
    refine .binary hl hT ?_ hr
    simp [Role.kinds, ht]

theorem Stmt.Written.forLoop {i : Option Stmt} {c : Expr} {n : Option Expr} {s : Stmt}
    (hi : ∀ u ∈ i, u.Written T) (hc : c.Written T) (hn : ∀ u ∈ n, u.Written T)
    (hs : s.Written T) : (Stmt.forLoop i c n s).Written T := by
  have hloop : (Stmt.forLoop none c n s).Written T := by
    cases n with
    | none => exact .loop hc hs
    | some e =>
      refine .loop hc (.block (List.forall_mem_cons.mpr ⟨hs, ?_⟩))
      exact List.forall_mem_singleton.mpr (.expression (hn e rfl))
  cases i with
  | none => exact hloop
  | some u =>
    exact .block (List.forall_mem_cons.mpr ⟨hi u rfl, List.forall_mem_singleton.mpr hloop⟩)

/-- Whether the tokens that are left are tokens of `T`. -/
structure Reading.Of (T : Token → Prop) (s : Reading) : Prop where
  rest : ∀ t ∈ s.rest, T t
  stop : s.stop.kind = .eof

namespace Reading

variable {s s' : Reading}

theorem Of.later (hs : s.Of T) (h : s.Later s') : s'.Of T :=
  ⟨fun t ht => hs.rest t (h.rest.subset ht), h.eof hs.stop⟩

theorem Of.ahead (hs : s.Of T) (h : s.ahead.kind ≠ .eof) : T s.ahead :=
  hs.rest _ (by rw [rest_eq_ahead_cons hs.stop h]; exact List.mem_cons_self)

end Reading

namespace Parser

variable {α β : Type}

/-- Whether all that a parser reads from tokens of `T` is as `Q` says. -/
def Yields (T : Token → Prop) (p : Parser α) (Q : α → Prop) : Prop :=
  ∀ s : Reading, s.Of T → match p s with
    | .ok a s' => s'.Of T ∧ Q a
    | .error _ s' => s'.Of T

namespace Yields

variable {p q : Parser α} {f : α → Parser β} {Q : α → Prop} {R : β → Prop}

theorem pure {a : α} (h : Q a) : Yields T (pure a) Q := fun _ hs => ⟨hs, h⟩

theorem bind (hp : Yields T p Q) (hf : ∀ a, Q a → Yields T (f a) R) : Yields T (p >>= f) R := by
  intro s hs
  rw [bind_apply]
  have h := hp s hs
  cases hr : p s with
  | ok a s' =>
    rw [hr] at h
    exact hf a h.2 s' h.1
  | error e s' =>
    rw [hr] at h
    exact h

theorem map {g : α → β} (hp : Yields T p fun a => R (g a)) : Yields T (g <$> p) R :=
  bind (f := fun a => Pure.pure (g a)) hp fun _ h => pure h

theorem ite {c : Prop} [Decidable c] (hp : c → Yields T p Q) (hq : ¬c → Yields T q Q) :
    Yields T (if c then p else q) Q := by
  split
  · next h => exact hp h
  · next h => exact hq h

theorem mono {Q' : α → Prop} (hp : Yields T p Q) (h : ∀ a, Q a → Q' a) : Yields T p Q' := by
  have hmap := map (R := Q') (g := id) (hp.bind fun a ha => pure (h a ha))
  rwa [id_map, bind_pure] at hmap

/-- The token ahead is one of those that are left, unless it ends the list. -/
theorem peek : Yields T peek fun t => t.kind ≠ .eof → T t := fun _ hs => ⟨hs, hs.ahead⟩

theorem get : Yields T get fun _ => True := fun _ hs => ⟨hs, trivial⟩

theorem take : Yields T take fun _ => True := fun s hs => ⟨hs.later s.later_next, trivial⟩

theorem throw (e : ParseError) : Yields T (throw e : Parser α) Q := fun _ hs => hs

theorem report (t : Token) (fault : ParseFault) : Yields T (report t fault) fun _ => True :=
  fun s hs => ⟨hs.later (s.later_record _), trivial⟩

theorem missingExpression : Yields T (missingExpression : Parser α) Q :=
  bind peek fun _ _ => throw _

theorem skip (kind : Kind) : Yields T (skip kind) fun _ => True :=
  bind peek fun _ _ => ite (fun _ => bind take fun _ _ => pure trivial) fun _ => pure trivial

theorem expect (what : Missing) : Yields T (expect what) fun t => T t ∧ t.kind = what.kind := by
  intro s hs
  by_cases h : s.ahead.kind = what.kind
  · rw [expect_of_eq h]
    refine ⟨hs.later s.later_next, hs.ahead ?_, h⟩
    rw [h]
    cases what <;> decide
  · rw [expect_of_ne h]
    exact hs

theorem limit (count : Nat) (fault : ParseFault) : Yields T (limit count fault) fun _ => True :=
  ite (fun _ => bind peek fun t _ => report t fault) fun _ => pure trivial

theorem none : Yields T (Pure.pure none) fun o => ∀ a ∈ o, Q a := pure fun _ ha => by cases ha

theorem some (hp : Yields T p Q) : Yields T (some <$> p) fun o => ∀ a ∈ o, Q a :=
  map <| hp.mono fun a h => by
    rintro b ⟨⟩
    exact h

/-- A fault that is recovered from leaves nothing. -/
theorem recovering {p : Parser Stmt} {Q : Stmt → Prop} (hp : Yields T p Q) :
    Yields T (recovering p) fun o => ∀ a ∈ o, Q a := by
  intro s hs
  have h := hp s hs
  unfold Parser.recovering
  cases hr : p s with
  | ok a s' =>
    rw [hr] at h
    refine ⟨h.1, ?_⟩
    rintro b ⟨⟩
    exact h.2
  | error e s' =>
    rw [hr] at h
    refine ⟨⟨fun t ht => h.rest t ((dropToBoundary_suffix _).subset ht), h.stop⟩, ?_⟩
    rintro b ⟨⟩

theorem insideFunction (hp : Yields T p Q) : Yields T (insideFunction p) Q := by
  intro s hs
  have h := hp { s with depth := s.depth + 1 } ⟨hs.rest, hs.stop⟩
  unfold Parser.insideFunction
  cases hr : p { s with depth := s.depth + 1 } with
  | ok a s' =>
    rw [hr] at h
    exact ⟨⟨h.1.rest, h.1.stop⟩, h.2⟩
  | error e s' =>
    rw [hr] at h
    exact ⟨h.rest, h.stop⟩

end Yields

/-! ## Expressions -/

section Expressions

variable {expression : Parser Expr} (he : Yields T expression (Expr.Written T))
include he

theorem yields_arguments (n count : Nat) :
    Yields T (arguments expression n count) fun es => ∀ e ∈ es, e.Written T := by
  induction n generalizing count with
  | zero =>
    refine .bind (.limit count _) fun _ _ => .bind he fun e h => .pure ?_
    exact List.forall_mem_singleton.mpr h
  | succ n ih =>
    rw [arguments_succ]
    refine .bind (.limit count _) fun _ _ => .bind he fun e h => .bind (.skip .comma) fun given _ => ?_
    refine .ite (fun _ => .bind (ih (count + 1)) fun es hes => .pure ?_) fun _ => .pure ?_
    · exact List.forall_mem_cons.mpr ⟨h, hes⟩
    · exact List.forall_mem_singleton.mpr h

theorem yields_argumentList (bound : Nat) :
    Yields T (argumentList bound expression) fun es => ∀ e ∈ es, e.Written T :=
  .bind .peek fun _ _ => .ite (fun _ => .pure (List.forall_mem_nil _))
    fun _ => yields_arguments he bound 0

theorem yields_calls (bound n : Nat) {callee : Expr} (hc : callee.Written T) :
    Yields T (calls bound expression n callee) (Expr.Written T) := by
  induction n generalizing callee with
  | zero => exact .pure hc
  | succ n ih =>
    rw [calls_succ]
    refine .bind (.skip .leftParen) fun given _ => .ite (fun _ => ?_) fun _ => .pure hc
    refine .bind (yields_argumentList he bound) fun es hes => ?_
    exact .bind (.expect .afterArguments) fun paren hp => ih (.call hc hp.1 hp.2 hes)

theorem yields_primary : Yields T (primary expression) (Expr.Written T) := by
  unfold primary
  refine .bind .peek fun t hT => ?_
  cases hv : t.literal? with
  | some v =>
    have hk : t.kind ≠ .eof := ne_of_mem_of_not_mem (Grammar.kind_of_literal hv) (by decide)
    exact .bind .take fun _ _ => .pure (.literal (hT hk) hv)
  | none =>
    dsimp only
    split
    · next hk => exact .bind .take fun _ _ => .pure (.variable (hT (by rw [hk]; decide)) hk)
    · refine .bind .take fun _ _ => .bind he fun e h => ?_
      exact .bind (.expect .afterGrouping) fun _ _ => .pure (.grouping h)
    · exact .missingExpression

theorem yields_unary (bound n : Nat) : Yields T (unary bound expression n) (Expr.Written T) := by
  induction n with
  | zero => exact .missingExpression
  | succ n ih =>
    rw [unary_succ]
    refine .bind .peek fun t hT => .ite (fun hk => ?_) fun _ => ?_
    · have hsign : t.kind ∈ Role.sign.kinds := by simpa [Role.kinds] using hk
      have hne : t.kind ≠ .eof := ne_of_mem_of_not_mem hsign (by decide)
      exact .bind .take fun _ _ => .bind ih fun e h => .pure (.unary (hT hne) hsign h)
    · exact .bind (yields_primary he) fun callee h => yields_calls he bound bound h

end Expressions

theorem yields_operations {operand : Parser Expr} (ho : Yields T operand (Expr.Written T))
    (level : Level) (n : Nat) {left : Expr} (hl : left.Written T) :
    Yields T (operations level operand n left) (Expr.Written T) := by
  induction n generalizing left with
  | zero => exact .pure hl
  | succ n ih =>
    rw [operations_succ]
    refine .bind .peek fun t hT => .ite (fun hk => ?_) fun _ => .pure hl
    have hmem : t.kind ∈ level.operators := List.contains_iff_mem.1 hk
    refine .bind .take fun _ _ => .bind ho fun right hr => ih ?_
    exact .combine hl (hT (ne_eof_of_mem_operators hmem)) hmem hr

theorem yields_operators (bound : Nat) {operand : Parser Expr}
    (ho : Yields T operand (Expr.Written T)) (levels : List Level) :
    Yields T (operators bound operand levels) (Expr.Written T) := by
  induction levels with
  | nil => exact ho
  | cons level levels ih => exact .bind ih fun left hl => yields_operations ih level bound hl

theorem yields_assignment (n : Nat) : Yields T (assignment n) (Expr.Written T) := by
  induction n with
  | zero => exact .missingExpression
  | succ n ih =>
    unfold assignment
    refine .bind (yields_operators (n + 1) (yields_unary ih (n + 1) (n + 1)) Level.all)
      fun target ht => .bind .peek fun t _ => .ite (fun _ => ?_) fun _ => .pure ht
    refine .bind .take fun _ _ => .bind ih fun value hv => ?_
    split
    · cases ht with
      | «variable» hT hk => exact .pure (.assign hT hk hv)
    · exact .bind (.report t .invalidAssignmentTarget) fun _ _ => .pure ht

/-! ## Parts of statements -/

theorem yields_expressionStatement (bound : Nat) :
    Yields T (expressionStatement bound) (Stmt.Written T) :=
  .bind (yields_assignment bound) fun _ h =>
    .bind (.expect .afterExpression) fun _ _ => .pure (.expression h)

theorem yields_variableDeclaration (bound : Nat) :
    Yields T (variableDeclaration bound) (Stmt.Written T) := by
  rw [variableDeclaration_eq]
  refine .bind (.expect .variableName) fun x hx => .bind (.skip .equal) fun given _ => ?_
  refine .bind (.ite (fun _ => .some (yields_assignment bound)) fun _ => .none) fun e h => ?_
  exact .bind (.expect .afterVariable) fun _ _ => .pure (.declare hx.1 hx.2 h)

theorem yields_initializer (bound : Nat) :
    Yields T (initializer bound) fun i => ∀ u ∈ i, u.Written T := by
  unfold initializer
  refine .bind .peek fun t _ => ?_
  split
  · exact .bind .take fun _ _ => .none
  · exact .bind .take fun _ _ => .some (yields_variableDeclaration bound)
  · exact .some (yields_expressionStatement bound)

theorem yields_parameters (n count : Nat) :
    Yields T (parameters n count) fun xs => ∀ x ∈ xs, T x ∧ x.kind = .identifier := by
  induction n generalizing count with
  | zero =>
    refine .bind (.limit count _) fun _ _ => .bind (.expect .parameterName) fun x hx => .pure ?_
    exact List.forall_mem_singleton.mpr hx
  | succ n ih =>
    refine .bind (.limit count _) fun _ _ => .bind (.expect .parameterName) fun x hx => ?_
    refine .bind (.skip .comma) fun given _ => .ite (fun _ => ?_) fun _ => .pure ?_
    · exact .bind (ih (count + 1)) fun xs hxs => .pure (List.forall_mem_cons.mpr ⟨hx, hxs⟩)
    · exact List.forall_mem_singleton.mpr hx

theorem yields_parameterList (bound : Nat) :
    Yields T (parameterList bound) fun xs => ∀ x ∈ xs, T x ∧ x.kind = .identifier :=
  .bind .peek fun _ _ => .ite (fun _ => .pure (List.forall_mem_nil _))
    fun _ => yields_parameters bound 0

theorem yields_print (bound : Nat) {keyword : Token} (hT : T keyword)
    (hk : keyword.kind = .kwPrint) : Yields T (print bound keyword) (Stmt.Written T) :=
  .bind (yields_assignment bound) fun _ h =>
    .bind (.expect .afterPrintedValue) fun _ _ => .pure (.print hT hk h)

theorem yields_checkReturn (keyword : Token) : Yields T (checkReturn keyword) fun _ => True :=
  .bind .get fun _ _ => .ite (fun _ => .report keyword _) fun _ => .pure trivial

theorem yields_ret (bound : Nat) {keyword : Token} (hT : T keyword)
    (hk : keyword.kind = .kwReturn) : Yields T (ret bound keyword) (Stmt.Written T) := by
  rw [ret_eq]
  refine .bind (yields_checkReturn keyword) fun _ _ => .bind .peek fun t _ => ?_
  refine .bind (.ite (fun _ => .none) fun _ => .some (yields_assignment bound)) fun e h => ?_
  exact .bind (.expect .afterReturnValue) fun _ _ => .pure (.ret hT hk h)

/-! ## Statements -/

section Parts

variable {statement : Parser Stmt} (hst : Yields T statement (Stmt.Written T))
  {declaration : Parser (Option Stmt)}
  (hd : Yields T declaration fun o => ∀ s ∈ o, s.Written T) (bound : Nat)

include hst

theorem yields_branch : Yields T (branch bound statement) (Stmt.Written T) := by
  rw [branch_eq]
  refine .bind (.expect .beforeIfCondition) fun _ _ => .bind (yields_assignment bound) fun c hc => ?_
  refine .bind (.expect .afterIfCondition) fun _ _ => .bind hst fun s hs => ?_
  refine .bind (.skip .kwElse) fun given _ => ?_
  exact .bind (.ite (fun _ => .some hst) fun _ => .none) fun t ht => .pure (.branch hc hs ht)

theorem yields_whileLoop : Yields T (whileLoop bound statement) (Stmt.Written T) :=
  .bind (.expect .beforeWhileCondition) fun _ _ => .bind (yields_assignment bound) fun _ hc =>
    .bind (.expect .afterWhileCondition) fun _ _ => .bind hst fun _ hs => .pure (.loop hc hs)

theorem yields_forLoop : Yields T (forLoop bound statement) (Stmt.Written T) := by
  rw [forLoop_eq]
  refine .bind (.expect .beforeForClauses) fun _ _ => .bind (yields_initializer bound) fun i hi => ?_
  refine .bind .peek fun t _ => .bind
    (.ite (fun _ => .pure .always) fun _ => yields_assignment bound) fun c hc => ?_
  refine .bind (.expect .afterLoopCondition) fun _ _ => .bind .peek fun t _ => ?_
  refine .bind (.ite (fun _ => .none) fun _ => .some (yields_assignment bound)) fun n hn => ?_
  refine .bind (.expect .afterForClauses) fun _ _ => .bind hst fun s hs => .pure ?_
  exact .forLoop hi hc hn hs

omit hst
include hd

theorem yields_declarations (ends : Kind → Bool) (n : Nat) :
    Yields T (declarations ends declaration n) fun ss => ∀ s ∈ ss, s.Written T := by
  induction n with
  | zero => exact .pure (List.forall_mem_nil _)
  | succ n ih =>
    rw [declarations_succ]
    refine .bind .peek fun t _ => .ite (fun _ => .pure (List.forall_mem_nil _)) fun _ => ?_
    refine .bind hd fun first? h => .bind ih fun others ho => .pure ?_
    exact List.forall_mem_append.mpr ⟨fun s hs => h s (Option.mem_toList.mp hs), ho⟩

theorem yields_block : Yields T (block bound declaration) fun ss => ∀ s ∈ ss, s.Written T :=
  .bind (yields_declarations hd _ bound) fun _ h => .bind (.expect .afterBlock) fun _ _ => .pure h

theorem yields_functionDeclaration :
    Yields T (functionDeclaration bound declaration) (Stmt.Written T) := by
  unfold functionDeclaration
  refine .bind (.expect .functionName) fun x hx => .bind (.expect .beforeParameters) fun _ _ => ?_
  refine .bind (yields_parameterList bound) fun xs hxs => ?_
  refine .bind (.expect .afterParameters) fun _ _ => .bind (.expect .beforeFunctionBody) fun _ _ => ?_
  exact .bind (.insideFunction (yields_block hd bound)) fun body hb =>
    .pure (.function hx.1 hx.2 hxs hb)

include hst

theorem yields_statementOf :
    Yields T (statementOf bound statement declaration) (Stmt.Written T) := by
  unfold statementOf
  refine .bind .peek fun t hT => ?_
  split
  · exact .bind .take fun _ _ => yields_branch hst bound
  · next hk => exact .bind .take fun _ _ => yields_print bound (hT (by rw [hk]; decide)) hk
  · next hk => exact .bind .take fun _ _ => yields_ret bound (hT (by rw [hk]; decide)) hk
  · exact .bind .take fun _ _ => .bind (yields_block hd bound) fun _ h => .pure (.block h)
  · exact .bind .take fun _ _ => yields_whileLoop hst bound
  · exact .bind .take fun _ _ => yields_forLoop hst bound
  · exact yields_expressionStatement bound

theorem yields_declarationOf :
    Yields T (declarationOf bound statement declaration) (Stmt.Written T) := by
  unfold declarationOf
  refine .bind .peek fun t _ => ?_
  split
  · exact .bind .take fun _ _ => yields_variableDeclaration bound
  · exact .bind .take fun _ _ => yields_functionDeclaration hd bound
  · exact yields_statementOf hst hd bound

end Parts

mutual

theorem yields_statement : ∀ n, Yields T (statement n) (Stmt.Written T)
  | 0 => by
    unfold statement
    exact .missingExpression
  | n + 1 => by
    unfold statement
    exact yields_statementOf (yields_statement n) (yields_declaration n) (n + 1)

theorem yields_declaration : ∀ n, Yields T (declaration n) fun o => ∀ s ∈ o, s.Written T
  | 0 => by
    unfold declaration
    exact .recovering .missingExpression
  | n + 1 => by
    unfold declaration
    exact .recovering (yields_declarationOf (yields_statement n) (yields_declaration n) (n + 1))

end

end Parser

namespace Grammar

/-- Whatever could be read of a row of tokens is written in these tokens. -/
theorem written_of_parse {tokens : List Token} (hT : ∀ t ∈ tokens, T t) :
    ∀ s ∈ (parse tokens).statements, s.Written T := by
  obtain ⟨ss, s', hrun, hparse⟩ := parse_eq tokens
  have h := Parser.yields_declarations (Parser.yields_declaration (body tokens).length)
    (· == .eof) (body tokens).length (start tokens)
    ⟨fun t ht => hT t (List.takeWhile_subset _ ht), kind_stop tokens⟩
  have hprogram : program tokens = Parser.declarations (· == .eof)
    (Parser.declaration (body tokens).length) (body tokens).length := rfl
  rw [← hprogram, hrun] at h
  rw [hparse]
  exact h.2

end Grammar

/-- The program of a source, with faults or without, is written in the tokens of the source. -/
theorem Program.written {source : String} (hT : ∀ t ∈ (scan source).tokens, T t) :
    ∀ s ∈ (ofSource source).statements, s.Written T :=
  Grammar.written_of_parse hT

end Lox
