import Lox.Proofs.Grammar.Soundness

/-!
Every phrase of the grammar is read as it is derived.

A parser that is in front of a phrase takes that phrase and gives the tree of its derivation, if
what comes behind cannot be taken for a part of it.  Behind an expression that is an operator or a
parenthesis, behind a statement that ends in an `if` without an `else` it is an `else`.  This is
where the bounds on recursion matter: they have to be at least the number of tokens left.
-/

namespace Lox
namespace Parser

open Grammar

variable {s : Reading} {ts rest : List Token} {e : Expr} {n : Nat}

/-! ## Expressions -/

/-- Whether a token of this kind cannot go on with an expression of the given levels. -/
def Stops (levels : List Level) (k : Kind) : Prop :=
  k ≠ .leftParen ∧ ∀ level ∈ levels, k ∉ level.operators

/-- What is asked of the parser for the expressions inside an expression. -/
def CompleteExpression (n : Nat) (expression : Parser Expr) : Prop :=
  ∀ {ts e}, Assignment ts e → ∀ {s rest}, s.rest = ts ++ rest → s.rest.length ≤ n →
    Stops Level.all (s.after rest).ahead.kind → (s.after rest).ahead.kind ≠ .equal →
    expression s = .ok e (s.after rest)

theorem stops_of_terminator {levels : List Level} {k : Kind}
    (hk : k = .semicolon ∨ k = .rightParen ∨ k = .comma ∨ k = .equal) : Stops levels k := by
  refine ⟨by rcases hk with rfl | rfl | rfl | rfl <;> decide, fun level _ => ?_⟩
  rcases hk with rfl | rfl | rfl | rfl <;> cases level <;> decide

theorem calls_stop (expression : Parser Expr) (bound m : Nat) (e : Expr)
    (hstop : s.ahead.kind ≠ .leftParen) : calls bound expression m e s = .ok e s := by
  cases m with
  | zero => rfl
  | succ m =>
    rw [calls_succ, bind_of_ok (skip_of_ne hstop), if_neg Bool.false_ne_true]
    rfl

section Expressions

variable {expression : Parser Expr} (hc : CompleteExpression n expression)
include hc

theorem complete_primary (h : Primary ts e) (hr : s.rest = ts ++ rest)
    (hn : s.rest.length ≤ n + 1) : primary expression s = .ok e (s.after rest) := by
  unfold primary
  cases h with
  | @literal t v hv =>
    rw [bind_of_ok (peek_apply s), s.ahead_of_rest hr]
    simp only [hv]
    rw [bind_of_ok (take_cons hr)]
    rfl
  | @«variable» t hk =>
    rw [bind_of_ok (peek_apply s), s.ahead_of_rest hr]
    simp only [literal_eq_none (t := t) (by rw [hk]; decide), hk]
    rw [bind_of_ok (take_cons hr)]
    rfl
  | @grouping left right us e hl hus hright =>
    simp only [List.append_assoc, List.cons_append, List.nil_append] at hr
    rw [hr, List.length_cons] at hn
    have hinner := hc hus (s := s.after (us ++ right :: rest)) rfl (Nat.le_of_succ_le_succ hn)
      (stops_of_terminator (.inr (.inl hright))) (by rw [Reading.ahead_after_cons, hright]; decide)
    rw [bind_of_ok (peek_apply s), s.ahead_of_rest hr]
    simp only [literal_eq_none (t := left) (by rw [hl]; decide), hl]
    rw [bind_of_ok (take_cons hr), bind_of_ok hinner, bind_of_ok (expect_cons _ rfl hright)]
    rfl

theorem complete_argumentSequence : ∀ {ts : List Token} {es : List Expr}, ArgumentSequence ts es →
    ∀ (m count : Nat) {s : Reading}, s.rest = ts ++ rest → s.rest.length ≤ n → s.rest.length ≤ m →
      count + es.length ≤ maxEntries → (s.after rest).ahead.kind = .rightParen →
      arguments expression m count s = .ok es (s.after rest)
  | _, _, @ArgumentSequence.one ts e h, m, count, s, hr, hn, hm, hlen, hstop => by
    have hpos := h.starts.length_pos
    rw [hr, List.length_append] at hm
    obtain ⟨m, rfl⟩ : ∃ k, m = k + 1 := ⟨m - 1, by omega⟩
    have hcount : count < arityLimit := hlen
    have hfirst := hc h hr hn (stops_of_terminator (.inr (.inl hstop))) (by rw [hstop]; decide)
    have hcomma : skip .comma (s.after rest) = .ok false (s.after rest) :=
      skip_of_ne (by rw [hstop]; decide)
    rw [arguments_succ, bind_of_ok (limit_of_lt hcount), bind_of_ok hfirst, bind_of_ok hcomma,
      if_neg Bool.false_ne_true]
    rfl
  | _, _, @ArgumentSequence.cons ts us e es comma h hk hus, m, count, s, hr, hn, hm, hlen,
      hstop => by
    rw [List.append_assoc, List.cons_append] at hr
    have hlen' : s.rest.length = ts.length + ((us ++ rest).length + 1) := by
      rw [hr, List.length_append, List.length_cons]
    obtain ⟨m, rfl⟩ : ∃ k, m = k + 1 := ⟨m - 1, by omega⟩
    have hcount : count < arityLimit := by
      rw [List.length_cons, maxEntries] at hlen
      rw [arityLimit]
      omega
    have hfirst := hc h hr hn (stops_of_terminator (.inr (.inr (.inl hk))))
      (by rw [Reading.ahead_after_cons, hk]; decide)
    have hothers := complete_argumentSequence hus m (count + 1) (s := s.after (us ++ rest)) rfl
      (by rw [Reading.rest_after]; omega) (by rw [Reading.rest_after]; omega)
      (by rw [List.length_cons] at hlen; omega) hstop
    rw [arguments_succ, bind_of_ok (limit_of_lt hcount), bind_of_ok hfirst, bind_of_ok (skip_cons rfl hk),
      if_pos rfl, Reading.after_after, bind_of_ok hothers]
    rfl

theorem complete_argumentList (bound : Nat) {es : List Expr} (h : Arguments ts es)
    (hr : s.rest = ts ++ rest) (hn : s.rest.length ≤ n) (hb : s.rest.length ≤ bound)
    (hstop : (s.after rest).ahead.kind = .rightParen) :
    argumentList bound expression s = .ok es (s.after rest) := by
  unfold argumentList
  rw [bind_of_ok (peek_apply s)]
  cases h with
  | empty =>
    have hs : s.after rest = s := by rw [← List.nil_append rest, ← hr]; rfl
    rw [hs] at hstop ⊢
    rw [if_pos hstop]
    rfl
  | some h hlen =>
    have hne : s.ahead.kind ≠ .rightParen := by
      obtain ⟨t, us, rfl, hk⟩ := h.starts
      rw [s.ahead_of_rest hr]
      exact ne_of_mem_of_not_mem hk (by decide)
    rw [if_neg hne]
    exact complete_argumentSequence hc h bound 0 hr hn hb (by omega) hstop

/-- A callee is read up to where the loop over argument lists goes on from it. -/
theorem calls_from (bound : Nat) : ∀ {ts : List Token} {e : Expr}, Call ts e →
    ∀ (m : Nat) {s : Reading} {rest : List Token}, s.rest = ts ++ rest → s.rest.length ≤ n + 1 →
      n ≤ bound → s.rest.length ≤ m → ∃ m', rest.length ≤ m' ∧
        (primary expression >>= calls bound expression m) s =
          calls bound expression m' e (s.after rest)
  | ts, _, .primary h, m, s, rest, hr, hn, _, hm => by
    refine ⟨m, ?_, bind_of_ok (complete_primary hc h hr hn)⟩
    rw [hr, List.length_append] at hm
    omega
  | _, _, @Call.call ts us f es left right hf hl hus hright, m, s, rest, hr, hn, hb, hm => by
    simp only [List.append_assoc, List.cons_append, List.nil_append] at hr
    have hpos := hf.starts.length_pos
    have hlen : s.rest.length = ts.length + ((us ++ right :: rest).length + 1) := by
      rw [hr, List.length_append, List.length_cons]
    obtain ⟨m', hm', heq⟩ := calls_from bound hf m hr hn hb hm
    obtain ⟨k, rfl⟩ : ∃ k, m' = k + 1 := ⟨m' - 1, by rw [List.length_cons] at hm'; omega⟩
    have hargs := complete_argumentList hc bound hus (s := s.after (us ++ right :: rest)) rfl
      (by rw [Reading.rest_after]; omega) (by rw [Reading.rest_after]; omega) hright
    refine ⟨k, ?_, ?_⟩
    · simp only [List.length_cons, List.length_append] at hm'
      omega
    · rw [heq, calls_succ, bind_of_ok (skip_cons rfl hl), if_pos rfl, Reading.after_after,
        bind_of_ok hargs, bind_of_ok (expect_cons _ rfl hright)]
      rfl

theorem complete_unary (bound : Nat) : ∀ {ts : List Token} {e : Expr}, Unary ts e →
    ∀ (m : Nat) {s : Reading}, s.rest = ts ++ rest → s.rest.length ≤ n + 1 → n + 1 ≤ bound →
      s.rest.length ≤ m → (s.after rest).ahead.kind ≠ .leftParen →
      unary bound expression m s = .ok e (s.after rest)
  | _, _, @Unary.operator t ts e hk h, m, s, hr, hn, hb, hm, hstop => by
    rw [List.cons_append] at hr
    rw [hr, List.length_cons] at hn hm
    obtain ⟨m, rfl⟩ : ∃ k, m = k + 1 := ⟨m - 1, by omega⟩
    have hinner := complete_unary bound h m (s := s.after (ts ++ rest)) rfl
      (by rw [Reading.rest_after]; omega) hb (by rw [Reading.rest_after]; omega) hstop
    rw [unary_succ, bind_of_ok (peek_apply s), s.ahead_of_rest hr, if_pos hk, bind_of_ok (take_cons hr),
      bind_of_ok hinner]
    rfl
  | ts, e, .call h, m, s, hr, hn, hb, hm, hstop => by
    have hpos := h.starts.length_pos
    have hlen : s.rest.length = ts.length + rest.length := by rw [hr, List.length_append]
    obtain ⟨m, rfl⟩ : ∃ k, m = k + 1 := ⟨m - 1, by omega⟩
    have hop : ¬(s.ahead.kind = .bang ∨ s.ahead.kind = .minus) := by
      obtain ⟨t, us, rfl, hk⟩ := h.starts
      rw [s.ahead_of_rest hr]
      rintro (h | h) <;> rw [h] at hk <;> exact absurd hk (by decide)
    obtain ⟨m', _, heq⟩ := calls_from hc bound h bound hr hn (by omega) (by omega)
    rw [unary_succ, bind_of_ok (peek_apply s), if_neg hop, heq]
    exact calls_stop expression bound m' e hstop

end Expressions

/-! Levels of operators.  The operands of a level are read by the parser of the tighter levels, so
what stops an operand is the operator of a looser level. -/

section Levels

variable {operand : Parser Expr} {bound : Nat}

/-- What is asked of the parser for operands. -/
def CompleteUnary (n : Nat) (operand : Parser Expr) : Prop :=
  ∀ {ts e}, Unary ts e → ∀ {s rest}, s.rest = ts ++ rest → s.rest.length ≤ n →
    (s.after rest).ahead.kind ≠ .leftParen → operand s = .ok e (s.after rest)

theorem operations_stop {level : Level} (m : Nat) (e : Expr)
    (hstop : s.ahead.kind ∉ level.operators) :
    operations level operand m e s = .ok e s := by
  cases m with
  | zero => rfl
  | succ m =>
    rw [operations_succ, bind_of_ok (peek_apply s), if_neg (by simpa using hstop)]
    rfl

/-- No operator belongs to two levels. -/
theorem level_eq_of_mem_operators {k : Kind} {level level' : Level} (h : k ∈ level.operators)
    (h' : k ∈ level'.operators) : level = level' := by
  have hall : ∀ level : Level, level ∈ Level.all := by
    intro level
    cases level <;> decide
  have hdisjoint : ∀ l ∈ Level.all, ∀ l' ∈ Level.all, ∀ k ∈ l.operators, k ∈ l'.operators →
      l = l' := by decide
  exact hdisjoint level (hall level) level' (hall level') k h h'

theorem stops_of_mem_operators {k : Kind} {level : Level} {levels : List Level}
    (h : k ∈ level.operators) (hl : level ∉ levels) : Stops levels k := by
  constructor
  · rintro rfl
    cases level <;> exact absurd h (by decide)
  · intro level' hmem h'
    rw [level_eq_of_mem_operators h h'] at hl
    exact hl hmem

/-- How far operators of the given levels are read when nothing is known of the operators of the
loosest of them behind: up to where its loop goes on. -/
def ReadUpTo (bound : Nat) (operand : Parser Expr) (s : Reading) (e : Expr) (rest : List Token) :
    List Level → Prop
  | [] => (s.after rest).ahead.kind ≠ .leftParen → operand s = .ok e (s.after rest)
  | level :: levels =>
    Stops levels (s.after rest).ahead.kind → ∀ m, s.rest.length ≤ m → ∃ m', rest.length ≤ m' ∧
      (operators bound operand levels >>= operations level (operators bound operand levels) m) s =
        operations level (operators bound operand levels) m' e (s.after rest)

theorem operators_of_readUpTo {levels : List Level} (h : ReadUpTo bound operand s e rest levels)
    (hb : s.rest.length ≤ bound) (hstop : Stops levels (s.after rest).ahead.kind) :
    operators bound operand levels s = .ok e (s.after rest) := by
  cases levels with
  | nil =>
    unfold operators
    exact h hstop.1
  | cons level levels =>
    unfold operators
    have htail : Stops levels (s.after rest).ahead.kind :=
      ⟨hstop.1, fun l hl => hstop.2 l (List.mem_cons_of_mem level hl)⟩
    obtain ⟨m', _, heq⟩ := h htail bound hb
    refine heq.trans (operations_stop m' e (hstop.2 level List.mem_cons_self))

theorem readUpTo (ho : CompleteUnary n operand) (hb : n ≤ bound) : ∀ {levels : List Level}
    {ts : List Token} {e : Expr}, Operators levels ts e → levels.Nodup →
    ∀ {s : Reading} {rest : List Token}, s.rest = ts ++ rest → s.rest.length ≤ n →
      ReadUpTo bound operand s e rest levels
  | _, _, _, .operand h, _, s, rest, hr, hn => ho h hr hn
  | _, ts, _, .tighter h, hl, s, rest, hr, hn => by
    intro hstop m hm
    have hleft := operators_of_readUpTo (readUpTo ho hb h (List.nodup_cons.1 hl).2 hr hn)
      (Nat.le_trans hn hb) hstop
    refine ⟨m, ?_, bind_of_ok hleft⟩
    rw [hr, List.length_append] at hm
    omega
  | _, _, _, @Operators.operation level levels ts us l r t hts ht hus, hl, s, rest, hr, hn => by
    intro hstop m hm
    rw [List.append_assoc, List.cons_append] at hr
    have hlen : s.rest.length = ts.length + ((us ++ rest).length + 1) := by
      rw [hr, List.length_append, List.length_cons]
    have hlevel := (List.nodup_cons.1 hl).1
    obtain ⟨m', hm', heq⟩ :=
      readUpTo ho hb hts hl hr hn (stops_of_mem_operators ht hlevel) m hm
    obtain ⟨k, rfl⟩ : ∃ k, m' = k + 1 := ⟨m' - 1, by rw [List.length_cons] at hm'; omega⟩
    have hright := operators_of_readUpTo (s := s.after (us ++ rest))
      (readUpTo ho hb hus (List.nodup_cons.1 hl).2 rfl (by rw [Reading.rest_after]; omega))
      (by rw [Reading.rest_after]; omega) hstop
    refine ⟨k, ?_, ?_⟩
    · rw [List.length_cons, List.length_append] at hm'
      omega
    · rw [heq, operations_succ, bind_of_ok (peek_apply _), Reading.ahead_after_cons,
        if_pos (List.contains_iff_mem.2 ht), bind_of_ok (take_cons rfl), Reading.after_after,
        bind_of_ok hright]
      rfl

end Levels

theorem complete_assignment (n : Nat) : CompleteExpression n (assignment n) := by
  induction n with
  | zero =>
    intro ts e h s rest hr hn
    have hpos := h.starts.length_pos
    rw [hr, List.length_append] at hn
    omega
  | succ n ih =>
    intro ts e h s rest hr hn hstop heq
    have hu : CompleteUnary (n + 1) (unary (n + 1) (assignment n) (n + 1)) :=
      fun h s rest hr hn hstop => complete_unary ih (n + 1) h (n + 1) hr hn (Nat.le_refl _) hn hstop
    have ho {ts e} (h : Operators Level.all ts e) {rest} (hr : s.rest = ts ++ rest)
        (hstop : Stops Level.all (s.after rest).ahead.kind) :=
      operators_of_readUpTo (readUpTo hu (Nat.le_refl _) h (by decide) hr hn) hn hstop
    unfold assignment
    cases h with
    | @assign x equal ts e hx hequal h =>
      have htarget : Operators Level.all [x] (.variable x) :=
        .tighter (.tighter (.tighter (.tighter (.tighter (.tighter (.operand (.call
          (.primary (.variable hx)))))))))
      rw [List.cons_append, List.cons_append] at hr
      rw [hr, List.length_cons, List.length_cons] at hn
      have hvalue := ih h (s := s.after (ts ++ rest)) rfl (by rw [Reading.rest_after]; omega)
        hstop heq
      rw [bind_of_ok (ho htarget hr (stops_of_terminator (.inr (.inr (.inr hequal))))),
        bind_of_ok (peek_apply _), Reading.ahead_after_cons, if_pos hequal,
        bind_of_ok (take_cons rfl), Reading.after_after, bind_of_ok hvalue]
      rfl
    | operators h =>
      rw [bind_of_ok (ho h hr hstop), bind_of_ok (peek_apply _), if_neg heq]
      rfl

/-! ## Parts of statements -/

theorem complete_expression {k : Kind} (h : Assignment ts e) (hr : s.rest = ts ++ rest)
    (hn : s.rest.length ≤ n) (hstop : (s.after rest).ahead.kind = k)
    (hk : k = .semicolon ∨ k = .rightParen) : assignment n s = .ok e (s.after rest) := by
  refine complete_assignment n h hr hn (stops_of_terminator ?_) ?_
  · rw [hstop]
    exact hk.imp_right .inl
  · rw [hstop]
    rcases hk with rfl | rfl <;> decide

theorem rest_eq_of_nil (hr : s.rest = [] ++ rest) : s.after rest = s := by
  rw [← List.nil_append rest, ← hr]
  rfl

theorem ne_of_starts {kinds : List Kind} (h : StartsWith kinds ts) (hr : s.rest = ts ++ rest)
    {k : Kind} (hk : k ∉ kinds) : s.ahead.kind ≠ k := by
  obtain ⟨t, us, rfl, ht⟩ := h
  rw [s.ahead_of_rest hr]
  exact ne_of_mem_of_not_mem ht hk

theorem complete_optional {k : Kind} {o : Option Expr} (h : Grammar.Optional ts o)
    (hr : s.rest = ts ++ rest) (hn : s.rest.length ≤ n) (hstop : (s.after rest).ahead.kind = k)
    (hk : k = .semicolon ∨ k = .rightParen) :
    (if s.ahead.kind = k then pure none else some <$> assignment n : Parser (Option Expr)) s =
      .ok o (s.after rest) := by
  cases h with
  | none =>
    rw [rest_eq_of_nil hr] at hstop ⊢
    rw [if_pos hstop]
    rfl
  | some h =>
    rw [if_neg (ne_of_starts h.starts hr (by rcases hk with rfl | rfl <;> decide))]
    exact map_of_ok (complete_expression h hr hn hstop hk)

theorem complete_condition {o : Option Expr} (h : Grammar.Optional ts o)
    (hr : s.rest = ts ++ rest) (hn : s.rest.length ≤ n)
    (hstop : (s.after rest).ahead.kind = .semicolon) :
    (if s.ahead.kind = .semicolon then pure (.literal (.bool true)) else assignment n :
      Parser Expr) s = .ok (o.getD (.literal (.bool true))) (s.after rest) := by
  cases h with
  | none =>
    rw [rest_eq_of_nil hr] at hstop ⊢
    rw [if_pos hstop]
    rfl
  | some h =>
    rw [if_neg (ne_of_starts h.starts hr (by decide))]
    exact complete_expression h hr hn hstop (.inl rfl)

theorem complete_expressionStatement {st : Stmt} (h : ExpressionStatement ts st)
    (hr : s.rest = ts ++ rest) (hn : s.rest.length ≤ n) :
    expressionStatement n s = .ok st (s.after rest) := by
  cases h with
  | mk h hk =>
    rw [List.append_assoc] at hr
    unfold expressionStatement
    rw [bind_of_ok (complete_expression h hr hn hk (.inl rfl)), bind_of_ok (expect_cons _ rfl hk)]
    rfl

theorem complete_variableDeclaration {st : Stmt} (h : VariableDeclaration ts st)
    (hr : s.rest = ts ++ rest) (hn : s.rest.length ≤ n) :
    (take >>= fun _ => variableDeclaration n) s = .ok st (s.after rest) := by
  cases h with
  | bare _ hx hk =>
    simp only [List.cons_append, List.nil_append] at hr
    rw [bind_of_ok (take_cons hr), variableDeclaration_eq,
      bind_of_ok (expect_cons .variableName rfl hx), Reading.after_after,
      bind_of_ok (skip_of_ne (by rw [Reading.ahead_after_cons, hk]; decide)),
      if_neg Bool.false_ne_true, bind_of_ok (pure_apply none _),
      bind_of_ok (expect_cons .afterVariable rfl hk)]
    rfl
  | @initialized _ x equal semicolon ts e _ hx hequal h hk =>
    simp only [List.append_assoc, List.cons_append, List.nil_append] at hr
    rw [hr, List.length_cons, List.length_cons, List.length_cons] at hn
    have hvalue := complete_expression h (s := s.after (ts ++ semicolon :: rest)) (n := n) rfl
      (by rw [Reading.rest_after]; omega) hk (.inl rfl)
    rw [bind_of_ok (take_cons hr), variableDeclaration_eq,
      bind_of_ok (expect_cons .variableName rfl hx), Reading.after_after,
      bind_of_ok (skip_cons rfl hequal), if_pos rfl, Reading.after_after,
      bind_of_ok (map_of_ok hvalue), bind_of_ok (expect_cons .afterVariable rfl hk)]
    rfl

theorem complete_initializer {i : Option Stmt} (h : Initializer ts i) (hr : s.rest = ts ++ rest)
    (hn : s.rest.length ≤ n) : initializer n s = .ok i (s.after rest) := by
  unfold initializer
  rw [bind_of_ok (peek_apply s)]
  cases h with
  | none hk =>
    rw [s.ahead_of_rest hr, hk]
    exact bind_of_ok (take_cons hr)
  | «variable» h =>
    have hd := complete_variableDeclaration h hr hn
    obtain ⟨t, us, rfl, ht⟩ := h.starts
    rw [List.mem_singleton] at ht
    rw [s.ahead_of_rest hr, ht]
    rw [bind_of_ok (take_cons hr)] at hd
    exact (bind_of_ok (take_cons hr)).trans (map_of_ok hd)
  | expression h =>
    have hsemi := ne_of_starts h.starts hr (k := .semicolon) (by decide)
    have hvar := ne_of_starts h.starts hr (k := .kwVar) (by decide)
    show Gives _ _ _ _
    split
    · next hk => exact absurd hk hsemi
    · next hk => exact absurd hk hvar
    · exact map_of_ok (complete_expressionStatement h hr hn)

theorem complete_parameterSequence {xs : List Token} (h : ParameterSequence ts xs) (m count : Nat)
    (hr : s.rest = ts ++ rest) (hm : s.rest.length ≤ m) (hlen : count + xs.length ≤ maxEntries)
    (hstop : (s.after rest).ahead.kind = .rightParen) :
    parameters m count s = .ok xs (s.after rest) := by
  induction h generalizing s m count with
  | one hx =>
    simp only [List.cons_append, List.nil_append] at hr
    rw [hr, List.length_cons] at hm
    obtain ⟨m, rfl⟩ : ∃ k, m = k + 1 := ⟨m - 1, by omega⟩
    have hcount : count < arityLimit := hlen
    unfold parameters
    rw [bind_of_ok (limit_of_lt hcount), bind_of_ok (expect_cons .parameterName hr hx),
      bind_of_ok (skip_of_ne (by rw [hstop]; decide)), if_neg Bool.false_ne_true]
    rfl
  | @cons x comma ts xs hx hk _ ih =>
    simp only [List.cons_append] at hr
    rw [hr, List.length_cons, List.length_cons] at hm
    rw [List.length_cons] at hlen
    obtain ⟨m, rfl⟩ : ∃ k, m = k + 1 := ⟨m - 1, by omega⟩
    have hcount : count < arityLimit := by
      rw [maxEntries] at hlen
      rw [arityLimit]
      omega
    have hothers := ih m (count + 1) (s := s.after (ts ++ rest)) rfl
      (by rw [Reading.rest_after]; omega) (by omega) hstop
    unfold parameters
    rw [bind_of_ok (limit_of_lt hcount), bind_of_ok (expect_cons .parameterName hr hx),
      bind_of_ok (skip_cons rfl hk), if_pos rfl, Reading.after_after, bind_of_ok hothers]
    rfl

theorem complete_parameterList {xs : List Token} (h : Parameters ts xs) (hr : s.rest = ts ++ rest)
    (hn : s.rest.length ≤ n) (hstop : (s.after rest).ahead.kind = .rightParen) :
    parameterList n s = .ok xs (s.after rest) := by
  unfold parameterList
  rw [bind_of_ok (peek_apply s)]
  cases h with
  | empty =>
    rw [rest_eq_of_nil hr] at hstop ⊢
    rw [if_pos hstop]
    rfl
  | some h hlen =>
    have hne : s.ahead.kind ≠ .rightParen := by
      cases h with
      | one hx => rw [s.ahead_of_rest hr, hx]; decide
      | cons hx _ _ => rw [s.ahead_of_rest hr, hx]; decide
    rw [if_neg hne]
    exact complete_parameterSequence h n 0 hr hn (by omega) hstop

/-! ## Statements -/

/-- What is asked of the parser for statements. -/
def CompleteStatement (n : Nat) (p : Parser Stmt) : Prop :=
  ∀ {inside a ts st}, Statement nearestIf inside a ts st → ∀ {s rest}, s.rest = ts ++ rest →
    s.rest.length ≤ n → (inside = true → s.inside = true) →
    (a = .dangling → (s.after rest).ahead.kind ≠ .kwElse) → p s = .ok st (s.after rest)

/-- What is asked of the parser for declarations. -/
def CompleteDeclaration (n : Nat) (p : Parser (Option Stmt)) : Prop :=
  ∀ {inside ts st}, Grammar.Declaration nearestIf inside ts st → ∀ {s rest}, s.rest = ts ++ rest →
    s.rest.length ≤ n → (inside = true → s.inside = true) →
    (s.after rest).ahead.kind ≠ .kwElse → p s = .ok (some st) (s.after rest)

theorem recovering_of_ok {p : Parser Stmt} {st : Stmt} {s' : Reading} (h : p s = .ok st s') :
    recovering p s = .ok (some st) s' := by
  unfold recovering
  rw [h]

theorem ne_else_of_declarations {ends : Kind → Bool}
    (hends : ∀ k, ends k = true → k = .rightBrace ∨ k = .eof) {inside : Bool} {ss : List Stmt}
    (hs : Declarations nearestIf inside ts ss) (hstop : ends (s.after rest).ahead.kind = true) :
    (s.after (ts ++ rest)).ahead.kind ≠ .kwElse := by
  cases hs with
  | nil =>
    intro hk
    rcases hends _ hstop with h | h <;> exact absurd (h.symm.trans hk) (by decide)
  | cons h _ =>
    rw [List.append_assoc]
    exact ne_of_starts h.starts rfl (by decide)

section Declarations

variable {declaration : Parser (Option Stmt)} (hd : CompleteDeclaration n declaration)
  {inside : Bool}
include hd

theorem complete_declarations {ends : Kind → Bool}
    (hends : ∀ k, ends k = true → k = .rightBrace ∨ k = .eof) :
    ∀ {ts : List Token} {ss : List Stmt}, Declarations nearestIf inside ts ss →
      ∀ (m : Nat) {s : Reading}, s.rest = ts ++ rest → s.rest.length ≤ n → s.rest.length ≤ m →
        (inside = true → s.inside = true) → ends (s.after rest).ahead.kind = true →
        declarations ends declaration m s = .ok ss (s.after rest)
  | _, _, .nil, m, s, hr, _, _, _, hstop => by
    rw [rest_eq_of_nil hr] at hstop ⊢
    cases m with
    | zero => rfl
    | succ m =>
      rw [declarations_succ, bind_of_ok (peek_apply s), if_pos hstop]
      rfl
  | _, _, @Declarations.cons _ _ ts us st ss h hs, m, s, hr, hn, hm, hin, hstop => by
    have hpos := h.starts.length_pos
    rw [List.append_assoc] at hr
    have hlen : s.rest.length = ts.length + (us ++ rest).length := by rw [hr, List.length_append]
    obtain ⟨m, rfl⟩ : ∃ k, m = k + 1 := ⟨m - 1, by omega⟩
    have hgo : ¬ends s.ahead.kind = true := fun he => by
      rcases hends _ he with hk | hk
      · exact ne_of_starts h.starts hr (by decide) hk
      · exact ne_of_starts h.starts hr (by decide) hk
    have hfirst := hd h hr hn hin (ne_else_of_declarations hends hs hstop)
    have hothers := complete_declarations hends hs m (s := s.after (us ++ rest)) rfl
      (by rw [Reading.rest_after]; omega) (by rw [Reading.rest_after]; omega) hin hstop
    rw [declarations_succ, bind_of_ok (peek_apply s), if_neg hgo, bind_of_ok hfirst, bind_of_ok hothers]
    rfl

theorem complete_block {ts : List Token} {ss : List Stmt} {right : Token}
    (h : Declarations nearestIf inside ts ss) (hright : right.kind = .rightBrace) (bound : Nat)
    (hr : s.rest = ts ++ right :: rest) (hn : s.rest.length ≤ n) (hb : s.rest.length ≤ bound)
    (hin : inside = true → s.inside = true) :
    block bound declaration s = .ok ss (s.after rest) := by
  have hends : ∀ k : Kind, (k == .rightBrace || k == .eof) = true → k = .rightBrace ∨ k = .eof := by
    intro k hk
    simpa using hk
  have hbody := complete_declarations hd hends h bound hr hn hb hin
    (by rw [Reading.ahead_after_cons, hright]; rfl)
  unfold block
  rw [bind_of_ok hbody, bind_of_ok (expect_cons .afterBlock rfl hright)]
  rfl

theorem complete_function {ts : List Token} {ss : List Stmt} {right : Token}
    (h : Declarations nearestIf true ts ss) (hright : right.kind = .rightBrace) (bound : Nat)
    (hr : s.rest = ts ++ right :: rest) (hn : s.rest.length ≤ n) (hb : s.rest.length ≤ bound) :
    insideFunction (block bound declaration) s = .ok ss (s.after rest) := by
  have hbody := complete_block hd h hright bound (s := { s with depth := s.depth + 1 }) hr hn hb
    fun _ => rfl
  unfold insideFunction
  rw [hbody]
  rfl

end Declarations

theorem complete_print {keyword semicolon : Token} (h : Assignment ts e)
    (hsemi : semicolon.kind = .semicolon) (hr : s.rest = ts ++ semicolon :: rest)
    (hn : s.rest.length ≤ n) : print n keyword s = .ok (.print keyword e) (s.after rest) := by
  unfold print
  rw [bind_of_ok (complete_expression h hr hn hsemi (.inl rfl)),
    bind_of_ok (expect_cons .afterPrintedValue rfl hsemi)]
  rfl

theorem complete_ret {keyword semicolon : Token} {o : Option Expr} (h : Grammar.Optional ts o)
    (hsemi : semicolon.kind = .semicolon) (hr : s.rest = ts ++ semicolon :: rest)
    (hn : s.rest.length ≤ n) (hin : s.inside = true) :
    ret n keyword s = .ok (.ret keyword o) (s.after rest) := by
  have hcheck : checkReturn keyword s = .ok () s := by
    have hdepth : s.depth ≠ 0 := by simpa [Reading.inside] using hin
    show (if s.depth = 0 then report keyword .topLevelReturn else pure () : Parser Unit) s = _
    rw [if_neg hdepth]
    rfl
  rw [ret_eq, bind_of_ok hcheck, bind_of_ok (peek_apply _),
    bind_of_ok (complete_optional h hr hn hsemi (.inl rfl)),
    bind_of_ok (expect_cons .afterReturnValue rfl hsemi)]
  rfl

section Nested

variable {statement : Parser Stmt} (hst : CompleteStatement n statement) {inside : Bool}
  {a b : Ending} {us vs : List Token} {left right : Token} {c : Expr} {st st' : Stmt}
include hst

theorem complete_branch (hl : left.kind = .leftParen) (hc : Assignment ts c)
    (hright : right.kind = .rightParen) (h : Statement nearestIf inside a us st)
    (hr : s.rest = left :: (ts ++ right :: (us ++ rest))) (hn : s.rest.length ≤ n)
    (hin : inside = true → s.inside = true) (helse : (s.after rest).ahead.kind ≠ .kwElse) :
    branch (n + 1) statement s = .ok (.branch c st none) (s.after rest) := by
  rw [hr, List.length_cons] at hn
  have hcond := complete_expression hc (s := s.after (ts ++ right :: (us ++ rest))) (n := n + 1)
    rfl (by rw [Reading.rest_after]; omega) hright (.inr rfl)
  rw [List.length_append, List.length_cons] at hn
  have htrue := hst h (s := s.after (us ++ rest)) rfl (by rw [Reading.rest_after]; omega) hin
    fun _ => helse
  rw [branch_eq, bind_of_ok (expect_cons .beforeIfCondition hr hl), bind_of_ok hcond,
    bind_of_ok (expect_cons .afterIfCondition rfl hright), Reading.after_after,
    Reading.after_after, bind_of_ok htrue, Reading.after_after, bind_of_ok (skip_of_ne helse),
    if_neg Bool.false_ne_true]
  rfl

theorem complete_branchElse {separator : Token} (hl : left.kind = .leftParen)
    (hc : Assignment ts c) (hright : right.kind = .rightParen)
    (h : Statement nearestIf inside a us st) (hclosed : nearestIf a)
    (hsep : separator.kind = .kwElse) (h' : Statement nearestIf inside b vs st')
    (hr : s.rest = left :: (ts ++ right :: (us ++ separator :: (vs ++ rest))))
    (hn : s.rest.length ≤ n) (hin : inside = true → s.inside = true)
    (helse : b = .dangling → (s.after rest).ahead.kind ≠ .kwElse) :
    branch (n + 1) statement s = .ok (.branch c st (some st')) (s.after rest) := by
  rw [hr, List.length_cons] at hn
  have hcond := complete_expression hc (n := n + 1) rfl
    (s := s.after (ts ++ right :: (us ++ separator :: (vs ++ rest))))
    (by rw [Reading.rest_after]; omega) hright (.inr rfl)
  rw [List.length_append, List.length_cons] at hn
  have htrue := hst h (s := s.after (us ++ separator :: (vs ++ rest))) rfl
    (by rw [Reading.rest_after]; omega) hin fun ha => absurd (ha.symm.trans hclosed) (by decide)
  rw [List.length_append, List.length_cons] at hn
  have hfalse := hst h' (s := s.after (vs ++ rest)) rfl (by rw [Reading.rest_after]; omega) hin
    helse
  rw [branch_eq, bind_of_ok (expect_cons .beforeIfCondition hr hl), bind_of_ok hcond,
    bind_of_ok (expect_cons .afterIfCondition rfl hright), Reading.after_after,
    Reading.after_after, bind_of_ok htrue, bind_of_ok (skip_cons rfl hsep), if_pos rfl,
    Reading.after_after, Reading.after_after, bind_of_ok (map_of_ok hfalse)]
  rfl

theorem complete_whileLoop (hl : left.kind = .leftParen) (hc : Assignment ts c)
    (hright : right.kind = .rightParen) (h : Statement nearestIf inside a us st)
    (hr : s.rest = left :: (ts ++ right :: (us ++ rest))) (hn : s.rest.length ≤ n)
    (hin : inside = true → s.inside = true)
    (helse : a = .dangling → (s.after rest).ahead.kind ≠ .kwElse) :
    whileLoop (n + 1) statement s = .ok (.loop c st) (s.after rest) := by
  rw [hr, List.length_cons] at hn
  have hcond := complete_expression hc (s := s.after (ts ++ right :: (us ++ rest))) (n := n + 1)
    rfl (by rw [Reading.rest_after]; omega) hright (.inr rfl)
  rw [List.length_append, List.length_cons] at hn
  have hbody := hst h (s := s.after (us ++ rest)) rfl (by rw [Reading.rest_after]; omega) hin helse
  unfold whileLoop
  rw [bind_of_ok (expect_cons .beforeWhileCondition hr hl), bind_of_ok hcond,
    bind_of_ok (expect_cons .afterWhileCondition rfl hright), Reading.after_after,
    Reading.after_after, bind_of_ok hbody]
  rfl

theorem complete_forLoop {semicolon : Token} {is cs ns : List Token} {i : Option Stmt}
    {o increment : Option Expr} (hl : left.kind = .leftParen) (hi : Initializer is i)
    (hc : Grammar.Optional cs o) (hsemi : semicolon.kind = .semicolon)
    (hinc : Grammar.Optional ns increment) (hright : right.kind = .rightParen)
    (h : Statement nearestIf inside a us st)
    (hr : s.rest = left :: (is ++ (cs ++ semicolon :: (ns ++ right :: (us ++ rest)))))
    (hn : s.rest.length ≤ n) (hin : inside = true → s.inside = true)
    (helse : a = .dangling → (s.after rest).ahead.kind ≠ .kwElse) :
    forLoop (n + 1) statement s =
      .ok (.forLoop i (o.getD (.literal (.bool true))) increment st) (s.after rest) := by
  rw [hr, List.length_cons] at hn
  have hfirst := complete_initializer hi (n := n + 1) rfl
    (s := s.after (is ++ (cs ++ semicolon :: (ns ++ right :: (us ++ rest)))))
    (by rw [Reading.rest_after]; omega)
  rw [List.length_append] at hn
  have hcond := complete_condition hc (n := n + 1) rfl
    (s := s.after (cs ++ semicolon :: (ns ++ right :: (us ++ rest))))
    (by rw [Reading.rest_after]; omega) hsemi
  rw [List.length_append, List.length_cons] at hn
  have hstep := complete_optional hinc (n := n + 1) (s := s.after (ns ++ right :: (us ++ rest))) rfl
    (by rw [Reading.rest_after]; omega) hright (.inr rfl)
  rw [List.length_append, List.length_cons] at hn
  have hbody := hst h (s := s.after (us ++ rest)) rfl (by rw [Reading.rest_after]; omega) hin helse
  rw [forLoop_eq, bind_of_ok (expect_cons .beforeForClauses hr hl), bind_of_ok hfirst,
    bind_of_ok (peek_apply _), Reading.after_after, bind_of_ok hcond,
    bind_of_ok (expect_cons .afterLoopCondition rfl hsemi), bind_of_ok (peek_apply _),
    Reading.after_after, Reading.after_after, bind_of_ok hstep,
    bind_of_ok (expect_cons .afterForClauses rfl hright), Reading.after_after,
    Reading.after_after, bind_of_ok hbody]
  rfl

end Nested

section Whole

variable {statement : Parser Stmt} {declaration : Parser (Option Stmt)}
  (hst : CompleteStatement n statement) (hd : CompleteDeclaration n declaration) {inside : Bool}
  {a : Ending} {st : Stmt}
include hst hd

theorem complete_statementOf (h : Statement nearestIf inside a ts st) (hr : s.rest = ts ++ rest)
    (hn : s.rest.length ≤ n + 1) (hin : inside = true → s.inside = true)
    (helse : a = .dangling → (s.after rest).ahead.kind ≠ .kwElse) :
    statementOf (n + 1) statement declaration s = .ok st (s.after rest) := by
  unfold statementOf
  rw [bind_of_ok (peek_apply s)]
  cases h with
  | expression h =>
    show Gives _ _ _ _
    split
    · next hk => exact absurd hk (ne_of_starts h.starts hr (by decide))
    · next hk => exact absurd hk (ne_of_starts h.starts hr (by decide))
    · next hk => exact absurd hk (ne_of_starts h.starts hr (by decide))
    · next hk => exact absurd hk (ne_of_starts h.starts hr (by decide))
    · next hk => exact absurd hk (ne_of_starts h.starts hr (by decide))
    · next hk => exact absurd hk (ne_of_starts h.starts hr (by decide))
    · exact complete_expressionStatement h hr hn
  | @print _ keyword semicolon ts e hk h hsemi =>
    simp only [List.append_assoc, List.cons_append, List.nil_append] at hr
    rw [hr, List.length_cons] at hn
    rw [s.ahead_of_rest hr, hk]
    exact (bind_of_ok (take_cons hr)).trans
      (complete_print h hsemi rfl (by rw [Reading.rest_after]; omega))
  | @ret keyword semicolon ts o hk h hsemi =>
    simp only [List.append_assoc, List.cons_append, List.nil_append] at hr
    rw [hr, List.length_cons] at hn
    rw [s.ahead_of_rest hr, hk]
    exact (bind_of_ok (take_cons hr)).trans
      (complete_ret h hsemi rfl (by rw [Reading.rest_after]; omega) (hin rfl))
  | @block _ left right ts ss hk h hright =>
    simp only [List.append_assoc, List.cons_append, List.nil_append] at hr
    rw [hr, List.length_cons] at hn
    rw [s.ahead_of_rest hr, hk]
    have hbody := complete_block hd h hright (n + 1) (s := s.after (ts ++ right :: rest)) rfl
      (by rw [Reading.rest_after]; omega) (by rw [Reading.rest_after]; omega) hin
    exact (bind_of_ok (take_cons hr)).trans (bind_of_ok hbody)
  | branch hk hl hc hright h =>
    simp only [List.append_assoc, List.cons_append] at hr
    rw [hr, List.length_cons] at hn
    rw [s.ahead_of_rest hr, hk]
    exact (bind_of_ok (take_cons hr)).trans (complete_branch hst hl hc hright h rfl
      (by rw [Reading.rest_after]; omega) hin (helse rfl))
  | branchElse hk hl hc hright h hclosed hsep h' =>
    simp only [List.append_assoc, List.cons_append] at hr
    rw [hr, List.length_cons] at hn
    rw [s.ahead_of_rest hr, hk]
    exact (bind_of_ok (take_cons hr)).trans (complete_branchElse hst hl hc hright h hclosed hsep h'
      rfl (by rw [Reading.rest_after]; omega) hin helse)
  | loop hk hl hc hright h =>
    simp only [List.append_assoc, List.cons_append] at hr
    rw [hr, List.length_cons] at hn
    rw [s.ahead_of_rest hr, hk]
    exact (bind_of_ok (take_cons hr)).trans (complete_whileLoop hst hl hc hright h rfl
      (by rw [Reading.rest_after]; omega) hin helse)
  | forLoop hk hl hi hc hsemi hinc hright h =>
    simp only [List.append_assoc, List.cons_append] at hr
    rw [hr, List.length_cons] at hn
    rw [s.ahead_of_rest hr, hk]
    exact (bind_of_ok (take_cons hr)).trans (complete_forLoop hst hl hi hc hsemi hinc hright h rfl
      (by rw [Reading.rest_after]; omega) hin helse)

theorem complete_declarationOf (h : Grammar.Declaration nearestIf inside ts st)
    (hr : s.rest = ts ++ rest) (hn : s.rest.length ≤ n + 1) (hin : inside = true → s.inside = true)
    (helse : (s.after rest).ahead.kind ≠ .kwElse) :
    declarationOf (n + 1) statement declaration s = .ok st (s.after rest) := by
  unfold declarationOf
  rw [bind_of_ok (peek_apply s)]
  cases h with
  | «variable» h =>
    have hvar := complete_variableDeclaration h hr hn
    obtain ⟨t, us, rfl, ht⟩ := h.starts
    rw [List.mem_singleton] at ht
    rw [s.ahead_of_rest hr, ht]
    exact hvar
  | @function _ keyword x left right leftBrace rightBrace ps ts xs ss hk hx hl hps hright hlb h
      hrb =>
    simp only [List.append_assoc, List.cons_append, List.nil_append] at hr
    rw [hr] at hn
    simp only [List.length_cons, List.length_append] at hn
    rw [s.ahead_of_rest hr, hk]
    refine (bind_of_ok (take_cons hr)).trans ?_
    have hparameters := complete_parameterList hps (n := n + 1)
      (s := s.after (ps ++ right :: leftBrace :: (ts ++ rightBrace :: rest))) rfl
      (by simp only [Reading.rest_after, List.length_append, List.length_cons]; omega) hright
    have hbody := complete_function hd h hrb (n + 1)
      (s := s.after (ts ++ rightBrace :: rest)) rfl
      (by simp only [Reading.rest_after, List.length_append, List.length_cons]; omega)
      (by simp only [Reading.rest_after, List.length_append, List.length_cons]; omega)
    unfold functionDeclaration
    rw [bind_of_ok (expect_cons .functionName rfl hx), Reading.after_after,
      bind_of_ok (expect_cons .beforeParameters rfl hl), Reading.after_after,
      bind_of_ok hparameters, Reading.after_after,
      bind_of_ok (expect_cons .afterParameters rfl hright), Reading.after_after,
      bind_of_ok (expect_cons .beforeFunctionBody rfl hlb), Reading.after_after,
      bind_of_ok hbody]
    rfl
  | statement h =>
    have hvar := ne_of_starts h.starts hr (k := .kwVar) (by decide)
    have hfun := ne_of_starts h.starts hr (k := .kwFun) (by decide)
    show Gives _ _ _ _
    split
    · next hk => exact absurd hk hvar
    · next hk => exact absurd hk hfun
    · exact complete_statementOf hst hd h hr hn hin fun _ => helse

end Whole

mutual

theorem complete_statement : ∀ n, CompleteStatement n (statement n)
  | 0 => by
    intro h s rest hr hn
    have hpos := h.starts.length_pos
    rw [hr, List.length_append] at hn
    omega
  | n + 1 => by
    intro h s rest hr hn hin helse
    unfold statement
    exact complete_statementOf (complete_statement n) (complete_declaration n) h hr hn hin helse

theorem complete_declaration : ∀ n, CompleteDeclaration n (declaration n)
  | 0 => by
    intro h s rest hr hn
    have hpos := h.starts.length_pos
    rw [hr, List.length_append] at hn
    omega
  | n + 1 => by
    intro h s rest hr hn hin helse
    unfold declaration
    exact recovering_of_ok
      (complete_declarationOf (complete_statement n) (complete_declaration n) h hr hn hin helse)

end

end Parser
end Lox
