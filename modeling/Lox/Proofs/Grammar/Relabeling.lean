import Lox.Proofs.Grammar.Derivation
import Lox.Proofs.Relabeling.Trees

/-!
Phrases made of other tokens.

Whether a row of tokens is a phrase depends on what its tokens are, not on how they are spelled or
where they stand.  So the tree of a relabeled row is the relabeled tree.
-/

namespace Lox

/-- Whether a relabeling leaves alone what the tokens are. -/
def Relabeling.KeepsForms (r : Relabeling) : Prop := ∀ t, (r.token t).form = t.form

namespace Grammar

variable {r : Relabeling}

/-- A literal never holds a function, so a relabeling leaves it alone. -/
theorem relabel_of_literal {t : Token} {v : Value} (h : t.literal? = some v) :
    v.relabel r = v := by
  unfold Token.literal? at h
  split at h <;> first | cases h; rfl | exact nomatch h

theorem relabel_combine (level : Level) (left : Expr) (t : Token) (right : Expr) :
    (level.combine left t right).relabel r =
      level.combine (left.relabel r) (r.token t) (right.relabel r) := by
  cases level <;> rfl

theorem relabel_forLoop (i : Option Stmt) (c : Expr) (n : Option Expr) (s : Stmt) :
    (Stmt.forLoop i c n s).relabel r =
      Stmt.forLoop (Stmt.relabelOptional r i) (c.relabel r) (Expr.relabelOptional r n)
        (s.relabel r) := by
  cases i <;> cases n <;> rfl

theorem length_relabelAll (es : List Expr) : (Expr.relabelAll r es).length = es.length := by
  induction es with
  | nil => rfl
  | cons e es ih => exact congrArg Nat.succ ih

theorem kind_image (hr : r.KeepsForms) (t : Token) : (r.token t).kind = t.kind := by
  rw [Token.kind, hr, Token.kind]

theorem kind_of_image (hr : r.KeepsForms) {t : Token} {kind : Kind} (h : t.kind = kind) :
    (r.token t).kind = kind :=
  (kind_image hr t).trans h

theorem literal_image (hr : r.KeepsForms) (t : Token) : (r.token t).literal? = t.literal? := by
  rw [Token.literal?, hr, Token.literal?]

/-! ## Expressions -/

mutual

theorem Assignment.relabel (hr : r.KeepsForms) :
    ∀ {ts : List Token} {e : Expr}, Assignment ts e →
      Assignment (ts.map r.token) (e.relabel r)
  | _, _, .assign hx he h =>
    .assign (kind_of_image hr hx) (kind_of_image hr he) (Assignment.relabel hr h)
  | _, _, .operators h => .operators (Operators.relabel hr h)

theorem Operators.relabel (hr : r.KeepsForms) :
    ∀ {levels : List Level} {ts : List Token} {e : Expr}, Operators levels ts e →
      Operators levels (ts.map r.token) (e.relabel r)
  | _, _, _, .operand h => .operand (Unary.relabel hr h)
  | _, _, _, .tighter h => .tighter (Operators.relabel hr h)
  | _, _, _, .operation hl ht h => by
    rw [relabel_combine, List.map_append, List.map_cons]
    exact .operation (Operators.relabel hr hl) ((kind_image hr _).symm ▸ ht)
      (Operators.relabel hr h)

theorem Unary.relabel (hr : r.KeepsForms) :
    ∀ {ts : List Token} {e : Expr}, Unary ts e → Unary (ts.map r.token) (e.relabel r)
  | _, _, .operator ht h =>
    .operator (ht.imp (kind_of_image hr) (kind_of_image hr)) (Unary.relabel hr h)
  | _, _, .call h => .call (Call.relabel hr h)

theorem Call.relabel (hr : r.KeepsForms) :
    ∀ {ts : List Token} {e : Expr}, Call ts e → Call (ts.map r.token) (e.relabel r)
  | _, _, .primary h => .primary (Primary.relabel hr h)
  | _, _, .call hf hl hes hright => by
    simp only [List.map_append, List.map_cons, List.map_nil]
    exact .call (Call.relabel hr hf) (kind_of_image hr hl) (Arguments.relabel hr hes)
      (kind_of_image hr hright)

theorem Arguments.relabel (hr : r.KeepsForms) :
    ∀ {ts : List Token} {es : List Expr}, Arguments ts es →
      Arguments (ts.map r.token) (Expr.relabelAll r es)
  | _, _, .empty => .empty
  | _, _, .some h hlen =>
    .some (ArgumentSequence.relabel hr h) (by rwa [length_relabelAll])

theorem ArgumentSequence.relabel (hr : r.KeepsForms) :
    ∀ {ts : List Token} {es : List Expr}, ArgumentSequence ts es →
      ArgumentSequence (ts.map r.token) (Expr.relabelAll r es)
  | _, _, .one h => .one (Assignment.relabel hr h)
  | _, _, .cons h hcomma hs => by
    rw [List.map_append, List.map_cons]
    exact .cons (Assignment.relabel hr h) (kind_of_image hr hcomma)
      (ArgumentSequence.relabel hr hs)

theorem Primary.relabel (hr : r.KeepsForms) :
    ∀ {ts : List Token} {e : Expr}, Primary ts e → Primary (ts.map r.token) (e.relabel r)
  | _, _, .literal h => by
    rw [Expr.relabel, relabel_of_literal h]
    exact .literal ((literal_image hr _).trans h)
  | _, _, .variable h => .variable (kind_of_image hr h)
  | _, _, .grouping hl h hright => by
    simp only [List.map_append, List.map_cons, List.map_nil]
    exact .grouping (kind_of_image hr hl) (Assignment.relabel hr h) (kind_of_image hr hright)

end

variable (hr : r.KeepsForms)
include hr

theorem Optional.relabel {ts : List Token} {e : Option Expr} (h : Optional ts e) :
    Optional (ts.map r.token) (Expr.relabelOptional r e) := by
  cases h with
  | none => exact .none
  | some h => exact .some (h.relabel hr)

/-! ## Parts of statements -/

theorem ParameterSequence.relabel {ts xs : List Token} (h : ParameterSequence ts xs) :
    ParameterSequence (ts.map r.token) (xs.map r.token) := by
  induction h with
  | one hx => exact .one (kind_of_image hr hx)
  | cons hx hcomma _ ih => exact .cons (kind_of_image hr hx) (kind_of_image hr hcomma) ih

theorem Parameters.relabel {ts xs : List Token} (h : Parameters ts xs) :
    Parameters (ts.map r.token) (xs.map r.token) := by
  cases h with
  | empty => exact .empty
  | some h hlen => exact .some (h.relabel hr) (by rwa [List.length_map])

theorem ExpressionStatement.relabel {ts : List Token} {s : Stmt} (h : ExpressionStatement ts s) :
    ExpressionStatement (ts.map r.token) (s.relabel r) := by
  cases h with
  | mk h hsemi =>
    rw [List.map_append]
    exact .mk (h.relabel hr) (kind_of_image hr hsemi)

theorem VariableDeclaration.relabel {ts : List Token} {s : Stmt} (h : VariableDeclaration ts s) :
    VariableDeclaration (ts.map r.token) (s.relabel r) := by
  cases h with
  | bare hk hx hsemi =>
    exact .bare (kind_of_image hr hk) (kind_of_image hr hx) (kind_of_image hr hsemi)
  | initialized hk hx he h hsemi =>
    simp only [List.map_append, List.map_cons, List.map_nil]
    exact .initialized (kind_of_image hr hk) (kind_of_image hr hx) (kind_of_image hr he)
      (h.relabel hr) (kind_of_image hr hsemi)

theorem Initializer.relabel {ts : List Token} {s : Option Stmt} (h : Initializer ts s) :
    Initializer (ts.map r.token) (Stmt.relabelOptional r s) := by
  cases h with
  | none hsemi => exact .none (kind_of_image hr hsemi)
  | «variable» h => exact .variable (h.relabel hr)
  | expression h => exact .expression (h.relabel hr)

/-! ## Statements -/

variable {Before : Ending → Prop}

omit hr

mutual

theorem Statement.relabel (hr : r.KeepsForms) :
    ∀ {inside : Bool} {a : Ending} {ts : List Token} {s : Stmt},
      Statement Before inside a ts s → Statement Before inside a (ts.map r.token) (s.relabel r)
  | _, _, _, _, .expression h => .expression (h.relabel hr)
  | _, _, _, _, .print hk h hsemi => by
    simp only [List.map_append, List.map_cons, List.map_nil]
    exact .print (kind_of_image hr hk) (h.relabel hr) (kind_of_image hr hsemi)
  | _, _, _, _, .ret hk h hsemi => by
    simp only [List.map_append, List.map_cons, List.map_nil]
    exact .ret (kind_of_image hr hk) (h.relabel hr) (kind_of_image hr hsemi)
  | _, _, _, _, .block hl h hright => by
    simp only [List.map_append, List.map_cons, List.map_nil]
    exact .block (kind_of_image hr hl) (Declarations.relabel hr h) (kind_of_image hr hright)
  | _, _, _, _, .branch hk hl hc hright h => by
    simp only [List.map_append, List.map_cons]
    exact .branch (kind_of_image hr hk) (kind_of_image hr hl) (hc.relabel hr)
      (kind_of_image hr hright) (Statement.relabel hr h)
  | _, _, _, _, .branchElse hk hl hc hright h ha hsep h' => by
    simp only [List.map_append, List.map_cons]
    exact .branchElse (kind_of_image hr hk) (kind_of_image hr hl) (hc.relabel hr)
      (kind_of_image hr hright) (Statement.relabel hr h) ha (kind_of_image hr hsep)
      (Statement.relabel hr h')
  | _, _, _, _, .loop hk hl hc hright h => by
    simp only [List.map_append, List.map_cons]
    exact .loop (kind_of_image hr hk) (kind_of_image hr hl) (hc.relabel hr)
      (kind_of_image hr hright) (Statement.relabel hr h)
  | _, _, _, _, @Statement.forLoop _ _ _ _ _ _ _ _ _ _ _ _ c _ _ hk hl hi hc hsemi hn hright h => by
    have hcond : (c.getD (.literal (.bool true))).relabel r =
        (Expr.relabelOptional r c).getD (.literal (.bool true)) := by
      cases c <;> rfl
    rw [relabel_forLoop, hcond]
    simp only [List.map_append, List.map_cons]
    exact .forLoop (kind_of_image hr hk) (kind_of_image hr hl) (hi.relabel hr) (hc.relabel hr)
      (kind_of_image hr hsemi) (hn.relabel hr) (kind_of_image hr hright) (Statement.relabel hr h)

theorem Declaration.relabel (hr : r.KeepsForms) :
    ∀ {inside : Bool} {ts : List Token} {s : Stmt},
      Declaration Before inside ts s → Declaration Before inside (ts.map r.token) (s.relabel r)
  | _, _, _, .variable h => .variable (h.relabel hr)
  | _, _, _, .function hk hx hl hps hright hlb h hrb => by
    simp only [List.map_append, List.map_cons, List.map_nil]
    exact .function (kind_of_image hr hk) (kind_of_image hr hx) (kind_of_image hr hl)
      (hps.relabel hr) (kind_of_image hr hright) (kind_of_image hr hlb) (Declarations.relabel hr h)
      (kind_of_image hr hrb)
  | _, _, _, .statement h => .statement (Statement.relabel hr h)

theorem Declarations.relabel (hr : r.KeepsForms) :
    ∀ {inside : Bool} {ts : List Token} {ss : List Stmt}, Declarations Before inside ts ss →
      Declarations Before inside (ts.map r.token) (Stmt.relabelAll r ss)
  | _, _, _, .nil => .nil
  | _, _, _, .cons h hs => by
    rw [List.map_append]
    exact .cons (Declaration.relabel hr h) (Declarations.relabel hr hs)

end

/-- Programs one after the other are a program. -/
theorem Declarations.append {inside : Bool} {ts us : List Token} {ss ss' : List Stmt}
    (h : Declarations Before inside ts ss) (h' : Declarations Before inside us ss') :
    Declarations Before inside (ts ++ us) (ss ++ ss') := by
  induction ss generalizing ts with
  | nil =>
    cases h
    exact h'
  | cons s ss ih =>
    cases h with
    | cons hs hss =>
      rw [List.append_assoc]
      exact .cons hs (ih hss)

end Grammar
end Lox
