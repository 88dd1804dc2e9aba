import Lox.Operators
import Lox.Syntax.Scopes

/-!
Trees and values with other tokens and other scopes.

Running a program looks at what a token says but not at where it stands, and at which scopes are
the same but not at their numbers.  A relabeling changes both.  The scopes of a tree are those that
its functions were declared in.
-/

namespace Lox

/-- What every token and every scope is replaced by. -/
structure Relabeling where
  token : Token → Token
  scope : ScopeId → ScopeId

mutual

def Value.relabel (r : Relabeling) : Value → Value
  | .function f => .function (f.relabel r)
  | .nil => .nil
  | .bool b => .bool b
  | .number x => .number x
  | .string text => .string text
  | .native f => .native f

def Closure.relabel (r : Relabeling) : Closure → Closure
  | ⟨d, site, scope⟩ => ⟨d.relabel r, site, r.scope scope⟩

def Expr.relabel (r : Relabeling) : Expr → Expr
  | .binary left operator right => .binary (left.relabel r) (r.token operator) (right.relabel r)
  | .grouping e => .grouping (e.relabel r)
  | .literal v => .literal (v.relabel r)
  | .logical left operator right => .logical (left.relabel r) (r.token operator) (right.relabel r)
  | .unary operator right => .unary (r.token operator) (right.relabel r)
  | .variable name => .variable (r.token name)
  | .assign name e => .assign (r.token name) (e.relabel r)
  | .call callee paren es => .call (callee.relabel r) (r.token paren) (Expr.relabelAll r es)

def Expr.relabelAll (r : Relabeling) : List Expr → List Expr
  | [] => []
  | e :: es => e.relabel r :: Expr.relabelAll r es

def Expr.relabelOptional (r : Relabeling) : Option Expr → Option Expr
  | none => none
  | some e => some (e.relabel r)

def Stmt.relabel (r : Relabeling) : Stmt → Stmt
  | .print keyword e => .print (r.token keyword) (e.relabel r)
  | .expression e => .expression (e.relabel r)
  | .declare name e => .declare (r.token name) (Expr.relabelOptional r e)
  | .block ss => .block (Stmt.relabelAll r ss)
  | .branch c s t => .branch (c.relabel r) (s.relabel r) (Stmt.relabelOptional r t)
  | .loop c s => .loop (c.relabel r) (s.relabel r)
  | .function d => .function (d.relabel r)
  | .ret keyword e => .ret (r.token keyword) (Expr.relabelOptional r e)

def Stmt.relabelAll (r : Relabeling) : List Stmt → List Stmt
  | [] => []
  | s :: ss => s.relabel r :: Stmt.relabelAll r ss

def Stmt.relabelOptional (r : Relabeling) : Option Stmt → Option Stmt
  | none => none
  | some s => some (s.relabel r)

def Declaration.relabel (r : Relabeling) : Declaration → Declaration
  | ⟨name, parameters, body⟩ =>
    ⟨r.token name, parameters.map r.token, Stmt.relabelAll r body⟩

end

theorem Expr.relabelAll_eq (r : Relabeling) (es : List Expr) :
    Expr.relabelAll r es = es.map (·.relabel r) := by
  induction es with
  | nil => rfl
  | cons e es ih => rw [Expr.relabelAll, ih, List.map_cons]

theorem Stmt.relabelAll_eq (r : Relabeling) (ss : List Stmt) :
    Stmt.relabelAll r ss = ss.map (·.relabel r) := by
  induction ss with
  | nil => rfl
  | cons s ss ih => rw [Stmt.relabelAll, ih, List.map_cons]

/-- Whether a place mentions scopes of `L` only. -/
def Within (L : ScopeId → Prop) (scopes : List ScopeId) : Prop := ∀ s ∈ scopes, L s

namespace Within

variable {L : ScopeId → Prop} {ss ts : List ScopeId}

theorem nil : Within L [] := fun _ hs => nomatch hs

theorem left (h : Within L (ss ++ ts)) : Within L ss := fun s hs => h s (List.mem_append_left _ hs)

theorem right (h : Within L (ss ++ ts)) : Within L ts :=
  fun s hs => h s (List.mem_append_right _ hs)

end Within

/-! ## Relabelings that change nothing -/

/-- A relabeling that changes scopes only, and none of the given ones. -/
structure Relabeling.Fixes (r : Relabeling) (scopes : List ScopeId) : Prop where
  token : ∀ t, r.token t = t
  scope : Within (fun s => r.scope s = s) scopes

namespace Relabeling.Fixes

variable {r : Relabeling} {ss ts : List ScopeId}

theorem left (h : r.Fixes (ss ++ ts)) : r.Fixes ss := ⟨h.token, h.scope.left⟩

theorem right (h : r.Fixes (ss ++ ts)) : r.Fixes ts := ⟨h.token, h.scope.right⟩

end Relabeling.Fixes

section

variable {r : Relabeling}

mutual

theorem Value.relabel_eq_self : ∀ v : Value, r.Fixes v.scopes → v.relabel r = v
  | .function f, h => by rw [Value.relabel, Closure.relabel_eq_self f h]
  | .nil, _ | .bool _, _ | .number _, _ | .string _, _ | .native _, _ => rfl

theorem Closure.relabel_eq_self : ∀ f : Closure, r.Fixes f.scopes → f.relabel r = f
  | ⟨d, site, scope⟩, h => by
    have hd : r.Fixes d.scopes := ⟨h.token, fun s hs => h.scope s (List.mem_cons_of_mem _ hs)⟩
    rw [Closure.relabel, Declaration.relabel_eq_self d hd, h.scope scope List.mem_cons_self]

theorem Expr.relabel_eq_self : ∀ e : Expr, r.Fixes e.scopes → e.relabel r = e
  | .binary left operator right, h => by
    rw [Expr.relabel, Expr.relabel_eq_self left h.left, h.token, Expr.relabel_eq_self right h.right]
  | .grouping e, h => by rw [Expr.relabel, Expr.relabel_eq_self e h]
  | .literal v, h => by rw [Expr.relabel, Value.relabel_eq_self v h]
  | .logical left operator right, h => by
    rw [Expr.relabel, Expr.relabel_eq_self left h.left, h.token, Expr.relabel_eq_self right h.right]
  | .unary operator right, h => by rw [Expr.relabel, h.token, Expr.relabel_eq_self right h]
  | .variable name, h => by rw [Expr.relabel, h.token]
  | .assign name e, h => by rw [Expr.relabel, h.token, Expr.relabel_eq_self e h]
  | .call callee paren es, h => by
    rw [Expr.relabel, Expr.relabel_eq_self callee h.left, h.token,
      Expr.relabelAll_eq_self es h.right]

theorem Expr.relabelAll_eq_self : ∀ es : List Expr, r.Fixes (Expr.scopesAll es) →
    Expr.relabelAll r es = es
  | [], _ => rfl
  | e :: es, h => by
    rw [Expr.relabelAll, Expr.relabel_eq_self e h.left, Expr.relabelAll_eq_self es h.right]

theorem Expr.relabelOptional_eq_self : ∀ e : Option Expr, r.Fixes (Expr.scopesOptional e) →
    Expr.relabelOptional r e = e
  | none, _ => rfl
  | some e, h => by rw [Expr.relabelOptional, Expr.relabel_eq_self e h]

theorem Stmt.relabel_eq_self : ∀ s : Stmt, r.Fixes s.scopes → s.relabel r = s
  | .print keyword e, h => by rw [Stmt.relabel, h.token, Expr.relabel_eq_self e h]
  | .expression e, h => by rw [Stmt.relabel, Expr.relabel_eq_self e h]
  | .declare name e, h => by rw [Stmt.relabel, h.token, Expr.relabelOptional_eq_self e h]
  | .block ss, h => by rw [Stmt.relabel, Stmt.relabelAll_eq_self ss h]
  | .branch c s t, h => by
    rw [Stmt.relabel, Expr.relabel_eq_self c h.left.left, Stmt.relabel_eq_self s h.left.right,
      Stmt.relabelOptional_eq_self t h.right]
  | .loop c s, h => by
    rw [Stmt.relabel, Expr.relabel_eq_self c h.left, Stmt.relabel_eq_self s h.right]
  | .function d, h => by rw [Stmt.relabel, Declaration.relabel_eq_self d h]
  | .ret keyword e, h => by rw [Stmt.relabel, h.token, Expr.relabelOptional_eq_self e h]

theorem Stmt.relabelAll_eq_self : ∀ ss : List Stmt, r.Fixes (Stmt.scopesAll ss) →
    Stmt.relabelAll r ss = ss
  | [], _ => rfl
  | s :: ss, h => by
    rw [Stmt.relabelAll, Stmt.relabel_eq_self s h.left, Stmt.relabelAll_eq_self ss h.right]

theorem Stmt.relabelOptional_eq_self : ∀ s : Option Stmt, r.Fixes (Stmt.scopesOptional s) →
    Stmt.relabelOptional r s = s
  | none, _ => rfl
  | some s, h => by rw [Stmt.relabelOptional, Stmt.relabel_eq_self s h]

theorem Declaration.relabel_eq_self : ∀ d : Declaration, r.Fixes d.scopes → d.relabel r = d
  | ⟨name, parameters, body⟩, h => by
    have hp : parameters.map r.token = parameters :=
      (List.map_congr_left fun t _ => h.token t).trans (List.map_id' _)
    rw [Declaration.relabel, h.token, hp, Stmt.relabelAll_eq_self body h]

end

end

/-! ## One relabeling after another -/

/-- The relabeling `r` with `q` behind it. -/
def Relabeling.then (r q : Relabeling) : Relabeling :=
  ⟨fun t => q.token (r.token t), fun s => q.scope (r.scope s)⟩

section

variable {r q : Relabeling}

mutual

theorem Value.relabel_relabel : ∀ v : Value, (v.relabel r).relabel q = v.relabel (r.then q)
  | .function f => by simp only [Value.relabel, Closure.relabel_relabel f]
  | .nil | .bool _ | .number _ | .string _ | .native _ => rfl

theorem Closure.relabel_relabel : ∀ f : Closure, (f.relabel r).relabel q = f.relabel (r.then q)
  | ⟨d, site, scope⟩ => by
    simp only [Closure.relabel, Declaration.relabel_relabel d, Relabeling.then]

theorem Expr.relabel_relabel : ∀ e : Expr, (e.relabel r).relabel q = e.relabel (r.then q)
  | .binary left operator right | .logical left operator right => by
    simp only [Expr.relabel, Expr.relabel_relabel left, Expr.relabel_relabel right,
      Relabeling.then]
  | .grouping e => by simp only [Expr.relabel, Expr.relabel_relabel e]
  | .literal v => by simp only [Expr.relabel, Value.relabel_relabel v]
  | .unary operator e | .assign operator e => by
    simp only [Expr.relabel, Expr.relabel_relabel e, Relabeling.then]
  | .variable name => rfl
  | .call callee paren es => by
    simp only [Expr.relabel, Expr.relabel_relabel callee, Expr.relabelAll_relabelAll es,
      Relabeling.then]

theorem Expr.relabelAll_relabelAll : ∀ es : List Expr,
    Expr.relabelAll q (Expr.relabelAll r es) = Expr.relabelAll (r.then q) es
  | [] => rfl
  | e :: es => by
    simp only [Expr.relabelAll, Expr.relabel_relabel e, Expr.relabelAll_relabelAll es]

theorem Expr.relabelOptional_relabelOptional : ∀ e : Option Expr,
    Expr.relabelOptional q (Expr.relabelOptional r e) = Expr.relabelOptional (r.then q) e
  | none => rfl
  | some e => by simp only [Expr.relabelOptional, Expr.relabel_relabel e]

theorem Stmt.relabel_relabel : ∀ s : Stmt, (s.relabel r).relabel q = s.relabel (r.then q)
  | .print keyword e => by simp only [Stmt.relabel, Expr.relabel_relabel e, Relabeling.then]
  | .expression e => by simp only [Stmt.relabel, Expr.relabel_relabel e]
  | .declare name e | .ret name e => by
    simp only [Stmt.relabel, Expr.relabelOptional_relabelOptional e, Relabeling.then]
  | .block ss => by simp only [Stmt.relabel, Stmt.relabelAll_relabelAll ss]
  | .branch c s t => by
    simp only [Stmt.relabel, Expr.relabel_relabel c, Stmt.relabel_relabel s,
      Stmt.relabelOptional_relabelOptional t]
  | .loop c s => by simp only [Stmt.relabel, Expr.relabel_relabel c, Stmt.relabel_relabel s]
  | .function d => by simp only [Stmt.relabel, Declaration.relabel_relabel d]

theorem Stmt.relabelAll_relabelAll : ∀ ss : List Stmt,
    Stmt.relabelAll q (Stmt.relabelAll r ss) = Stmt.relabelAll (r.then q) ss
  | [] => rfl
  | s :: ss => by
    simp only [Stmt.relabelAll, Stmt.relabel_relabel s, Stmt.relabelAll_relabelAll ss]

theorem Stmt.relabelOptional_relabelOptional : ∀ s : Option Stmt,
    Stmt.relabelOptional q (Stmt.relabelOptional r s) = Stmt.relabelOptional (r.then q) s
  | none => rfl
  | some s => by simp only [Stmt.relabelOptional, Stmt.relabel_relabel s]

theorem Declaration.relabel_relabel : ∀ d : Declaration,
    (d.relabel r).relabel q = d.relabel (r.then q)
  | ⟨name, parameters, body⟩ => by
    simp only [Declaration.relabel, Stmt.relabelAll_relabelAll body, List.map_map,
      Relabeling.then, Function.comp_def]

end

end

end Lox
