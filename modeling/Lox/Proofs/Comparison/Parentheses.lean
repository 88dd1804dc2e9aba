import Lox.Proofs.Comparison.Evaluation
import Lox.Proofs.Comparison.Replacing
import Lox.Proofs.Printing.Transparency

/-!
Running trees with parentheses and without.

A tree is compared with the same tree without groupings, and a machine with one whose functions have
none.  If groupings use no fuel, then both trees are evaluated with as much fuel, and one layer for
one layer.
-/

namespace Lox

theorem Expr.strip_all (es : List Expr) :
    List.Forall₂ (fun e e' : Expr => e' = e.strip) es (Expr.stripAll es) := by
  rw [Expr.stripAll_eq, List.forall₂_map_right_iff]
  exact List.forall₂_same.mpr fun _ _ => rfl

theorem Expr.strip_optional (e : Option Expr) :
    Option.Rel (fun e e' : Expr => e' = e.strip) e (Expr.stripOptional e) := by
  cases e with
  | none => exact .none
  | some e => exact .some rfl

theorem Stmt.strip_all (ss : List Stmt) :
    List.Forall₂ (fun s s' : Stmt => Place.declaring = .declaring ∧ s' = s.strip) ss
      (Stmt.stripAll ss) := by
  rw [Stmt.stripAll_eq, List.forall₂_map_right_iff]
  exact List.forall₂_same.mpr fun _ _ => ⟨rfl, rfl⟩

/-- Everything is alike to itself without groupings. -/
def Congruence.stripping : Congruence where
  World := Unit
  Later _ _ := True
  token _ := Eq
  value _ v v' := v' = v.mapFunction Closure.strip
  reads _ i j := j = i
  scope _ i j := j = i
  expr _ e e' := e' = e.strip
  stmt _ place s s' := place = .declaring ∧ s' = s.strip
  declaration _ d d' := d' = d.strip
  Acts _ _ _ R p q := Replaces Closure.strip (R ()) p q
  later_trans _ _ := trivial
  value_later _ h := h
  scope_later _ h := h
  expr_later _ h := h
  stmt_later _ h := h
  declaration_later _ h := h
  value_parts := by
    rintro _ v _ rfl
    cases v with
    | function f =>
      cases f
      exact .function rfl rfl rfl
    | native f => exact .native
    | nil | bool _ | number _ | string _ => exact .other rfl rfl
  stmt_parts := by
    rintro _ _ s _ ⟨rfl, rfl⟩
    cases s with
    | print t e => exact .print rfl rfl
    | expression e => exact .expression rfl
    | declare t e => exact .declare rfl (Expr.strip_optional e)
    | block ss => exact .block (Stmt.strip_all ss)
    | branch c s t =>
      refine .branch rfl ⟨rfl, rfl⟩ ?_
      cases t with
      | none => exact .none
      | some t => exact .some ⟨rfl, rfl⟩
    | loop c s => exact .loop rfl ⟨rfl, rfl⟩
    | function d =>
      cases d
      exact .function rfl rfl
    | ret t e => exact .ret (Expr.strip_optional e)
  stmt_place := by
    rintro _ _ _ _ ⟨rfl, -⟩
    exact Place.declaring_ne
  declaration_parts := by
    rintro _ ⟨name, parameters, body⟩ _ rfl
    exact ⟨List.forall₂_same.mpr fun _ _ => rfl, Stmt.strip_all body⟩
  truth := by
    rintro _ v _ rfl
    exact v.truth_mapFunction
  nil := rfl
  closure := by
    rintro _ d _ i _ site rfl rfl
    rfl
  pure h := .pure h
  bind hp hf := .bind hp fun a b h => hf () a b trivial h
  of_reading _ h := h
  exhausted := .throw _
  sign := by
    rintro _ _ t _ v _ rfl rfl
    rw [Value.unary_mapFunction]
    exact .blame _ _
  operator := by
    rintro _ _ t _ u _ v _ rfl rfl rfl
    rw [Value.binary_mapFunction _ (Value.equals_mapFunction fun f g _ _ => f.same_strip g)]
    exact .blame _ _
  connective := by
    rintro t _ rfl
    rfl
  unknown := by
    rintro _ _ t _ _ _ rfl _ _
    exact .throw _
  notCallable := by
    rintro _ _ t _ _ _ _ rfl
    exact .throw _
  wrongArity := by
    rintro _ _ t _ _ _ _ _ _ _ rfl _ _ _
    exact .throw _
  lookup := by
    rintro _ t _ rfl
    exact .lookup _
  assign := by
    rintro _ t _ v _ rfl rfl
    exact .assign _ v
  define := by
    rintro _ t _ v _ rfl rfl
    exact .define _ v
  bindIn := by
    rintro _ _ t _ i _ v _ rfl rfl rfl
    exact .bindIn _ _ v
  current := .get
  here := .get
  openScope := by
    rintro _ _ i _ rfl
    exact .openScope _
  inScope := by
    rintro _ _ _ _ i _ p q rfl h
    exact .inScope _ h
  print := by
    rintro _ _ t _ v _ rfl rfl
    exact .print Closure.name_strip _ v

/-- What is inside of groupings has the parts that are left without them. -/
theorem Expr.parts_bare (e : Expr) : Congruence.stripping.ExprParts () e.bare e.strip := by
  fun_induction Expr.bare e with
  | case1 e ih => exact ih
  | case2 e hbare =>
    cases e with
    | grouping e => exact absurd rfl (hbare e)
    | literal v =>
      have hvalue : v.strip = v.mapFunction Closure.strip := congrFun Value.strip_eq v
      exact .literal hvalue
    | unary t e => exact .unary rfl rfl
    | binary l t r => exact .binary rfl rfl rfl
    | logical l t r => exact .logical rfl rfl rfl
    | «variable» t => exact .variable rfl
    | assign t e => exact .assign rfl rfl
    | call f t es => exact .call rfl rfl (Expr.strip_all es)

/-- Trees are evaluated as they are without groupings, if groupings use no fuel. -/
theorem alike_transparent {host : Host} (hhost : host.Alike Congruence.stripping.toLikeness)
    (fuel : Nat) :
    (transparent host fuel).forget.Alike Congruence.stripping (layer host fuel) := by
  induction fuel with
  | zero =>
    refine ⟨fun _ => ?_, fun _ _ => ?_⟩
    · exact Congruence.stripping.exhausted
    · exact Congruence.stripping.exhausted
  | succ n ih =>
    constructor
    · rintro w e _ rfl
      have halike := Layer.alike_evaluateOf ih hhost e.parts_bare
      rwa [← Recording.forget_evaluateOf] at halike
    · intro w place s s' site hs
      have halike := Layer.alike_executeOf ih n site hs
      have hshown : Congruence.stripping.shown = Value.text := rfl
      have hshown' : Congruence.stripping.shown' = Value.text := rfl
      rwa [hshown, hshown', Layer.executeOfAs_text, Layer.executeOfAs_text,
        ← Recording.forget_executeOf] at halike

end Lox
