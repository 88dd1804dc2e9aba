import Lox.Proofs.Comparison.Basic

/-!
Evaluation keeps every likeness that its actions keep.

Two layers are alike when they handle alike trees alike.  A layer on top of each is then alike as
well, which is shown here by one case for every kind of tree.
-/

namespace Lox
namespace Layer

variable {host : Host}

/-- Whether two layers handle alike trees alike. -/
structure Alike (c : Congruence) (l l' : Layer) : Prop where
  evaluate : ∀ {w e e'}, c.expr w e e' →
    c.Acts w .reading c.value (l.evaluate e) (l'.evaluate e')
  execute : ∀ {w place s s'} site, c.stmt w place s s' →
    c.Acts w place c.FlowParts (l.execute site s) (l'.execute site s')

variable {c : Congruence} {l l' : Layer} {w : c.World} {place : Place}

variable (hl : l.Alike c l')
include hl

theorem alike_sequence (outer : Site) (first : Nat) {ss ss' : List Stmt}
    (h : List.Forall₂ (c.stmt w .declaring) ss ss') :
    c.Acts w .declaring c.FlowParts (l.sequence outer first ss) (l'.sequence outer first ss') := by
  induction ss generalizing first w ss' with
  | nil =>
    cases h
    exact c.pure .normal
  | cons s ss ih =>
    cases h with
    | cons hs hss =>
      refine c.bind (hl.execute _ hs) fun w₁ a b h₁ hab => ?_
      cases hab with
      | normal => exact ih (first + 1) (hss.imp fun _ _ => c.stmt_later h₁)
      | returned hv => exact c.pure (.returned hv)

theorem alike_block (site : Site) {body body' : List Stmt} {i j : ScopeId}
    (hi : c.scope w i j) (h : List.Forall₂ (c.stmt w .declaring) body body') :
    c.Acts w place c.FlowParts (l.block site body i) (l'.block site body' j) :=
  c.inScope hi (alike_sequence hl site 0 h)

/-- As many values come out as there are expressions. -/
theorem alike_evaluateAll {es es' : List Expr} (h : List.Forall₂ (c.expr w) es es') :
    c.Acts w .reading (fun w vs vs' => vs.length = es.length ∧ List.Forall₂ (c.value w) vs vs')
      (l.evaluateAll es) (l'.evaluateAll es') := by
  induction es generalizing w es' with
  | nil =>
    cases h
    exact c.pure ⟨rfl, .nil⟩
  | cons e es ih =>
    cases h with
    | cons he hes =>
      refine c.bind (hl.evaluate he) fun w₁ v v' h₁ hv => ?_
      refine c.bind (ih (hes.imp fun _ _ => c.expr_later h₁)) fun w₂ vs vs' h₂ hvs => ?_
      exact c.pure ⟨congrArg Nat.succ hvs.1, .cons (c.value_later h₂ hv) hvs.2⟩

omit hl in
theorem alike_bindParameters {i j : ScopeId} {xs xs' : List Token} {vs vs' : List Value}
    (hi : c.scope w i j) (hxs : List.Forall₂ (c.token .name) xs xs')
    (hvs : List.Forall₂ (c.value w) vs vs') :
    c.Acts w place (fun _ _ _ => True) (bindParameters i xs vs) (bindParameters j xs' vs') := by
  induction hxs generalizing w vs vs' with
  | nil => exact c.pure trivial
  | cons hx _ ih =>
    cases hvs with
    | nil => exact c.pure trivial
    | cons hv hvs =>
      refine c.bind (c.bindIn hx hi hv) fun w₁ _ _ h₁ _ => ?_
      exact ih (c.scope_later h₁ hi) (hvs.imp fun _ _ => c.value_later h₁)

theorem alike_call {f f' : Closure} {vs vs' : List Value} (hsite : f'.site = f.site)
    (hscope : c.reads w f.scope f'.scope) (hd : c.declaration w f.declaration f'.declaration)
    (hvs : List.Forall₂ (c.value w) vs vs') :
    c.Acts w place c.value (l.call f vs) (l'.call f' vs') := by
  unfold call
  rw [hsite]
  refine c.bind (c.openScope hscope) fun w₁ i j h₁ hi => ?_
  have hparts := c.declaration_parts (c.declaration_later h₁ hd)
  refine c.bind (alike_bindParameters hi hparts.parameters
    (hvs.imp fun _ _ => c.value_later h₁)) fun w₂ _ _ h₂ _ => ?_
  have hbody := hparts.body.imp fun _ _ => c.stmt_later h₂
  refine c.bind (alike_block hl f.site (c.scope_later h₂ hi) hbody) fun w₃ a b h₃ hab => ?_
  cases hab with
  | normal => exact c.pure c.nil
  | returned hv => exact c.pure hv

omit hl in
theorem alike_requireArity {t t' : Token} {v v' : Value} {k n : Nat}
    (ht : c.token (.closing n) t t') (hv : c.value w v v') (hk : v.arity? = some k) :
    c.Acts w place (fun _ _ _ => True) (requireArity t k n) (requireArity t' k n) := by
  unfold requireArity
  by_cases h : k = n
  · rw [if_pos h, if_pos h]
    exact c.pure trivial
  · rw [if_neg h, if_neg h]
    exact c.wrongArity ht hv hk h

omit hl in
theorem apply_of_arity?_eq_none {v : Value} (h : v.arity? = none) (t : Token) (vs : List Value) :
    l.apply host v t vs = Action.fail t .notCallable := by
  cases v with
  | function f => exact nomatch h
  | native f => exact nomatch h
  | nil | bool _ | number _ | string _ => rfl

theorem alike_apply (hhost : host.Alike c.toLikeness) {t t' : Token} {v v' : Value}
    {vs vs' : List Value} (hv : c.value w v v') (ht : c.token (.closing vs.length) t t')
    (hvs : List.Forall₂ (c.value w) vs vs') :
    c.Acts w place c.value (l.apply host v t vs) (l'.apply host v' t' vs') := by
  have hlength := hvs.length_eq
  cases c.value_parts hv with
  | @function f f' hsite hscope hd =>
    have harity : f'.arity = f.arity := (c.declaration_parts hd).parameters.length_eq.symm
    unfold apply
    dsimp only
    rw [harity, ← hlength]
    refine c.bind (alike_requireArity ht hv rfl) fun w₁ _ _ h₁ _ => ?_
    cases c.value_parts (c.value_later h₁ hv) with
    | function hsite hscope hd =>
      exact alike_call hl hsite hscope hd (hvs.imp fun _ _ => c.value_later h₁)
    | other h => exact nomatch h
  | @native f =>
    unfold apply
    dsimp only
    rw [← hlength]
    refine c.bind (alike_requireArity ht hv rfl) fun w₁ _ _ h₁ _ => ?_
    exact c.pure (hhost _ f.entry _ _ (hvs.imp fun _ _ => c.value_later h₁))
  | other h h' =>
    rw [apply_of_arity?_eq_none h, apply_of_arity?_eq_none h']
    exact c.notCallable ht

theorem alike_evaluateOf (hhost : host.Alike c.toLikeness) {e e' : Expr}
    (h : c.ExprParts w e e') :
    c.Acts w .reading c.value (l.evaluateOf host e) (l'.evaluateOf host e') := by
  cases h with
  | literal hv => exact c.pure hv
  | grouping he => exact hl.evaluate he
  | unary ht he => exact c.bind (hl.evaluate he) fun w₁ v v' h₁ hv => c.sign ht hv
  | binary hleft ht hright =>
    refine c.bind (hl.evaluate hleft) fun w₁ u u' h₁ hu => ?_
    refine c.bind (hl.evaluate (c.expr_later h₁ hright)) fun w₂ v v' h₂ hv => ?_
    exact c.operator ht (c.value_later h₂ hu) hv
  | «variable» ht => exact c.lookup ht
  | assign ht he =>
    refine c.bind (hl.evaluate he) fun w₁ v v' h₁ hv => ?_
    exact c.bind (c.assign ht hv) fun w₂ _ _ h₂ _ => c.pure (c.value_later h₂ hv)
  | @logical _ _ _ _ t _ hleft ht hright =>
    refine c.bind (hl.evaluate hleft) fun w₁ v v' h₁ hv => ?_
    have right := hl.evaluate (c.expr_later h₁ hright)
    rw [c.connective ht, c.truth hv]
    -- Each operator either keeps the left value or evaluates the right operand.
    by_cases hor : t.kind = .kwOr
    · rw [hor]
      dsimp only
      split
      · exact c.pure hv
      · exact right
    · by_cases hand : t.kind = .kwAnd
      · rw [hand]
        dsimp only
        split
        · exact right
        · exact c.pure hv
      · split
        · contradiction
        · contradiction
        · exact c.unknown ht hor hand
  | call hf ht hes =>
    refine c.bind (hl.evaluate hf) fun w₁ f f' h₁ hf => ?_
    refine c.bind (alike_evaluateAll hl (hes.imp fun _ _ => c.expr_later h₁))
      fun w₂ vs vs' h₂ hvs => ?_
    exact alike_apply hl hhost (c.value_later h₂ hf) (hvs.1 ▸ ht) hvs.2

theorem alike_evaluateOptional {e e' : Option Expr} (h : Option.Rel (c.expr w) e e') :
    c.Acts w .reading c.value (l.evaluateOptional e) (l'.evaluateOptional e') := by
  cases h with
  | none => exact c.pure c.nil
  | some he => exact hl.evaluate he

theorem alike_repeatWhile (hplace : place ≠ .anywhere) (site : Site) {e e' : Expr} {s s' : Stmt}
    (he : c.expr w e e') (hs : c.stmt w place s s') (n : Nat) :
    c.Acts w place c.FlowParts (l.repeatWhile site e s n) (l'.repeatWhile site e' s' n) := by
  induction n generalizing w with
  | zero => exact c.exhausted
  | succ n ih =>
    refine c.bind (c.of_reading hplace (hl.evaluate he)) fun w₁ v v' h₁ hv => ?_
    rw [c.truth hv]
    split
    · refine c.bind (hl.execute _ (c.stmt_later h₁ hs)) fun w₂ a b h₂ hab => ?_
      have hlater := c.later_trans h₁ h₂
      cases hab with
      | normal => exact ih (c.expr_later hlater he) (c.stmt_later hlater hs)
      | returned hv => exact c.pure (.returned hv)
    · exact c.pure .normal

theorem alike_executeOf (fuel : Nat) (site : Site) {s s' : Stmt} (h : c.stmt w place s s') :
    c.Acts w place c.FlowParts (l.executeOfAs c.shown fuel site s)
      (l'.executeOfAs c.shown' fuel site s') := by
  have hplace := c.stmt_place h
  cases c.stmt_parts h with
  | print ht he =>
    refine c.bind (c.of_reading hplace (hl.evaluate he)) fun w₁ v v' h₁ hv => ?_
    exact c.bind (c.print ht hv) fun _ _ _ _ _ => c.pure .normal
  | expression he =>
    exact c.bind (c.of_reading hplace (hl.evaluate he)) fun _ _ _ _ _ => c.pure .normal
  | declare ht he =>
    refine c.bind (c.of_reading hplace (alike_evaluateOptional hl he)) fun w₁ v v' h₁ hv => ?_
    exact c.bind (c.define ht hv) fun _ _ _ _ _ => c.pure .normal
  | block hss =>
    refine c.bind (c.of_reading hplace c.current) fun w₁ m n h₁ hm => ?_
    refine c.bind (c.openScope hm) fun w₂ i j h₂ hi => ?_
    exact alike_block hl site hi (hss.imp fun _ _ => c.stmt_later (c.later_trans h₁ h₂))
  | branch he hs ht =>
    refine c.bind (c.of_reading hplace (hl.evaluate he)) fun w₁ v v' h₁ hv => ?_
    rw [c.truth hv]
    split
    · exact hl.execute _ (c.stmt_later h₁ hs)
    · cases ht with
      | none => exact c.pure .normal
      | some hu => exact hl.execute _ (c.stmt_later h₁ hu)
  | loop he hs => exact alike_repeatWhile hl hplace site he hs fuel
  | function ht hd =>
    refine c.bind c.here fun w₁ m n h₁ hm => ?_
    have hf := c.closure site (c.declaration_later h₁ hd) hm
    exact c.bind (c.define ht hf) fun _ _ _ _ _ => c.pure .normal
  | ret he =>
    refine c.bind (c.of_reading hplace (alike_evaluateOptional hl he)) fun w₁ v v' h₁ hv => ?_
    exact c.pure (.returned hv)

end Layer

/-- Alike trees run alike with as much fuel. -/
theorem Comparison.alike_layerAs (c : Comparison) {host : Host} (hhost : host.Alike c.toLikeness)
    (fuel : Nat) :
    (layerAs c.shown host fuel).Alike c.toCongruence (layerAs c.shown' host fuel) := by
  induction fuel with
  | zero => exact ⟨fun _ => c.exhausted, fun _ _ => c.exhausted⟩
  | succ n ih =>
    exact ⟨fun he => Layer.alike_evaluateOf ih hhost (c.expr_parts he),
      fun site hs => Layer.alike_executeOf ih n site hs⟩

/-- Most comparisons are of runs that show every value as its text. -/
theorem Comparison.alike_layer (c : Comparison) {host : Host} (hhost : host.Alike c.toLikeness)
    (fuel : Nat) (hshown : c.shown = Value.text := by rfl)
    (hshown' : c.shown' = Value.text := by rfl) :
    (layer host fuel).Alike c.toCongruence (layer host fuel) := by
  have h := c.alike_layerAs hhost fuel
  rwa [hshown, hshown', layerAs_text] at h

end Lox
