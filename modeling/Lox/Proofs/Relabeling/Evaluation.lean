import Lox.Proofs.Comparison.Evaluation
import Lox.Proofs.Relabeling.Tandem

/-!
Running relabeled trees.

A tree and its image run in tandem, provided that the natives cannot tell values from their images
either.
-/

namespace Lox

/-- Values with their images, one by one. -/
def Value.Images (r : Relabeling) (L : ScopeId → Prop) (vs ws : List Value) : Prop :=
  ws = vs.map (·.relabel r) ∧ ∀ v ∈ vs, Within L v.scopes

/-- Whether the natives give images for images. -/
def Host.Respects (host : Host) (r : Relabeling) (L : ScopeId → Prop) : Prop :=
  ∀ entry vs ws, Value.Images r L vs ws → (host entry vs).Image r L (host entry ws)

section

variable {r : Relabeling} {L : ScopeId → Prop}

theorem Value.images_iff {vs ws : List Value} :
    Value.Images r L vs ws ↔ List.Forall₂ (Value.Image r L) vs ws := by
  constructor
  · rintro ⟨rfl, hvs⟩
    induction vs with
    | nil => exact .nil
    | cons v vs ih =>
      obtain ⟨hv, hvs⟩ := List.forall_mem_cons.mp hvs
      exact .cons ⟨rfl, hv⟩ (ih hvs)
  · intro h
    induction h with
    | nil => exact ⟨rfl, nofun⟩
    | cons hv _ ih =>
      refine ⟨?_, List.forall_mem_cons.mpr ⟨hv.2, ih.2⟩⟩
      rw [hv.1, ih.1, List.map_cons]

/-! ## Trees -/

/-- An expression with its image. -/
def Expr.Image (r : Relabeling) (L : ScopeId → Prop) (e e' : Expr) : Prop :=
  e' = e.relabel r ∧ Within L e.scopes

/-- A statement with its image, where names can be bound. -/
def Stmt.Image (r : Relabeling) (L : ScopeId → Prop) (place : Place) (s s' : Stmt) : Prop :=
  place = .declaring ∧ s' = s.relabel r ∧ Within L s.scopes

theorem Expr.images_of_within {es : List Expr} (h : Within L (Expr.scopesAll es)) :
    List.Forall₂ (Expr.Image r L) es (Expr.relabelAll r es) := by
  induction es with
  | nil => exact .nil
  | cons e es ih => exact .cons ⟨rfl, h.left⟩ (ih h.right)

theorem Expr.optionalImage_of_within {e : Option Expr} (h : Within L (Expr.scopesOptional e)) :
    Option.Rel (Expr.Image r L) e (Expr.relabelOptional r e) := by
  cases e with
  | none => exact .none
  | some e => exact .some ⟨rfl, h⟩

theorem Stmt.images_of_within {ss : List Stmt} (h : Within L (Stmt.scopesAll ss)) :
    List.Forall₂ (Stmt.Image r L .declaring) ss (Stmt.relabelAll r ss) := by
  induction ss with
  | nil => exact .nil
  | cons s ss ih => exact .cons ⟨rfl, rfl, h.left⟩ (ih h.right)

end

/-! ## Comparing runs to runs of images -/

/-- What asks for less of the current scopes, and more of the results. -/
theorem Tandem.weaken {here here' : Prop} {r : Relabeling} {L : ScopeId → Prop} {α : Type}
    {R S : α → α → Prop} {p q : Action α} (h : Tandem here r L R p q) (hhere : here → here')
    (hR : ∀ a b, R a b → S a b) : Tandem here' r L S p q := fun m n hm =>
  (h m n ⟨hm.store, hm.sink, fun k => hm.current (hhere k)⟩).imp hR fun _ _ => id

/-- Everything is alike to its image. -/
def Comparison.images {r : Relabeling} {L : ScopeId → Prop} (hr : r.Faithful L) : Comparison where
  World := Unit
  Later _ _ := True
  token _ t t' := t' = r.token t
  value _ := Value.Image r L
  reads _ := ScopeId.Image r L
  scope _ := ScopeId.Image r L
  expr _ := Expr.Image r L
  stmt _ := Stmt.Image r L
  declaration _ d d' := d' = d.relabel r ∧ Within L d.scopes
  -- Names are looked up and bound where the current scopes are images.
  Acts _ place _ R p q := Tandem (place ≠ .anywhere) r L (R ()) p q
  later_trans _ _ := trivial
  value_later _ h := h
  scope_later _ h := h
  expr_later _ h := h
  stmt_later _ h := h
  declaration_later _ h := h
  value_parts := by
    rintro _ v _ ⟨rfl, hv⟩
    cases v with
    | function f =>
      obtain ⟨d, site, scope⟩ := f
      refine .function rfl ⟨rfl, hv scope List.mem_cons_self⟩ ⟨rfl, fun i hi => ?_⟩
      exact hv i (List.mem_cons_of_mem _ hi)
    | native f => exact .native
    | nil | bool _ | number _ | string _ => exact .other rfl rfl
  expr_parts := by
    rintro _ e _ ⟨rfl, he⟩
    cases e with
    | literal v => exact .literal ⟨rfl, he⟩
    | grouping e => exact .grouping ⟨rfl, he⟩
    | unary t e => exact .unary rfl ⟨rfl, he⟩
    | binary left t right => exact .binary ⟨rfl, he.left⟩ rfl ⟨rfl, he.right⟩
    | logical left t right => exact .logical ⟨rfl, he.left⟩ rfl ⟨rfl, he.right⟩
    | «variable» t => exact .variable rfl
    | assign t e => exact .assign rfl ⟨rfl, he⟩
    | call f t es => exact .call ⟨rfl, he.left⟩ rfl (Expr.images_of_within he.right)
  stmt_parts := by
    rintro _ _ s _ ⟨rfl, rfl, hs⟩
    cases s with
    | print t e => exact .print rfl ⟨rfl, hs⟩
    | expression e => exact .expression ⟨rfl, hs⟩
    | declare t e => exact .declare rfl (Expr.optionalImage_of_within hs)
    | block ss => exact .block (Stmt.images_of_within hs)
    | branch c s t =>
      refine .branch ⟨rfl, hs.left.left⟩ ⟨rfl, rfl, hs.left.right⟩ ?_
      cases t with
      | none => exact .none
      | some u => exact .some ⟨rfl, rfl, hs.right⟩
    | loop c s => exact .loop ⟨rfl, hs.left⟩ ⟨rfl, rfl, hs.right⟩
    | function d => exact .function (by cases d; rfl) ⟨rfl, hs⟩
    | ret t e => exact .ret (Expr.optionalImage_of_within hs)
  stmt_place := by
    rintro _ _ _ _ ⟨rfl, -⟩
    exact nofun
  declaration_parts := by
    rintro _ ⟨name, parameters, body⟩ _ ⟨rfl, hd⟩
    refine ⟨?_, Stmt.images_of_within hd⟩
    exact List.forall₂_map_right_iff.mpr (List.forall₂_same.mpr fun _ _ => rfl)
  truth := by
    rintro _ v _ ⟨rfl, -⟩
    exact Value.truth_relabel r v
  nil := ⟨rfl, .nil⟩
  closure := by
    rintro _ d _ i _ site ⟨rfl, hd⟩ ⟨rfl, hi⟩
    exact ⟨rfl, List.forall_mem_cons.mpr ⟨hi, hd⟩⟩
  pure h := .pure h
  bind hp hf := .bind hp fun a b h => hf () a b trivial h
  of_reading hplace h := h.weaken (fun _ => hplace) fun _ _ => id
  exhausted := .throw .outOfFuel
  sign := by
    rintro _ _ t _ v _ rfl ⟨rfl, hv⟩
    rw [Token.kind_relabel hr, Value.unary_relabel]
    exact .blame t fun u hu => Value.within_of_unary hu
  operator := by
    rintro _ _ t _ u _ v _ rfl ⟨rfl, hu⟩ ⟨rfl, hv⟩
    rw [Token.kind_relabel hr, Value.binary_relabel hr _ hu hv]
    exact .blame t fun u hu => Value.within_of_binary hu
  connective := by
    rintro t _ rfl
    exact Token.kind_relabel hr t
  unknown := by
    rintro _ _ t _ _ _ rfl _ _
    exact .fail t _
  notCallable := by
    rintro _ _ t _ _ _ _ rfl
    exact .fail t _
  wrongArity := by
    rintro _ _ t _ _ _ _ _ _ _ rfl _ _ _
    exact .fail t _
  lookup := by
    rintro _ t _ rfl
    exact (Tandem.lookup hr t).weaken (fun _ => nofun) fun _ _ => id
  assign := by
    rintro _ t _ v _ rfl hv
    exact (Tandem.assign hr t hv).weaken (fun _ => nofun) fun _ _ => id
  define := by
    rintro _ t _ v _ rfl hv
    exact (Tandem.define hr t hv).weaken (fun _ => nofun) fun _ _ => id
  bindIn := by
    rintro _ _ t _ i j v v' rfl hi hv m n hm
    rw [hr.lexeme]
    exact .ok trivial (.define hr hm hi t.lexeme hv)
  current := Tandem.get.weaken (fun _ => nofun) fun _ _ => id
  here := Tandem.get.weaken (fun _ => nofun) fun _ _ => id
  openScope := .openScope
  inScope hi h := .inScope hi (h.weaken (fun _ => trivial) fun _ _ => id)
  print := by
    rintro _ _ t _ v _ rfl hv
    rw [Action.printAs_text]
    exact .print hr t hv

section

variable {r : Relabeling} {L : ScopeId → Prop} (hr : r.Faithful L)

theorem Host.Respects.alike {host : Host} (h : host.Respects r L) :
    host.Alike (Comparison.images hr).toLikeness :=
  fun _ entry vs ws hvs => h entry vs ws (Value.images_iff.mpr hvs)

theorem Flow.Image.of_parts {a b : Flow} (h : (Comparison.images hr).FlowParts () a b) :
    Flow.Image r L a b := by
  cases h with
  | normal => exact .normal
  | returned hv => exact .returned hv

/-! ## Layers -/

/-- Trees and their images run in tandem at any depth. -/
theorem respects_layer {host : Host} (hh : host.Respects r L) (fuel : Nat) :
    (layer host fuel).Alike (Comparison.images hr).toCongruence (layer host fuel) :=
  (Comparison.images hr).alike_layer (hh.alike hr) fuel

namespace Layer

variable {here : Prop} {l : Layer}

theorem tandem_sequence {hr : r.Faithful L} (hl : l.Alike (Comparison.images hr).toCongruence l)
    (outer : Site) (first : Nat) (ss : List Stmt) (hss : Within L (Stmt.scopesAll ss)) :
    Tandem True r L (Flow.Image r L) (l.sequence outer first ss)
      (l.sequence outer first (Stmt.relabelAll r ss)) := by
  have halike : (Comparison.images hr).Acts () _ _ _ _ :=
    alike_sequence hl outer first (Stmt.images_of_within hss)
  exact halike.weaken (fun _ => trivial) fun _ _ => .of_parts hr

theorem tandem_block {hr : r.Faithful L} (hl : l.Alike (Comparison.images hr).toCongruence l)
    (site : Site) (body : List Stmt) {i j : ScopeId} (hi : ScopeId.Image r L i j)
    (hbody : Within L (Stmt.scopesAll body)) :
    Tandem here r L (Flow.Image r L) (l.block site body i)
      (l.block site (Stmt.relabelAll r body) j) :=
  .inScope hi (tandem_sequence hl site 0 body hbody)

theorem tandem_call (hl : l.Alike (Comparison.images hr).toCongruence l) (f : Closure)
    (hf : Within L f.scopes) {vs ws : List Value} (hvs : Value.Images r L vs ws) :
    Tandem here r L (Value.Image r L) (l.call f vs) (l.call (f.relabel r) ws) := by
  obtain ⟨d, site, scope⟩ := f
  have hscope : L scope := hf scope List.mem_cons_self
  have hd : Within L d.scopes := fun i hi => hf i (List.mem_cons_of_mem _ hi)
  have halike : (Comparison.images hr).Acts () .anywhere (Comparison.images hr).value
      (l.call ⟨d, site, scope⟩ vs) (l.call (Closure.relabel r ⟨d, site, scope⟩) ws) :=
    alike_call hl rfl ⟨rfl, hscope⟩ ⟨rfl, hd⟩ (Value.images_iff.mp hvs)
  exact halike.weaken (absurd rfl) fun _ _ => id

end Layer
end

end Lox
