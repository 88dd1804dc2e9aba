import Lox.Proofs.Scopes.Chains

/-!
Names along the chain of a scope.

What a scope sees of a name is what the first scope of its chain that binds it binds.  So a new
binding is seen from exactly the chains that come to it before they come to another one.
-/

namespace Lox
namespace Store

variable {σ τ : Store} {id holder : ScopeId} {x y : String} {v : Value}

/-- The first scope of the chain that binds `x`. -/
def nearest? (σ : Store) (x : String) (id : ScopeId) : Option ScopeId :=
  (σ.chain id).find? fun i => (σ.local? i x).isSome

/-- Whether the chain comes to `holder` before it comes to another scope that binds `x`. -/
def Exposed (σ : Store) (x : String) (holder : ScopeId) (chain : List ScopeId) : Prop :=
  ∃ near far, chain = near ++ holder :: far ∧ ∀ i ∈ near, ¬σ.Binds i x

/-! ## Looking a name up -/

theorem chain_eq (h : id < σ.size) :
    σ.chain id = id :: ((σ.enclosing? id).map σ.chain).getD [] := by
  cases he : σ.enclosing? id with
  | none => exact chain_of_none h he
  | some outer => exact chain_of_some h he

/-- A name is looked up in one scope of the chain after the other. -/
theorem find?_eq_findSome? (σ : Store) (x : String) (id : ScopeId) :
    σ.find? x id = (σ.chain id).findSome? fun i => (σ.local? i x).map (i, ·) := by
  induction id using Nat.strongRecOn with
  | ind id ih =>
    cases hv : σ.local? id x with
    | some v =>
      rw [find?_of_local hv, chain_eq (lt_of_local hv), List.findSome?_cons, hv]
      rfl
    | none =>
      rw [find?_of_not_local hv]
      by_cases hlt : id < σ.size
      · rw [chain_eq hlt, List.findSome?_cons, hv]
        cases he : σ.enclosing? id with
        | none => rfl
        | some outer => exact ih outer (enclosing?_lt he)
      · rw [enclosing?_of_le (Nat.not_lt.mp hlt), chain_of_le (Nat.not_lt.mp hlt)]
        rfl

theorem get?_eq_findSome? (σ : Store) (id : ScopeId) (x : String) :
    σ.get? id x = (σ.chain id).findSome? fun i => σ.local? i x := by
  rw [get?, find?_eq_findSome?, List.map_findSome?]
  congr 1
  funext i
  rw [Function.comp_apply, Option.map_map]
  exact Option.map_id_apply

/-- The holder that an assignment finds is the nearest one. -/
theorem nearest?_eq (σ : Store) (x : String) (id : ScopeId) :
    σ.nearest? x id = (σ.find? x id).map Prod.fst := by
  rw [nearest?, find?_eq_findSome?, List.map_findSome?, List.find?_eq_findSome?_guard]
  congr 1
  funext i
  rw [Function.comp_apply, Option.map_map, Option.guard]
  cases σ.local? i x <;> rfl

/-! ## Binding a name -/

theorem exposed_cons {i : ScopeId} {chain : List ScopeId} :
    σ.Exposed x holder (i :: chain) ↔ i = holder ∨ ¬σ.Binds i x ∧ σ.Exposed x holder chain := by
  constructor
  · rintro ⟨near, far, hchain, hnear⟩
    cases near with
    | nil => exact .inl (List.cons.inj hchain).1
    | cons j near =>
      obtain ⟨rfl, rfl⟩ := List.cons.inj hchain
      obtain ⟨hi, hnear⟩ := List.forall_mem_cons.mp hnear
      exact .inr ⟨hi, near, far, rfl, hnear⟩
  · rintro (rfl | ⟨hi, near, far, rfl, hnear⟩)
    · exact ⟨[], chain, rfl, nofun⟩
    · exact ⟨i :: near, far, rfl, List.forall_mem_cons.mpr ⟨hi, hnear⟩⟩

/-- Being exposed is being the nearest one, for a scope that binds the name. -/
theorem exposed_iff_nearest? (h : σ.Binds holder x) :
    σ.Exposed x holder (σ.chain id) ↔ σ.nearest? x id = some holder := by
  unfold Exposed nearest?
  rw [List.find?_eq_some_iff_append]
  have hbinds : ∀ i, ¬σ.Binds i x ↔ (!(σ.local? i x).isSome) = true := fun i => by
    rw [Binds, Bool.not_eq_true, Bool.not_eq_eq_eq_not, Bool.not_true]
  constructor
  · rintro ⟨near, far, hchain, hnear⟩
    exact ⟨h, near, far, hchain, fun i hi => (hbinds i).mp (hnear i hi)⟩
  · rintro ⟨-, near, far, hchain, hnear⟩
    exact ⟨near, far, hchain, fun i hi => (hbinds i).mpr (hnear i hi)⟩

theorem chain_define (σ : Store) (holder : ScopeId) (x : String) (v : Value) (id : ScopeId) :
    (σ.define holder x v).chain id = σ.chain id := by
  by_cases h : id < σ.size
  · exact chain_congr (Nat.le_of_eq (σ.size_define holder x v).symm)
      (fun i _ => enclosing?_define σ holder x v i) h
  · rw [chain_of_le (Nat.not_lt.mp h), chain_of_le (by rw [size_define]; exact Nat.not_lt.mp h)]

/-- Along any chain, the new value is seen where it is exposed. -/
theorem findSome?_define_of_exposed (h : holder < σ.size) {chain : List ScopeId}
    (he : σ.Exposed x holder chain) :
    (chain.findSome? fun i => (σ.define holder x v).local? i x) = some v := by
  induction chain with
  | nil =>
    obtain ⟨near, far, hchain, -⟩ := he
    exact absurd hchain.symm (List.append_ne_nil_of_right_ne_nil _ (List.cons_ne_nil _ _))
  | cons i chain ih =>
    rw [List.findSome?_cons]
    by_cases hi : i = holder
    · rw [hi, local?_define_self h]
    · obtain ⟨hunbound, he⟩ := (exposed_cons.mp he).resolve_left hi
      have hnone : σ.local? i x = none := by
        rwa [Binds, Option.not_isSome_iff_eq_none] at hunbound
      rw [local?_define_of_ne (.inl hi), hnone]
      exact ih he

/-- Elsewhere everything is seen as before. -/
theorem findSome?_define_of_hidden {chain : List ScopeId}
    (he : y = x → ¬σ.Exposed x holder chain) :
    (chain.findSome? fun i => (σ.define holder x v).local? i y) =
      chain.findSome? fun i => σ.local? i y := by
  induction chain with
  | nil => rfl
  | cons i chain ih =>
    rw [List.findSome?_cons, List.findSome?_cons]
    have hi : i ≠ holder ∨ y ≠ x := Decidable.not_and_iff_not_or_not.mp
      fun h => he h.2 (exposed_cons.mpr (.inl h.1))
    rw [local?_define_of_ne hi]
    cases hv : σ.local? i y with
    | some w => rfl
    | none =>
      refine ih fun hyx hexposed => he hyx (exposed_cons.mpr (.inr ⟨?_, hexposed⟩))
      rw [← hyx, Binds, hv]
      exact Bool.false_ne_true

theorem get?_define_of_exposed (h : holder < σ.size) (he : σ.Exposed x holder (σ.chain id)) :
    (σ.define holder x v).get? id x = some v := by
  rw [get?_eq_findSome?, chain_define]
  exact findSome?_define_of_exposed h he

theorem get?_define_of_hidden (he : y = x → ¬σ.Exposed x holder (σ.chain id)) :
    (σ.define holder x v).get? id y = σ.get? id y := by
  rw [get?_eq_findSome?, get?_eq_findSome?, chain_define]
  exact findSome?_define_of_hidden he

/-! ## Stores that differ elsewhere -/

theorem findSome?_congr {α β : Type} {f g : α → Option β} {l : List α}
    (h : ∀ a ∈ l, f a = g a) : l.findSome? f = l.findSome? g := by
  induction l with
  | nil => rfl
  | cons a l ih =>
    obtain ⟨ha, hl⟩ := List.forall_mem_cons.mp h
    rw [List.findSome?_cons, List.findSome?_cons, ha, ih hl]

/-- Whether the chain of `id` in `σ` has the same scopes in `τ`. -/
def SameFrom (σ τ : Store) (id : ScopeId) : Prop :=
  id < σ.size ∧ ∀ i ∈ σ.chain id, τ.scopes[i]? = σ.scopes[i]?

namespace SameFrom

theorem local?_eq {i : ScopeId} (h : τ.scopes[i]? = σ.scopes[i]?) (x : String) :
    τ.local? i x = σ.local? i x := by
  rw [local?, h, local?]

theorem chain_eq (h : σ.SameFrom τ id) : τ.chain id = σ.chain id := by
  obtain ⟨hlt, h⟩ := h
  induction id using Nat.strongRecOn with
  | ind id ih =>
    have hself := h id (mem_chain_self hlt)
    have hltτ : id < τ.size := by
      rw [Array.getElem?_eq_getElem hlt] at hself
      exact lt_of_scopes hself
    have henclosing : τ.enclosing? id = σ.enclosing? id := by rw [enclosing?, hself, enclosing?]
    cases he : σ.enclosing? id with
    | none => rw [chain_of_none hlt he, chain_of_none hltτ (henclosing.trans he)]
    | some outer =>
      have hout := enclosing?_lt he
      rw [chain_of_some hlt he, chain_of_some hltτ (henclosing.trans he)]
      rw [chain_of_some hlt he] at h
      rw [ih outer hout (Nat.lt_trans hout hlt) fun i hi => h i (List.mem_cons_of_mem _ hi)]

theorem find?_eq (h : σ.SameFrom τ id) (x : String) : τ.find? x id = σ.find? x id := by
  rw [find?_eq_findSome?, find?_eq_findSome?, h.chain_eq]
  refine findSome?_congr fun i hi => ?_
  rw [local?_eq (h.2 i hi)]

theorem get?_eq (h : σ.SameFrom τ id) (x : String) : τ.get? id x = σ.get? id x := by
  rw [get?, h.find?_eq, get?]

theorem trans {ρ : Store} (h : σ.SameFrom τ id) (h' : τ.SameFrom ρ id) : σ.SameFrom ρ id :=
  ⟨h.1, fun i hi => (h'.2 i (h.chain_eq ▸ hi)).trans (h.2 i hi)⟩

theorem refl (h : id < σ.size) : σ.SameFrom σ id := ⟨h, fun _ _ => rfl⟩

theorem symm (h : σ.SameFrom τ id) : τ.SameFrom σ id := by
  refine ⟨?_, fun i hi => (h.2 i (h.chain_eq ▸ hi)).symm⟩
  have hself := h.2 id (mem_chain_self h.1)
  rw [Array.getElem?_eq_getElem h.1] at hself
  exact lt_of_scopes hself

theorem define (h : σ.SameFrom τ id) (holder : ScopeId) (x : String) (v : Value) :
    (σ.define holder x v).SameFrom (τ.define holder x v) id := by
  refine ⟨by rw [size_define]; exact h.1, fun i hi => ?_⟩
  rw [chain_define] at hi
  by_cases hholder : i = holder
  · rw [← hholder, scopes_define_self, scopes_define_self, h.2 i hi]
  · rw [scopes_define_of_ne hholder, scopes_define_of_ne hholder, h.2 i hi]

end SameFrom

/-! ## New scopes -/

theorem chain_addChild_of_lt (outer : ScopeId) (h : id < σ.size) :
    (σ.addChild outer).chain id = σ.chain id :=
  chain_congr (by rw [size_addChild]; exact Nat.le_succ _)
    (fun _ hi => enclosing?_addChild_of_lt outer hi) h

theorem sameFrom_addChild (outer : ScopeId) (h : id < σ.size) :
    σ.SameFrom (σ.addChild outer) id :=
  ⟨h, fun _ hi => scopes_addChild_of_lt outer (Nat.lt_of_le_of_lt (le_of_mem_chain hi) h)⟩

/-- A scope without anything around it is made inside a scope that does not exist. -/
theorem addRoot_eq (σ : Store) : σ.addRoot = σ.addChild σ.size := by
  rw [addChild, dif_neg (Nat.lt_irrefl _)]

/-- New scopes inside the same scopes are the same. -/
theorem sameFrom_addChild_self {outer : ScopeId} (hsize : τ.size = σ.size)
    (h : outer < σ.size → σ.SameFrom τ outer) :
    (σ.addChild outer).SameFrom (τ.addChild outer) σ.size := by
  have hlt : σ.size < (σ.addChild outer).size := by
    rw [size_addChild]
    exact Nat.lt_succ_self _
  have hself : (τ.addChild outer).scopes[σ.size]? = (σ.addChild outer).scopes[σ.size]? := by
    rw [scopes_addChild_self, ← hsize, scopes_addChild_self]
  refine ⟨hlt, fun i hi => ?_⟩
  rw [chain_eq hlt, enclosing?_addChild_self] at hi
  rcases List.mem_cons.mp hi with rfl | hi
  · exact hself
  · by_cases houter : outer < σ.size
    · rw [if_pos houter] at hi
      have hi : i ∈ σ.chain outer := chain_addChild_of_lt outer houter ▸ hi
      have hlti := Nat.lt_of_le_of_lt (le_of_mem_chain hi) houter
      rw [scopes_addChild_of_lt outer hlti, scopes_addChild_of_lt outer (hsize ▸ hlti)]
      exact (h houter).2 i hi
    · rw [if_neg houter] at hi
      exact absurd hi List.not_mem_nil

end Store
end Lox
