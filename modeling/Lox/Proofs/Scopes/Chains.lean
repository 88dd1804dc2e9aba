import Lox.Store

/-!
What the scopes of a store bind, and the chain of scopes around each of them.

A chain runs outwards and its numbers decrease, so that none is met twice.  Making a scope and
binding a name are the only ways to change a store, and what either does to every single scope is
said here.
-/

namespace Lox
namespace Store

variable {σ τ : Store} {id : ScopeId} {x : String}

/-! ## One scope -/

def enclosing? (σ : Store) (id : ScopeId) : Option ScopeId := σ.scopes[id]?.bind Scope.enclosing

/-- The value that the scope itself binds to `x`, whatever is around it. -/
def local? (σ : Store) (id : ScopeId) (x : String) : Option Value :=
  σ.scopes[id]?.bind fun scope => scope.bindings.find? x

def Binds (σ : Store) (id : ScopeId) (x : String) : Prop := (σ.local? id x).isSome

theorem scopes_of_le (h : σ.size ≤ id) : σ.scopes[id]? = none := Array.getElem?_eq_none h

theorem lt_of_scopes {scope : Scope} (h : σ.scopes[id]? = some scope) : id < σ.size :=
  Nat.lt_of_not_le fun hle => by rw [scopes_of_le hle] at h; exact nomatch h

theorem enclosing?_of_le (h : σ.size ≤ id) : σ.enclosing? id = none := by
  rw [enclosing?, scopes_of_le h]
  rfl

theorem enclosing?_lt {outer : ScopeId} (h : σ.enclosing? id = some outer) : outer < id := by
  obtain ⟨scope, hs, he⟩ := Option.bind_eq_some_iff.mp h
  exact σ.enclosing_lt id scope outer hs he

theorem lt_of_local {v : Value} (h : σ.local? id x = some v) : id < σ.size := by
  obtain ⟨scope, hs, _⟩ := Option.bind_eq_some_iff.mp h
  exact lt_of_scopes hs

theorem Binds.lt (h : σ.Binds id x) : id < σ.size := by
  obtain ⟨v, hv⟩ := Option.isSome_iff_exists.mp h
  exact lt_of_local hv

/-! ## Making scopes and binding names -/

theorem scopes_addChild_of_lt (outer : ScopeId) (h : id < σ.size) :
    (σ.addChild outer).scopes[id]? = σ.scopes[id]? := by
  unfold addChild
  split <;> exact Array.getElem?_push_lt h ▸ (Array.getElem?_eq_getElem h).symm

theorem scopes_addChild_self (outer : ScopeId) :
    (σ.addChild outer).scopes[σ.size]? =
      some ⟨if outer < σ.size then some outer else none, []⟩ := by
  unfold addChild
  split <;> exact Array.getElem?_push_size

theorem enclosing?_addChild_of_lt (outer : ScopeId) (h : id < σ.size) :
    (σ.addChild outer).enclosing? id = σ.enclosing? id := by
  rw [enclosing?, scopes_addChild_of_lt outer h, enclosing?]

theorem enclosing?_addChild_self (outer : ScopeId) :
    (σ.addChild outer).enclosing? σ.size = if outer < σ.size then some outer else none := by
  rw [enclosing?, scopes_addChild_self]
  rfl

/-- A new scope binds nothing. -/
theorem local?_addChild (σ : Store) (outer id : ScopeId) (x : String) :
    (σ.addChild outer).local? id x = σ.local? id x := by
  unfold local?
  rcases Nat.lt_trichotomy id σ.size with h | rfl | h
  · rw [scopes_addChild_of_lt outer h]
  · rw [scopes_addChild_self, scopes_of_le (Nat.le_refl _)]
    rfl
  · rw [scopes_of_le (Nat.le_of_lt h), scopes_of_le (by rw [size_addChild]; exact h)]

theorem scopes_define_of_ne {i : ScopeId} (h : i ≠ id) (x : String) (v : Value) :
    (σ.define id x v).scopes[i]? = σ.scopes[i]? := by
  rw [define, Array.getElem?_modify, if_neg (Ne.symm h)]

theorem scopes_define_self (σ : Store) (id : ScopeId) (x : String) (v : Value) :
    (σ.define id x v).scopes[id]? =
      σ.scopes[id]?.map fun scope => { scope with bindings := scope.bindings.bind x v } := by
  rw [define, Array.getElem?_modify, if_pos rfl]

theorem enclosing?_define (σ : Store) (id : ScopeId) (x : String) (v : Value) (i : ScopeId) :
    (σ.define id x v).enclosing? i = σ.enclosing? i := by
  unfold enclosing?
  by_cases h : i = id
  · rw [h, scopes_define_self]
    cases σ.scopes[id]? <;> rfl
  · rw [scopes_define_of_ne h]

theorem local?_define_of_ne {i : ScopeId} {y : String} (h : i ≠ id ∨ y ≠ x) (v : Value) :
    (σ.define id x v).local? i y = σ.local? i y := by
  unfold local?
  by_cases hi : i = id
  · have hy := h.resolve_left fun hne => hne hi
    rw [hi, scopes_define_self]
    cases σ.scopes[id]? with
    | none => rfl
    | some scope => exact Bindings.find?_bind_of_ne hy v scope.bindings
  · rw [scopes_define_of_ne hi]

theorem local?_define_self (h : id < σ.size) (x : String) (v : Value) :
    (σ.define id x v).local? id x = some v := by
  rw [local?, scopes_define_self, Array.getElem?_eq_getElem h]
  exact Bindings.find?_bind_self x v _

/-- What is bound afterwards was bound before, apart from the new value. -/
theorem local?_of_define {i : ScopeId} {y : String} {v w : Value}
    (h : (σ.define id x v).local? i y = some w) : i = id ∧ w = v ∨ σ.local? i y = some w := by
  by_cases hc : i = id ∧ y = x
  · obtain ⟨rfl, rfl⟩ := hc
    have hlt : i < σ.size := σ.size_define i y v ▸ lt_of_local h
    rw [local?_define_self hlt] at h
    cases h
    exact .inl ⟨rfl, rfl⟩
  · rw [local?_define_of_ne (Decidable.not_and_iff_not_or_not.mp hc)] at h
    exact .inr h

/-! Changes to two stores of the same shape keep what they have in common. -/

theorem enclosing?_addChild_congr (hsize : τ.size = σ.size)
    (h : ∀ i, τ.enclosing? i = σ.enclosing? i) (outer i : ScopeId) :
    (τ.addChild outer).enclosing? i = (σ.addChild outer).enclosing? i := by
  rcases Nat.lt_trichotomy i σ.size with hlt | rfl | hgt
  · rw [enclosing?_addChild_of_lt _ hlt, enclosing?_addChild_of_lt _ (hsize.symm ▸ hlt), h]
  · rw [enclosing?_addChild_self, ← hsize, enclosing?_addChild_self]
  · rw [enclosing?_of_le (by rwa [size_addChild, hsize]),
      enclosing?_of_le (by rwa [size_addChild])]

/-- Binding a value in one store and what `f` makes of it in the other, under names that both stores
can tell from others. -/
theorem local?_define_map (hsize : τ.size = σ.size) {f : Value → Value} {i : ScopeId}
    {y x' y' : String} (hname : y' = x' ↔ y = x)
    (h : τ.local? i y' = (σ.local? i y).map f) (v : Value) :
    (τ.define id x' (f v)).local? i y' = ((σ.define id x v).local? i y).map f := by
  by_cases hc : i = id ∧ y = x
  · obtain ⟨rfl, rfl⟩ := hc
    obtain rfl := hname.mpr rfl
    by_cases hlt : i < σ.size
    · rw [local?_define_self hlt, local?_define_self (hsize.symm ▸ hlt)]
      rfl
    · have hle := Nat.not_lt.mp hlt
      rw [local?, local?, scopes_of_le (by rwa [size_define, hsize]),
        scopes_of_le (by rwa [size_define])]
      rfl
  · have hne : i ≠ id ∨ y ≠ x := Decidable.not_and_iff_not_or_not.mp hc
    have hne' : i ≠ id ∨ y' ≠ x' := hne.imp_right (mt hname.mp)
    rw [local?_define_of_ne hne, local?_define_of_ne hne', h]

theorem binds_define {i : ScopeId} {y : String} (v : Value) :
    (σ.define id x v).Binds i y ↔ σ.Binds i y ∨ i = id ∧ y = x ∧ id < σ.size := by
  by_cases h : i = id ∧ y = x
  · obtain ⟨rfl, rfl⟩ := h
    refine ⟨fun hb => .inr ⟨rfl, rfl, σ.size_define i y v ▸ hb.lt⟩, fun hb => ?_⟩
    have hlt : i < σ.size := hb.elim Binds.lt fun h => h.2.2
    rw [Binds, local?_define_self hlt]
    rfl
  · have hne : i ≠ id ∨ y ≠ x := Decidable.not_and_iff_not_or_not.mp h
    rw [Binds, local?_define_of_ne hne, ← Binds]
    exact ⟨.inl, fun hb => hb.resolve_right fun h' => h ⟨h'.1, h'.2.1⟩⟩

/-! ## Chains -/

/-- The scopes from `id` outwards. -/
def chain (σ : Store) (id : ScopeId) : List ScopeId :=
  if id < σ.size then
    match encloses : σ.enclosing? id with
    | none => [id]
    | some outer =>
      have _older : outer < id := enclosing?_lt encloses
      id :: σ.chain outer
  else
    []
termination_by id

theorem chain_of_le (h : σ.size ≤ id) : σ.chain id = [] := by
  rw [chain, if_neg (Nat.not_lt.mpr h)]

theorem chain_of_none (h : id < σ.size) (he : σ.enclosing? id = none) : σ.chain id = [id] := by
  rw [chain, if_pos h]
  split
  · rfl
  · next h' => rw [he] at h'; exact nomatch h'

theorem chain_of_some {outer : ScopeId} (h : id < σ.size) (he : σ.enclosing? id = some outer) :
    σ.chain id = id :: σ.chain outer := by
  rw [chain, if_pos h]
  split
  · next h' => rw [he] at h'; exact nomatch h'
  · next h' => rw [he] at h'; cases h'; rfl

theorem mem_chain_self (h : id < σ.size) : id ∈ σ.chain id := by
  cases he : σ.enclosing? id with
  | none => rw [chain_of_none h he]; exact List.mem_singleton_self _
  | some outer => rw [chain_of_some h he]; exact List.mem_cons_self

/-- No scope of a chain lies outside of where the chain starts. -/
theorem le_of_mem_chain {i : ScopeId} (h : i ∈ σ.chain id) : i ≤ id := by
  induction id using Nat.strongRecOn with
  | ind id ih =>
    by_cases hlt : id < σ.size
    · cases he : σ.enclosing? id with
      | none =>
        rw [chain_of_none hlt he, List.mem_singleton] at h
        exact Nat.le_of_eq h
      | some outer =>
        have hout := enclosing?_lt he
        rw [chain_of_some hlt he, List.mem_cons] at h
        rcases h with rfl | h
        · exact Nat.le_refl _
        · exact Nat.le_trans (ih outer hout h) (Nat.le_of_lt hout)
    · rw [chain_of_le (Nat.not_lt.mp hlt)] at h
      exact nomatch h

/-- A chain never comes back to a scope. -/
theorem chain_decreasing (σ : Store) (id : ScopeId) : (σ.chain id).Pairwise (· > ·) := by
  induction id using Nat.strongRecOn with
  | ind id ih =>
    by_cases hlt : id < σ.size
    · cases he : σ.enclosing? id with
      | none =>
        rw [chain_of_none hlt he]
        exact List.pairwise_singleton _ _
      | some outer =>
        have hout := enclosing?_lt he
        rw [chain_of_some hlt he]
        refine List.pairwise_cons.mpr ⟨fun i hi => ?_, ih outer hout⟩
        exact Nat.lt_of_le_of_lt (le_of_mem_chain hi) hout
    · rw [chain_of_le (Nat.not_lt.mp hlt)]
      exact List.Pairwise.nil

/-- A chain depends on nothing but the links between the scopes. -/
theorem chain_congr (hsize : σ.size ≤ τ.size)
    (he : ∀ i < σ.size, τ.enclosing? i = σ.enclosing? i) (h : id < σ.size) :
    τ.chain id = σ.chain id := by
  induction id using Nat.strongRecOn with
  | ind id ih =>
    have hτ := Nat.lt_of_lt_of_le h hsize
    cases hout : σ.enclosing? id with
    | none => rw [chain_of_none h hout, chain_of_none hτ (by rw [he id h, hout])]
    | some outer =>
      have hlt := enclosing?_lt hout
      rw [chain_of_some h hout, chain_of_some hτ (by rw [he id h, hout]),
        ih outer hlt (Nat.lt_trans hlt h)]

/-! ## Names along a chain -/

theorem find?_of_local {v : Value} (h : σ.local? id x = some v) : σ.find? x id = some (id, v) := by
  obtain ⟨scope, hs, hv⟩ := Option.bind_eq_some_iff.mp h
  rw [find?_eq, hs, Option.bind_some, hv]

theorem find?_of_not_local (h : σ.local? id x = none) :
    σ.find? x id = (σ.enclosing? id).bind (σ.find? x) := by
  rw [find?_eq, enclosing?]
  rw [local?] at h
  cases hs : σ.scopes[id]? with
  | none => rfl
  | some scope =>
    rw [hs, Option.bind_some] at h
    rw [Option.bind_some, Option.bind_some, h]

/-- If two stores have the same shape and one of them binds what `f` makes of the values of the
other, then looking up a name finds that as well. -/
theorem find?_map (henclosing : ∀ i, τ.enclosing? i = σ.enclosing? i) {f : Value → Value}
    {x' : String} (h : ∀ i, τ.local? i x' = (σ.local? i x).map f) (id : ScopeId) :
    τ.find? x' id = (σ.find? x id).map fun found => (found.1, f found.2) := by
  induction id using Nat.strongRecOn with
  | ind id ih =>
    have hlocal := h id
    cases hv : σ.local? id x with
    | some v =>
      rw [hv] at hlocal
      rw [find?_of_local hv, find?_of_local hlocal]
      rfl
    | none =>
      rw [hv] at hlocal
      rw [find?_of_not_local hv, find?_of_not_local hlocal, henclosing id]
      cases he : σ.enclosing? id with
      | none => rfl
      | some outer => exact ih outer (enclosing?_lt he)

/-- Looking a name up finds one of the chain's scopes, with the value that it binds. -/
theorem local?_of_find? {holder : ScopeId} {v : Value} (h : σ.find? x id = some (holder, v)) :
    holder ∈ σ.chain id ∧ σ.local? holder x = some v := by
  induction id using Nat.strongRecOn with
  | ind id ih =>
    cases hv : σ.local? id x with
    | some w =>
      rw [find?_of_local hv] at h
      cases h
      exact ⟨mem_chain_self (lt_of_local hv), hv⟩
    | none =>
      rw [find?_of_not_local hv] at h
      obtain ⟨outer, he, hout⟩ := Option.bind_eq_some_iff.mp h
      have hlt : id < σ.size := Nat.lt_of_not_le fun hle => by
        rw [enclosing?_of_le hle] at he
        exact nomatch he
      obtain ⟨hmem, hval⟩ := ih outer (enclosing?_lt he) hout
      exact ⟨chain_of_some hlt he ▸ List.mem_cons_of_mem _ hmem, hval⟩

/-- A name resolves exactly when a scope of the chain binds it. -/
theorem get?_isSome_iff : (σ.get? id x).isSome ↔ ∃ i ∈ σ.chain id, σ.Binds i x := by
  rw [get?, Option.isSome_map]
  constructor
  · intro h
    obtain ⟨⟨holder, v⟩, hf⟩ := Option.isSome_iff_exists.mp h
    obtain ⟨hmem, hv⟩ := local?_of_find? hf
    exact ⟨holder, hmem, by rw [Binds, hv]; rfl⟩
  · rintro ⟨i, hi, hb⟩
    induction id using Nat.strongRecOn with
    | ind id ih =>
      cases hv : σ.local? id x with
      | some v => rw [find?_of_local hv]; rfl
      | none =>
        have hne : i ≠ id := fun h => by rw [h, Binds, hv] at hb; exact nomatch hb
        have hlt : id < σ.size := Nat.lt_of_not_le fun hle => by
          rw [chain_of_le hle] at hi
          exact nomatch hi
        rw [find?_of_not_local hv]
        cases he : σ.enclosing? id with
        | none =>
          rw [chain_of_none hlt he, List.mem_singleton] at hi
          exact absurd hi hne
        | some outer =>
          rw [chain_of_some hlt he, List.mem_cons] at hi
          exact ih outer (enclosing?_lt he) (hi.resolve_left hne)

end Store
end Lox
