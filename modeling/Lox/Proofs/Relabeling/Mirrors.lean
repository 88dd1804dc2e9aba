import Lox.Machine
import Lox.Proofs.Evaluation.Functions
import Lox.Proofs.Relabeling.Trees
import Lox.Proofs.Scopes.Chains

/-!
Stores that mirror one another.

A store mirrors another one on a set of scopes when a relabeling turns what the scopes of the set
hold in one into what their images hold in the other.  Nothing is asked of any other scope.
-/

namespace Lox

/-- A relabeling that cannot be noticed by looking at tokens and at scopes of `L`. -/
structure Relabeling.Faithful (r : Relabeling) (L : ScopeId → Prop) : Prop where
  form : ∀ t, (r.token t).form = t.form
  lexeme : ∀ t, (r.token t).lexeme = t.lexeme
  injective : ∀ i j, L i → L j → r.scope i = r.scope j → i = j

/-! ## Values -/

section

variable {r : Relabeling} {L : ScopeId → Prop} (hr : r.Faithful L)

theorem Value.relabel_eq (r : Relabeling) :
    Value.relabel r = Value.mapFunction (·.relabel r) := by
  funext v
  cases v <;> rfl

theorem Value.truth_relabel (r : Relabeling) (v : Value) : (v.relabel r).truth = v.truth := by
  rw [Value.relabel_eq, Value.truth_mapFunction]

include hr

theorem Token.kind_relabel (t : Token) : (r.token t).kind = t.kind := by
  rw [Token.kind, hr.form, Token.kind]

theorem Closure.name_relabel (f : Closure) : (f.relabel r).name = f.name := by
  obtain ⟨⟨name, parameters, body⟩, site, scope⟩ := f
  exact hr.lexeme name

theorem Value.text_relabel (v : Value) : (v.relabel r).text = v.text := by
  rw [Value.relabel_eq, Value.text_mapFunction (Closure.name_relabel hr)]

theorem Closure.same_relabel {f g : Closure} (hf : Within L f.scopes) (hg : Within L g.scopes) :
    (f.relabel r).same (g.relabel r) = f.same g := by
  rw [Closure.same, Closure.name_relabel hr, Closure.name_relabel hr]
  obtain ⟨d, site, scope⟩ := f
  obtain ⟨d', site', scope'⟩ := g
  have hscope : (r.scope scope == r.scope scope') = (scope == scope') := by
    rw [Bool.eq_iff_iff, beq_iff_eq, beq_iff_eq]
    exact ⟨hr.injective _ _ (hf _ List.mem_cons_self) (hg _ List.mem_cons_self),
      congrArg r.scope⟩
  simp only [Closure.relabel, Closure.same, hscope]

theorem Value.equals_relabel {v w : Value} (hv : Within L v.scopes) (hw : Within L w.scopes) :
    (v.relabel r).equals (w.relabel r) = v.equals w := by
  rw [Value.relabel_eq]
  refine Value.equals_mapFunction fun f g hf hg => ?_
  subst hf hg
  exact Closure.same_relabel hr hv hw

omit hr in
theorem Value.unary_relabel (r : Relabeling) (operator : Kind) (v : Value) :
    (v.relabel r).unary operator = (v.unary operator).map (·.relabel r) := by
  rw [Value.relabel_eq, Value.unary_mapFunction]

omit hr in
/-- Equality is the only operator that can tell values from their images. -/
theorem Value.binary_relabel_of_equals (operator : Kind) {v w : Value}
    (hequals : (v.relabel r == w.relabel r) = (v == w)) :
    (v.relabel r).binary operator (w.relabel r) = (v.binary operator w).map (·.relabel r) := by
  rw [Value.relabel_eq] at hequals ⊢
  exact Value.binary_mapFunction operator hequals

theorem Value.binary_relabel (operator : Kind) {v w : Value} (hv : Within L v.scopes)
    (hw : Within L w.scopes) : (v.relabel r).binary operator (w.relabel r) =
      (v.binary operator w).map (·.relabel r) :=
  Value.binary_relabel_of_equals operator (Value.equals_relabel hr hv hw)

/-! Operators give no functions. -/

omit hr in
theorem Value.within_of_unary {operator : Kind} {v u : Value} (h : v.unary operator = .ok u) :
    Within L u.scopes := by
  unfold Value.unary at h
  split at h <;> cases h <;> exact .nil

omit hr in
theorem Value.within_of_arithmetic {operator : Kind} {x y : Float} {u : Value}
    (h : Value.arithmetic operator x y = .ok u) : Within L u.scopes := by
  unfold Value.arithmetic at h
  split at h <;> cases h <;> exact .nil

omit hr in
theorem Value.within_of_binary {operator : Kind} {v w u : Value}
    (h : v.binary operator w = .ok u) : Within L u.scopes := by
  unfold Value.binary at h
  split at h
  · cases h
    exact .nil
  · cases h
    exact .nil
  · split at h <;> cases h <;> exact .nil
  · split at h
    · exact Value.within_of_arithmetic h
    · exact nomatch h

end

/-! ## Stores -/

/-- Whether the scopes of `L` in `σ` look like their images in `τ`.  The scopes of `L` lead to one
another only, and any scope that may still be made belongs to them. -/
structure Store.Mirrors (r : Relabeling) (L : ScopeId → Prop) (σ τ : Store) : Prop where
  size : ∀ id, L id → (r.scope id < τ.size ↔ id < σ.size)
  enclosing : ∀ id, L id → τ.enclosing? (r.scope id) = (σ.enclosing? id).map r.scope
  bindings : ∀ id, L id → ∀ x, τ.local? (r.scope id) x = (σ.local? id x).map (·.relabel r)
  outer : ∀ id outer, L id → σ.enclosing? id = some outer → L outer
  values : ∀ id x v, L id → σ.local? id x = some v → Within L v.scopes
  fresh : ∀ k, L (σ.size + k) ∧ r.scope (σ.size + k) = τ.size + k

namespace Store.Mirrors

variable {r : Relabeling} {L : ScopeId → Prop} {σ τ : Store} {id : ScopeId} {x : String}

theorem find? (h : Mirrors r L σ τ) (hid : L id) :
    τ.find? x (r.scope id) = (σ.find? x id).map fun found =>
      (r.scope found.1, found.2.relabel r) := by
  induction id using Nat.strongRecOn with
  | ind id ih =>
    have hlocal := h.bindings id hid x
    cases hv : σ.local? id x with
    | some v =>
      rw [hv] at hlocal
      rw [find?_of_local hv, find?_of_local hlocal]
      rfl
    | none =>
      rw [hv] at hlocal
      rw [find?_of_not_local hv, find?_of_not_local hlocal, h.enclosing id hid]
      cases he : σ.enclosing? id with
      | none => rfl
      | some outer => exact ih outer (enclosing?_lt he) (h.outer id outer hid he)

theorem holder (h : Mirrors r L σ τ) (hid : L id) {found : ScopeId × Value}
    (hf : σ.find? x id = some found) : L found.1 ∧ Within L found.2.scopes := by
  induction id using Nat.strongRecOn with
  | ind id ih =>
    cases hv : σ.local? id x with
    | some v =>
      rw [find?_of_local hv] at hf
      cases hf
      exact ⟨hid, h.values id x v hid hv⟩
    | none =>
      rw [find?_of_not_local hv] at hf
      obtain ⟨outer, he, hout⟩ := Option.bind_eq_some_iff.mp hf
      exact ih outer (enclosing?_lt he) (h.outer id outer hid he) hout

theorem get? (h : Mirrors r L σ τ) (hid : L id) :
    τ.get? (r.scope id) x = (σ.get? id x).map (·.relabel r) := by
  rw [Store.get?, Store.get?, h.find? hid]
  cases σ.find? x id <;> rfl

theorem within_of_get? (h : Mirrors r L σ τ) (hid : L id) {v : Value}
    (hv : σ.get? id x = some v) : Within L v.scopes := by
  obtain ⟨found, hf, rfl⟩ := Option.map_eq_some_iff.mp hv
  exact (h.holder hid hf).2

theorem define (hr : r.Faithful L) (h : Mirrors r L σ τ) (hid : L id) (x : String) {v : Value}
    (hv : Within L v.scopes) :
    Mirrors r L (σ.define id x v) (τ.define (r.scope id) x (v.relabel r)) where
  size i hi := by rw [size_define, size_define, h.size i hi]
  enclosing i hi := by rw [enclosing?_define, enclosing?_define, h.enclosing i hi]
  outer i outer hi he := h.outer i outer hi (by rwa [enclosing?_define] at he)
  fresh k := by rw [size_define, size_define]; exact h.fresh k
  bindings i hi y := by
    by_cases hc : i = id ∧ y = x
    · obtain ⟨rfl, rfl⟩ := hc
      by_cases hlt : i < σ.size
      · rw [local?_define_self hlt, local?_define_self ((h.size i hi).mpr hlt)]
        rfl
      · have hle := Nat.not_lt.mp hlt
        have hle' := Nat.not_lt.mp ((not_congr (h.size i hi)).mpr hlt)
        rw [local?, local?, scopes_of_le (by rwa [size_define]),
          scopes_of_le (by rwa [size_define])]
        rfl
    · have hne : i ≠ id ∨ y ≠ x := Decidable.not_and_iff_not_or_not.mp hc
      have hne' : r.scope i ≠ r.scope id ∨ y ≠ x :=
        hne.imp_left fun hi' he => hi' (hr.injective i id hi hid he)
      rw [local?_define_of_ne hne, local?_define_of_ne hne', h.bindings i hi y]
  values i y w hi hw := by
    rcases local?_of_define hw with ⟨_, rfl⟩ | hw
    · exact hv
    · exact h.values i y w hi hw

theorem addChild (h : Mirrors r L σ τ) {around : ScopeId} (ho : L around) :
    Mirrors r L (σ.addChild around) (τ.addChild (r.scope around)) where
  bindings i hi y := by rw [local?_addChild, local?_addChild, h.bindings i hi y]
  values i y v hi hv := h.values i y v hi (by rwa [local?_addChild] at hv)
  fresh k := by
    have hk := h.fresh (1 + k)
    rwa [← Nat.add_assoc, ← Nat.add_assoc, ← size_addChild σ around,
      ← size_addChild τ (r.scope around)] at hk
  size i hi := by
    rw [size_addChild, size_addChild]
    by_cases hlt : i < σ.size
    · exact iff_of_true (Nat.lt_succ_of_lt ((h.size i hi).mpr hlt)) (Nat.lt_succ_of_lt hlt)
    · obtain ⟨k, rfl⟩ := Nat.exists_eq_add_of_le (Nat.not_lt.mp hlt)
      rw [(h.fresh k).2, Nat.add_lt_add_iff_left, Nat.add_lt_add_iff_left]
  enclosing i hi := by
    rcases Nat.lt_trichotomy i σ.size with hlt | rfl | hgt
    · rw [enclosing?_addChild_of_lt _ hlt, enclosing?_addChild_of_lt _ ((h.size i hi).mpr hlt),
        h.enclosing i hi]
    · have himage : r.scope σ.size = τ.size := (h.fresh 0).2
      rw [himage, enclosing?_addChild_self, enclosing?_addChild_self]
      by_cases hlt : around < σ.size
      · rw [if_pos hlt, if_pos ((h.size around ho).mpr hlt)]
        rfl
      · rw [if_neg hlt, if_neg (mt (h.size around ho).mp hlt)]
        rfl
    · obtain ⟨k, rfl⟩ := Nat.exists_eq_add_of_lt hgt
      have himage : r.scope (σ.size + k + 1) = τ.size + k + 1 := (h.fresh (k + 1)).2
      have hleft : (σ.addChild around).size ≤ σ.size + k + 1 := by
        rw [size_addChild]
        exact hgt
      have hright : (τ.addChild (r.scope around)).size ≤ τ.size + k + 1 := by
        rw [size_addChild]
        exact Nat.succ_le_succ (Nat.le_add_right _ _)
      rw [himage, enclosing?_of_le hleft, enclosing?_of_le hright]
      rfl
  outer i outer hi he := by
    rcases Nat.lt_trichotomy i σ.size with hlt | rfl | hgt
    · exact h.outer i outer hi (by rwa [enclosing?_addChild_of_lt _ hlt] at he)
    · rw [enclosing?_addChild_self] at he
      split at he
      · cases he
        exact ho
      · exact nomatch he
    · rw [enclosing?_of_le (by rw [size_addChild]; exact hgt)] at he
      exact nomatch he

end Store.Mirrors
/-! ## Relabeled stores

Relabeling the values of a store gives one that it mirrors, if the relabeling can be undone. -/

/-- Whether `r` takes back what `q` does to tokens, and neither changes scopes. -/
structure Relabeling.Undoes (r q : Relabeling) : Prop where
  token : ∀ t, r.token (q.token t) = t
  scope : ∀ s, q.scope s = s
  scope' : ∀ s, r.scope s = s

/-- Every scope there may be. -/
def everywhere : ScopeId → Prop := fun _ => True

section

variable {r q : Relabeling}

theorem Relabeling.Undoes.fixes (h : r.Undoes q) (ss : List ScopeId) : (q.then r).Fixes ss :=
  ⟨h.token, fun s _ => (h.scope' _).trans (h.scope s)⟩

theorem Stmt.relabelAll_undo (h : r.Undoes q) (ss : List Stmt) :
    Stmt.relabelAll r (Stmt.relabelAll q ss) = ss := by
  rw [Stmt.relabelAll_relabelAll, Stmt.relabelAll_eq_self ss (h.fixes _)]

namespace Bindings

def relabel (r : Relabeling) (bindings : Bindings) : Bindings :=
  bindings.map fun entry => (entry.1, entry.2.relabel r)

theorem find?_relabel (r : Relabeling) (x : String) (bindings : Bindings) :
    (bindings.relabel r).find? x = (bindings.find? x).map (·.relabel r) := by
  unfold find? relabel
  induction bindings with
  | nil => rfl
  | cons entry rest ih =>
    rw [List.map_cons, List.lookup_cons, List.lookup_cons, ih]
    cases x == entry.1 <;> rfl

end Bindings

namespace Store

/-- The store with relabeled values, in scopes of the same numbers. -/
def relabel (r : Relabeling) (σ : Store) : Store where
  scopes := σ.scopes.map fun scope => { scope with bindings := scope.bindings.relabel r }
  enclosing_lt := by
    intro id scope outer hs he
    rw [Array.getElem?_map] at hs
    obtain ⟨old, hold, rfl⟩ := Option.map_eq_some_iff.mp hs
    exact σ.enclosing_lt id old outer hold he

theorem size_relabel (r : Relabeling) (σ : Store) : (σ.relabel r).size = σ.size :=
  Array.size_map

theorem enclosing?_relabel (r : Relabeling) (σ : Store) (id : ScopeId) :
    (σ.relabel r).enclosing? id = σ.enclosing? id := by
  rw [enclosing?, relabel, Array.getElem?_map, enclosing?]
  cases σ.scopes[id]? <;> rfl

theorem local?_relabel (r : Relabeling) (σ : Store) (id : ScopeId) (x : String) :
    (σ.relabel r).local? id x = (σ.local? id x).map (·.relabel r) := by
  rw [local?, relabel, Array.getElem?_map, local?]
  cases σ.scopes[id]? with
  | none => rfl
  | some scope => exact scope.bindings.find?_relabel r x

/-- A store mirrors any that has the same scopes with relabeled values. -/
theorem mirrors_of_local {σ τ : Store} (hr : ∀ s, r.scope s = s) (hsize : τ.size = σ.size)
    (he : ∀ id, τ.enclosing? id = σ.enclosing? id)
    (hv : ∀ id x, τ.local? id x = (σ.local? id x).map (·.relabel r)) :
    σ.Mirrors r everywhere τ where
  size id _ := by rw [hr, hsize]
  enclosing id _ := by
    rw [hr, he, funext hr]
    exact Option.map_id'.symm
  bindings id _ x := by rw [hr, hv]
  outer _ _ _ _ := trivial
  values _ _ _ _ _ := fun _ _ => trivial
  fresh k := ⟨trivial, by rw [hr, hsize]⟩

end Store

end

end Lox
