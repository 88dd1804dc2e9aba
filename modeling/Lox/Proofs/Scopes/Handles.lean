import Lox.Proofs.Scopes.Release

/-!
What handles see of each other's steps.

What one handle does is seen by others through the scopes that their chains share.  Values that are
overwritten are given up on the way, which no handle notices that is still held.
-/

namespace Lox
namespace Environments

variable {E F : Environments} {a b : Nat} {i j : ScopeId} {s : Step} {x : String} {v : Value}
  {name : Token}

def answer (E : Environments) (s : Step) : Answer := (E.step s).1

def next (E : Environments) (s : Step) : Environments := (E.step s).2

/-! ## Handles and their scopes -/

theorem within_of_some (h : E.scope? a = some i) (use : ScopeId → Answer × Environments) :
    E.within a use = use i := by
  rw [within, h]

theorem within_of_none (h : E.scope? a = none) (use : ScopeId → Answer × Environments) :
    E.within a use = (.nothing, E) := by
  rw [within, h]

theorem getElem?_of_scope? (h : E.scope? a = some i) : E.handles[a]? = some i := by
  unfold scope? at h
  split at h
  · cases h
  · exact h

theorem mem_held (h : E.scope? a = some i) : i ∈ E.held := by
  have hlt : a < E.handles.length := by
    obtain ⟨hlt, -⟩ := List.getElem?_eq_some_iff.mp (getElem?_of_scope? h)
    exact hlt
  exact List.mem_filterMap.mpr ⟨a, List.mem_range.mpr hlt, h⟩

/-- Whether the scopes of all handles were made. -/
def Made (E : Environments) : Prop := ∀ i ∈ E.handles, i < E.store.size

theorem Made.lt (hE : E.Made) (h : E.scope? a = some i) : i < E.store.size :=
  hE i (List.mem_of_getElem? (getElem?_of_scope? h))

/-- A new handle is the only one whose scope may have changed. -/
theorem scope?_make (E : Environments) (store : Store) (id : ScopeId) (b : Nat) :
    (E.make store id).2.scope? b =
      if b ∈ E.forgotten then none
      else if b = E.handles.length then some id else E.handles[b]? := by
  show (if b ∈ E.forgotten then none else (E.handles ++ [id])[b]?) = _
  congr 1
  by_cases hb : b < E.handles.length
  · rw [List.getElem?_append_left hb, if_neg (Nat.ne_of_lt hb)]
  · by_cases heq : b = E.handles.length
    · rw [if_pos heq, heq, List.getElem?_concat_length]
    · rw [if_neg heq, List.getElem?_eq_none, List.getElem?_eq_none (Nat.not_lt.mp hb)]
      rw [List.length_append, List.length_singleton]
      omega

theorem scope?_make_of_some (h : E.scope? b = some j) (store : Store) (id : ScopeId) :
    (E.make store id).2.scope? b = some j := by
  have hget := getElem?_of_scope? h
  obtain ⟨hlt, -⟩ := List.getElem?_eq_some_iff.mp hget
  unfold scope? at h
  rw [scope?_make, if_neg (Nat.ne_of_lt hlt), h]

/-! ## Giving up -/

theorem sameFrom_release (hE : E.Made) (h : E.scope? a = some i) (given : List ScopeId) :
    E.store.SameFrom (E.release given).store i :=
  Store.release_sameFrom (mem_held h) (hE.lt h)

theorem Made.release (hE : E.Made) (given : List ScopeId) : (E.release given).Made := by
  intro i hi
  show i < (E.store.release E.held given).size
  rw [Store.size_release]
  exact hE i hi

theorem Made.define (hE : E.Made) (i : ScopeId) (x : String) (v : Value) :
    (E.define i x v).Made := by
  refine Made.release (fun j hj => ?_) _
  rw [Store.size_define]
  exact hE j hj

theorem Made.make (hE : E.Made) {store : Store} {id : ScopeId} (hid : id < store.size)
    (hstore : E.store.size ≤ store.size) : (E.make store id).2.Made := by
  intro j hj
  rcases List.mem_append.mp hj with hj | hj
  · exact Nat.lt_of_lt_of_le (hE j hj) hstore
  · exact List.mem_singleton.mp hj ▸ hid

/-! ## Single steps -/

theorem assign_of_none (h : E.store.find? name.lexeme i = none) (v : Value) :
    E.assign i name v = (.error ⟨name, .undefinedVariable⟩, E) := by
  unfold assign Store.assign
  rw [h]

theorem assign_of_some {holder : ScopeId} {w : Value}
    (h : E.store.find? name.lexeme i = some (holder, w)) (v : Value) :
    E.assign i name v = (.done,
      { E with store := E.store.define holder name.lexeme v }.release w.scopes) := by
  unfold assign Store.assign Store.get?
  rw [h]
  rfl

theorem get_congr (h : F.store.get? j name.lexeme = E.store.get? j name.lexeme) :
    F.get j name = E.get j name := by
  rw [get, h, get]

theorem answer_get (h : E.scope? b = some j) (name : Token) :
    E.answer (.get b name) = E.get j name := by
  rw [answer, step, within_of_some h]

theorem Made.assign (hE : E.Made) (i : ScopeId) (name : Token) (v : Value) :
    (E.assign i name v).2.Made := by
  cases hf : E.store.find? name.lexeme i with
  | none => rwa [assign_of_none hf]
  | some found =>
    rw [assign_of_some hf]
    refine Made.release (fun j hj => ?_) _
    rw [Store.size_define]
    exact hE j hj

/-- What a step on one handle keeps, given that it keeps it for a handle that exists. -/
theorem within_keeps {P : Environments → Prop} {use : ScopeId → Answer × Environments} (hE : P E)
    (h : ∀ i, E.scope? a = some i → P (use i).2) : P (E.within a use).2 := by
  unfold within
  split
  · next i hi => exact h i hi
  · exact hE

theorem Made.next (hE : E.Made) (s : Step) : (E.next s).Made := by
  cases s with
  | new =>
    have hroot : E.store.size < E.store.addRoot.size := by
      rw [Store.size_addRoot]
      exact Nat.lt_succ_self _
    exact hE.make hroot (Nat.le_of_lt hroot)
  | child a =>
    refine within_keeps hE fun i _ => ?_
    have hchild : E.store.size < (E.store.addChild i).size := by
      rw [Store.size_addChild]
      exact Nat.lt_succ_self _
    exact hE.make hchild (Nat.le_of_lt hchild)
  | clone a => exact within_keeps hE fun i hi => hE.make (hE.lt hi) (Nat.le_refl _)
  | define a x v => exact within_keeps hE fun i _ => hE.define i x v
  | assign a name v => exact within_keeps hE fun i _ => hE.assign i name v
  | get a name => exact within_keeps hE fun _ _ => hE
  | equals a b => exact within_keeps hE fun _ _ => within_keeps hE fun _ _ => hE
  | forget a =>
    have hforgotten : Made { E with forgotten := a :: E.forgotten } := hE
    exact within_keeps hE fun _ _ => hforgotten.release _

theorem Made.after (steps : List Step) : (after steps).Made := by
  unfold Environments.after
  have hempty : empty.Made := fun i hi => absurd hi List.not_mem_nil
  generalize empty = E at hempty
  induction steps generalizing E with
  | nil => exact hempty
  | cons s steps ih => exact ih _ (hempty.next s)

/-! ## What is seen of a new value -/

/-- Handles keep their scopes when other values are bound there and things are given up. -/
theorem scope?_defined (h : E.scope? b = some j) {store : Store} {given : List ScopeId} :
    ({ E with store }.release given).scope? b = some j := h

/-- Before the value that was overwritten is given up. -/
theorem get_release (hE : E.Made) (hb : E.scope? b = some j) (given : List ScopeId) :
    (E.release given).get j name = E.get j name :=
  get_congr ((sameFrom_release hE hb given).get?_eq name.lexeme)

/-- A new value in the scope `holder`, as a handle sees it. -/
theorem answer_defined (hE : E.Made) (hb : E.scope? b = some j) {holder : ScopeId}
    (hlt : holder < E.store.size) (x : String) (v : Value) (given : List ScopeId) (name : Token) :
    let seen := name.lexeme = x ∧ E.store.Exposed x holder (E.store.chain j)
    let E' := { E with store := E.store.define holder x v }.release given
    (seen → E'.answer (.get b name) = .value v) ∧
    (¬seen → E'.answer (.get b name) = E.answer (.get b name)) := by
  have hmade : Made { E with store := E.store.define holder x v } := fun i hi => by
    rw [Store.size_define]
    exact hE i hi
  intro seen E'
  rw [answer_get (scope?_defined hb), answer_get hb, get_release hmade hb]
  constructor
  · rintro ⟨rfl, hexposed⟩
    rw [get, Store.get?_define_of_exposed hlt hexposed]
  · intro hhidden
    exact get_congr (Store.get?_define_of_hidden fun hx he => hhidden ⟨hx, he⟩)

end Environments
end Lox
