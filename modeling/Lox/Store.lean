import Lox.Value

/-!
The store of scopes.

A scope binds names to values and may be enclosed by an older scope.  Scopes are shared: the same
scope is reached from every scope inside it and from every function declared in it, so a scope is
known by its number and its bindings are kept in one place.
-/

namespace Lox

/-- The bindings of one scope. -/
abbrev Bindings := List (String × Value)

namespace Bindings

def find? (x : String) (bindings : Bindings) : Option Value := bindings.lookup x

/-- Binds `x` to `v`, in the place of an older binding if there is one. -/
def bind (x : String) (v : Value) : Bindings → Bindings
  | [] => [(x, v)]
  | (y, w) :: rest => if x == y then (x, v) :: rest else (y, w) :: bind x v rest

theorem find?_bind_self (x : String) (v : Value) (bindings : Bindings) :
    (bindings.bind x v).find? x = some v := by
  induction bindings with
  | nil => simp [bind, find?]
  | cons entry rest ih =>
    obtain ⟨y, w⟩ := entry
    unfold find? at ih ⊢
    by_cases h : x = y
    · simp [bind, h]
    · have h' : (x == y) = false := by simpa using h
      simp [bind, List.lookup_cons, h', ih]

theorem find?_bind_of_ne {x y : String} (h : y ≠ x) (v : Value) (bindings : Bindings) :
    (bindings.bind x v).find? y = bindings.find? y := by
  induction bindings with
  | nil =>
    have h' : (y == x) = false := by simpa using h
    simp [bind, find?, List.lookup_cons, h']
  | cons entry rest ih =>
    obtain ⟨z, w⟩ := entry
    unfold find? at ih ⊢
    by_cases hx : x = z
    · subst hx
      have h' : (y == x) = false := by simpa using h
      simp [bind, List.lookup_cons, h']
    · have hx' : (x == z) = false := by simpa using hx
      by_cases hy : y = z
      · simp [bind, hx', hy]
      · have hy' : (y == z) = false := by simpa using hy
        simp [bind, hx', List.lookup_cons, hy', ih]

end Bindings

structure Scope where
  enclosing : Option ScopeId
  bindings : Bindings

/-- The scopes made so far, each numbered by its place.  A scope is enclosed by an older one only,
so every walk outwards ends. -/
structure Store where
  scopes : Array Scope
  enclosing_lt : ∀ (id : ScopeId) (scope : Scope) (outer : ScopeId),
    scopes[id]? = some scope → scope.enclosing = some outer → outer < id

namespace Store

def empty : Store := ⟨#[], by simp⟩

instance : Inhabited Store := ⟨empty⟩

def size (σ : Store) : Nat := σ.scopes.size

/-- Adds a scope without bindings.  The scope around it has to exist already. -/
def add (σ : Store) (enclosing : Option ScopeId) (exists_enclosing : ∀ id ∈ enclosing, id < σ.size) :
    Store where
  scopes := σ.scopes.push ⟨enclosing, []⟩
  enclosing_lt := by
    intro id scope outer found encloses
    rw [Array.getElem?_push] at found
    split at found
    · next h =>
      cases found
      rw [h]
      exact exists_enclosing outer encloses
    · exact σ.enclosing_lt id scope outer found encloses

theorem size_add (σ : Store) (enclosing : Option ScopeId)
    (exists_enclosing : ∀ id ∈ enclosing, id < σ.size) :
    (σ.add enclosing exists_enclosing).size = σ.size + 1 := Array.size_push _

/-- A new scope that nothing encloses, numbered by the size of the old store. -/
def addRoot (σ : Store) : Store := σ.add none (by simp)

/-- A new scope inside `id`, numbered by the size of the old store.  There is no such thing as the
inside of a scope that was never made, so then nothing encloses the new scope. -/
def addChild (σ : Store) (id : ScopeId) : Store :=
  if h : id < σ.size then σ.add (some id) (by simpa using h) else σ.addRoot

@[simp] theorem size_addRoot (σ : Store) : σ.addRoot.size = σ.size + 1 := σ.size_add _ _

@[simp] theorem size_addChild (σ : Store) (id : ScopeId) :
    (σ.addChild id).size = σ.size + 1 := by
  unfold addChild
  split
  · exact σ.size_add _ _
  · exact σ.size_addRoot

/-- Binds a name in the scope `id` itself. -/
def define (σ : Store) (id : ScopeId) (x : String) (v : Value) : Store where
  scopes := σ.scopes.modify id fun scope => { scope with bindings := scope.bindings.bind x v }
  enclosing_lt := by
    intro i scope outer found encloses
    rw [Array.getElem?_modify] at found
    split at found
    · obtain ⟨old, isOld, rfl⟩ := Option.map_eq_some_iff.1 found
      exact σ.enclosing_lt i old outer isOld encloses
    · exact σ.enclosing_lt i scope outer found encloses

@[simp] theorem size_define (σ : Store) (id : ScopeId) (x : String) (v : Value) :
    (σ.define id x v).size = σ.size := Array.size_modify

/-- The nearest scope that binds `x`, from `id` outwards, with the value it binds. -/
def find? (σ : Store) (x : String) (id : ScopeId) : Option (ScopeId × Value) :=
  match found : σ.scopes[id]? with
  | none => none
  | some scope =>
    match scope.bindings.find? x with
    | some v => some (id, v)
    | none =>
      match encloses : scope.enclosing with
      | none => none
      | some outer =>
        have _older : outer < id := σ.enclosing_lt id scope outer found encloses
        σ.find? x outer
termination_by id

/-- One step of the walk outwards, without the reason why it ends. -/
theorem find?_eq (σ : Store) (x : String) (id : ScopeId) :
    σ.find? x id = σ.scopes[id]?.bind fun scope =>
      match scope.bindings.find? x with
      | some v => some (id, v)
      | none => scope.enclosing.bind (σ.find? x) := by
  rw [find?]
  split
  · next absent => simp only [absent, Option.bind_none]
  · next scope found =>
    simp only [found, Option.bind_some]
    split
    · rfl
    · split
      · next outermost => simp only [outermost, Option.bind_none]
      · next outer encloses => simp only [encloses, Option.bind_some]

/-- The value of `x` as seen from the scope `id`. -/
def get? (σ : Store) (id : ScopeId) (x : String) : Option Value :=
  (σ.find? x id).map Prod.snd

/-- Gives `x` a new value where it is bound, and tells whether any scope from `id` outwards binds
it at all. -/
def assign (σ : Store) (id : ScopeId) (x : String) (v : Value) : Bool × Store :=
  match σ.find? x id with
  | none => (false, σ)
  | some (holder, _) => (true, σ.define holder x v)

end Store

end Lox
