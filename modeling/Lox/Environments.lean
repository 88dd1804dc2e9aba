import Lox.Diagnostic
import Lox.Store
import Lox.Syntax.Scopes

/-!
Environments: handles on the scopes of a store.

A handle stands for the innermost scope of a chain.  Its clones stand for the same scope, and its
children for new scopes inside that one.  A scope is kept as long as anything refers to it: a
handle, a scope inside it, or a function that some scope binds.  With the last reference it is
cleared, and what it referred to is given up in turn.
-/

namespace Lox

/-- The scopes that a scope refers to, as often as it does. -/
def Scope.references (scope : Scope) : List ScopeId :=
  scope.bindings.flatMap (fun entry => entry.2.scopes) ++ scope.enclosing.toList

namespace Store

/-- Every reference from one scope to another. -/
def references (σ : Store) : List ScopeId := σ.scopes.toList.flatMap Scope.references

def referencesOf (σ : Store) (id : ScopeId) : List ScopeId :=
  (σ.scopes[id]?.map Scope.references).getD []

/-- Takes everything out of a scope.  Its number is not given to another one. -/
def clear (σ : Store) (id : ScopeId) : Store where
  scopes := σ.scopes.modify id fun _ => ⟨none, []⟩
  enclosing_lt := by
    intro i scope outer found encloses
    rw [Array.getElem?_modify] at found
    split at found
    · obtain ⟨old, -, rfl⟩ := Option.map_eq_some_iff.1 found
      cases encloses
    · exact σ.enclosing_lt i scope outer found encloses

/-- Nothing is lost but the references of the scope that is cleared. -/
theorem references_clear (σ : Store) (id : ScopeId) :
    σ.references.Perm ((σ.clear id).references ++ σ.referencesOf id) := by
  unfold references referencesOf clear
  rw [Array.toList_modify, ← Array.getElem?_toList]
  induction σ.scopes.toList generalizing id with
  | nil =>
    rw [List.modify_nil]
    exact .nil
  | cons scope scopes ih =>
    cases id with
    | zero => exact List.perm_append_comm
    | succ id =>
      rw [List.modify_succ_cons, List.flatMap_cons, List.flatMap_cons, List.append_assoc]
      exact (ih id).append_left _

/-- How often each scope of the store occurs among references. -/
def tally (σ : Store) (references : List ScopeId) : Array Nat :=
  references.foldl (fun counts id => counts.modify id (· + 1)) (Array.replicate σ.size 0)

/-- Gives up references one after the other and clears each scope that loses its last one. -/
def giveUp (σ : Store) (counts : Array Nat) : List ScopeId → Store
  | [] => σ
  | id :: pending =>
    let counts := counts.modify id (· - 1)
    if counts[id]? = some 0 then
      let given := σ.referencesOf id
      (σ.clear id).giveUp counts (given ++ pending)
    else
      σ.giveUp counts pending
termination_by pending => pending.length + σ.references.length
decreasing_by
  · have hlength := (σ.references_clear id).length_eq
    simp only [List.length_append, List.length_cons] at hlength ⊢
    omega
  · exact Nat.add_lt_add_right (Nat.lt_succ_self _) _

/-- The store when `given` is given up and `holders` are referred to from outside. -/
def release (σ : Store) (holders given : List ScopeId) : Store :=
  if given.isEmpty then σ else σ.giveUp (σ.tally (holders ++ σ.references ++ given)) given

end Store

/-- A store with the handles on it, which are numbered in the order that they were made in. -/
structure Environments where
  store : Store
  /-- The innermost scope of every handle that was ever made. -/
  handles : List ScopeId
  forgotten : List Nat

namespace Environments

/-- What is done with handles. -/
inductive Step where
  | new
  | child (a : Nat)
  | clone (a : Nat)
  | define (a : Nat) (x : String) (v : Value)
  | assign (a : Nat) (name : Token) (v : Value)
  | get (a : Nat) (name : Token)
  | equals (a b : Nat)
  | forget (a : Nat)

/-- The handles that a step is about. -/
def Step.handles : Step → List Nat
  | new => []
  | child a | clone a | define a _ _ | assign a _ _ | get a _ | forget a => [a]
  | equals a b => [a, b]

inductive Answer where
  | made (handle : Nat)
  | done
  | value (v : Value)
  | error (e : RuntimeError)
  | truth (b : Bool)
  /-- There is no such handle, or no longer. -/
  | nothing

def empty : Environments := ⟨.empty, [], []⟩

/-- The innermost scope of a handle that was not forgotten. -/
def scope? (E : Environments) (a : Nat) : Option ScopeId :=
  if a ∈ E.forgotten then none else E.handles[a]?

/-- The innermost scopes of all these handles. -/
def held (E : Environments) : List ScopeId :=
  (List.range E.handles.length).filterMap E.scope?

/-- Gives up references that were held outside of the store. -/
def release (E : Environments) (given : List ScopeId) : Environments :=
  { E with store := E.store.release E.held given }

/-- A handle on the scope `id` of a store that may be new as well. -/
def make (E : Environments) (store : Store) (id : ScopeId) : Answer × Environments :=
  (.made E.handles.length, { E with store, handles := E.handles ++ [id] })

/-- Binds a name in the scope `id`.  The value that was bound there is given up. -/
def define (E : Environments) (id : ScopeId) (x : String) (v : Value) : Environments :=
  let overwritten := E.store.scopes[id]?.bind fun scope => scope.bindings.find? x
  { E with store := E.store.define id x v }.release (overwritten.elim [] Value.scopes)

/-- Gives a name a new value where it is bound.  The value that was bound there is given up. -/
def assign (E : Environments) (id : ScopeId) (name : Token) (v : Value) :
    Answer × Environments :=
  let overwritten := E.store.get? id name.lexeme
  match E.store.assign id name.lexeme v with
  | (true, store) => (.done, { E with store }.release (overwritten.elim [] Value.scopes))
  | (false, store) => (.error ⟨name, .undefinedVariable⟩, { E with store })

def get (E : Environments) (id : ScopeId) (name : Token) : Answer :=
  match E.store.get? id name.lexeme with
  | some v => .value v
  | none => .error ⟨name, .undefinedVariable⟩

/-- Does something with the scope of a handle, if there is such a handle. -/
def within (E : Environments) (a : Nat) (use : ScopeId → Answer × Environments) :
    Answer × Environments :=
  match E.scope? a with
  | some id => use id
  | none => (.nothing, E)

def step (E : Environments) : Step → Answer × Environments
  | .new => E.make E.store.addRoot E.store.size
  | .child a => E.within a fun id => E.make (E.store.addChild id) E.store.size
  | .clone a => E.within a fun id => E.make E.store id
  | .define a x v => E.within a fun id => (.done, E.define id x v)
  | .assign a name v => E.within a fun id => E.assign id name v
  | .get a name => E.within a fun id => (E.get id name, E)
  | .equals a b => E.within a fun i => E.within b fun j => (.truth (i == j), E)
  | .forget a => E.within a fun id =>
    (.done, { E with forgotten := a :: E.forgotten }.release [id])

/-- The answers to steps that are made one after the other. -/
def answers (E : Environments) : List Step → List Answer
  | [] => []
  | s :: steps => (E.step s).1 :: (E.step s).2.answers steps

/-- What steps lead to from the beginning. -/
def after (steps : List Step) : Environments := steps.foldl (fun E s => (E.step s).2) empty

end Environments
end Lox
