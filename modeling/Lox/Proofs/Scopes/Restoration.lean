import Lox.Session
import Lox.Proofs.Scopes.Growth

/-!
The current scope is put back.

Whatever an operation does on its way, and however it ends, the machine is in the same scope
afterwards as before.  So a session is in the global scope between any two operations, and a name
that is read or declared there is a global one.
-/

namespace Lox

/-- The scope that a session starts in. -/
def globalScope : ScopeId := 0

/-- What a host does with a machine.  Blocks may be given scopes that the host makes, so it makes
scopes and binds names as well. -/
inductive Move where
  | operate (fuel : Nat) (operation : Operation)
  | makeScope (outer : Option ScopeId)
  | bind (scope : ScopeId) (x : String) (v : Value)

namespace Move

/-- The machine after a move, however that ends. -/
def make (host : Host) (m : Machine) : Move → Machine
  | operate fuel o => (o.perform host fuel).after m
  | makeScope none => { m with store := m.store.addRoot }
  | makeScope (some outer) => { m with store := m.store.addChild outer }
  | bind scope x v => { m with store := m.store.define scope x v }

/-- The machine after moves one after the other. -/
def makeAll (host : Host) (m : Machine) (moves : List Move) : Machine :=
  moves.foldl (make host) m

end Move

namespace Machine

/-- Whether the current scope is the global one and nothing is around it. -/
structure AtTop (m : Machine) : Prop where
  current : m.current = globalScope
  made : globalScope < m.store.size
  outermost : m.store.enclosing? globalScope = none

/-- Whether reading and declaring a name at `m` reads and declares a global one. -/
structure UsesGlobals (host : Host) (m : Machine) : Prop where
  read : ∀ fuel name, evaluate host (fuel + 1) (.variable name) m =
    match m.store.local? globalScope name.lexeme with
    | some v => .ok v m
    | none => .error (.fault ⟨name, .undefinedVariable⟩) m
  assign : ∀ name v, Action.assign name v m =
    match m.store.local? globalScope name.lexeme with
    | some _ => .ok () { m with store := m.store.define globalScope name.lexeme v }
    | none => .error (.fault ⟨name, .undefinedVariable⟩) m
  declare : ∀ fuel site name initializer,
    execute host (fuel + 1) site (.declare name initializer) m =
    match (layer host fuel).evaluateOptional initializer m with
    | .ok v m' => .ok .normal { m' with store := m'.store.define globalScope name.lexeme v }
    | .error halt m' => .error halt m'
  function : ∀ fuel site d, execute host (fuel + 1) site (.function d) m =
    .ok .normal { m with
      store := m.store.define globalScope d.name.lexeme (.function ⟨d, site, globalScope⟩) }

end Machine

/-- A session starts with a clock and nothing else. -/
theorem Session.local?_start {breakage : Option Breakage} {i : ScopeId} {x : String} {v : Value}
    (h : (start breakage).machine.store.local? i x = some v) : v = .native .clock := by
  rcases Store.local?_of_define h with ⟨-, rfl⟩ | h
  · rfl
  · cases i <;> simp [Store.local?, Store.empty, Store.addRoot, Store.add, Bindings.find?] at h

/-! ## One operation -/

/-- Operations come back to the scope that they started in. -/
theorem Operation.current_perform (host : Host) (fuel : Nat) (o : Operation) (m : Machine) :
    ((o.perform host fuel).after m).current = m.current :=
  (o.grow_perform host fuel m).current

theorem Session.current_interpret (s : Session) (host : Host) (fuel first : Nat)
    (ss : List Stmt) :
    (s.interpret host fuel first ss).2.machine.current = s.machine.current := by
  have hgrow : Grows (only s.machine.current) s.machine _ :=
    Layer.grow_sequence (growing_layer host fuel) [] first ss s.machine
  unfold interpret perform
  rw [Action.bind_apply]
  unfold Action.after at hgrow
  cases hrun : (layer host fuel).sequence [] first ss s.machine with
  | ok flow m =>
    rw [hrun] at hgrow
    exact hgrow.current
  | error halt m =>
    rw [hrun] at hgrow
    exact hgrow.current

/-! ## Any number of them -/

namespace Machine.AtTop

variable {m : Machine}

theorem start (breakage : Option Breakage) : (Session.start breakage).machine.AtTop :=
  ⟨rfl, Nat.zero_lt_one, rfl⟩

theorem make (h : m.AtTop) (host : Host) (move : Move) : (move.make host m).AtTop := by
  cases move with
  | operate fuel o =>
    have hgrow := o.grow_perform host fuel m
    refine ⟨hgrow.current.trans h.current, Nat.lt_of_lt_of_le h.made hgrow.size, ?_⟩
    rw [Move.make, hgrow.enclosing _ h.made, h.outermost]
  | makeScope outer =>
    cases outer with
    | none =>
      have hne : m.store.scopes[globalScope]? = m.store.addRoot.scopes[globalScope]? :=
        (Array.getElem?_push_lt h.made ▸ (Array.getElem?_eq_getElem h.made).symm).symm
      refine ⟨h.current, ?_, ?_⟩
      · rw [Move.make, Store.size_addRoot]
        exact Nat.lt_succ_of_lt h.made
      · rw [Move.make, Store.enclosing?, ← hne, ← Store.enclosing?, h.outermost]
    | some outer =>
      refine ⟨h.current, ?_, ?_⟩
      · rw [Move.make, Store.size_addChild]
        exact Nat.lt_succ_of_lt h.made
      · rw [Move.make, Store.enclosing?_addChild_of_lt outer h.made, h.outermost]
  | bind scope x v =>
    refine ⟨h.current, ?_, ?_⟩
    · rw [Move.make, Store.size_define]
      exact h.made
    · rw [Move.make, Store.enclosing?_define, h.outermost]

theorem makeAll (h : m.AtTop) (host : Host) (moves : List Move) :
    (Move.makeAll host m moves).AtTop := by
  induction moves generalizing m with
  | nil => exact h
  | cons move moves ih => exact ih (h.make host move)

/-- Nothing is around the global scope, so names resolve in it or not at all. -/
theorem find?_current (h : m.AtTop) (x : String) : m.store.find? x m.current =
    (m.store.local? globalScope x).map fun v => (globalScope, v) := by
  rw [h.current]
  cases hv : m.store.local? globalScope x with
  | some v => exact Store.find?_of_local hv
  | none =>
    rw [Store.find?_of_not_local hv, h.outermost]
    rfl

theorem usesGlobals (h : m.AtTop) (host : Host) : m.UsesGlobals host where
  read fuel name := by
    show Action.lookup name m = _
    rw [Action.lookup_apply, Store.get?, h.find?_current]
    cases m.store.local? globalScope name.lexeme <;> rfl
  assign name v := by
    unfold Action.assign Store.assign
    rw [h.find?_current]
    cases m.store.local? globalScope name.lexeme <;> rfl
  declare fuel site name initializer := by
    show ((layer host fuel).evaluateOptional initializer >>= fun v =>
      Action.define name.lexeme v >>= fun _ => pure Flow.normal) m = _
    rw [Action.bind_apply]
    cases hrun : (layer host fuel).evaluateOptional initializer m with
    | error halt m' => rfl
    | ok v m' =>
      have hback : m'.current = globalScope := by
        have hgrow := Layer.grow_evaluateOptional (growing_layer host fuel) initializer m
        rw [Action.Grow, Action.after_of_ok hrun] at hgrow
        rw [hgrow.current, h.current]
      rw [← hback]
      rfl
  function fuel site d := by
    show EStateM.Result.ok Flow.normal { m with
      store := m.store.define m.current d.name.lexeme (.function ⟨d, site, m.current⟩) } = _
    rw [h.current]

end Machine.AtTop

/-- Every operation comes back to the scope that was current.  After any moves on a new session that
is the global scope, where the next operation reads and declares globals. -/
theorem current_restored (host : Host) :
    (∀ (fuel : Nat) (o : Operation) (m : Machine),
      ((o.perform host fuel).after m).current = m.current) ∧
    (∀ (s : Session) (fuel first : Nat) (ss : List Stmt),
      (s.interpret host fuel first ss).2.machine.current = s.machine.current) ∧
    ∀ (breakage : Option Breakage) (moves : List Move),
      let m := Move.makeAll host (Session.start breakage).machine moves
      m.AtTop ∧ m.UsesGlobals host := by
  refine ⟨Operation.current_perform host, fun s => s.current_interpret host,
    fun breakage moves => ?_⟩
  have htop := (Machine.AtTop.start breakage).makeAll host moves
  exact ⟨htop, htop.usesGlobals host⟩

end Lox
