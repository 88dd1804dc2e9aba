import Lox.Proofs.Evaluation.Actions
import Lox.Proofs.Scopes.Chains

/-!
Scopes only grow.

Whatever runs, a scope stays inside the scope that it was made in and keeps the names that it
binds.  New names come from declarations only, and those bind in the scope that is current, or in
one that was made for the purpose.
-/

namespace Lox

/-- How the scopes of a machine may have changed.  `Grown` marks the scopes that were there before
and may have got new names. -/
structure Grows (Grown : ScopeId → Prop) (m m' : Machine) : Prop where
  current : m'.current = m.current
  size : m.store.size ≤ m'.store.size
  enclosing : ∀ id < m.store.size, m'.store.enclosing? id = m.store.enclosing? id
  kept : ∀ id x, m.store.Binds id x → m'.store.Binds id x
  added : ∀ id < m.store.size, ∀ x, m'.store.Binds id x → m.store.Binds id x ∨ Grown id

/-- No scope at all. -/
def nowhere : ScopeId → Prop := fun _ => False

/-- A single scope. -/
def only (scope : ScopeId) : ScopeId → Prop := (· = scope)

namespace Grows

variable {A B : ScopeId → Prop} {m m' m'' : Machine}

theorem refl (A : ScopeId → Prop) (m : Machine) : Grows A m m :=
  ⟨rfl, Nat.le_refl _, fun _ _ => rfl, fun _ _ => id, fun _ _ _ => .inl⟩

/-- A second change may also add names to scopes that the first one made. -/
theorem trans (h : Grows A m m') (k : Grows B m' m'') (hBA : ∀ id < m.store.size, B id → A id) :
    Grows A m m'' where
  current := k.current.trans h.current
  size := Nat.le_trans h.size k.size
  enclosing id hid :=
    (k.enclosing id (Nat.lt_of_lt_of_le hid h.size)).trans (h.enclosing id hid)
  kept id x hx := k.kept id x (h.kept id x hx)
  added id hid x hx := by
    rcases k.added id (Nat.lt_of_lt_of_le hid h.size) x hx with hx | hB
    · exact h.added id hid x hx
    · exact .inr (hBA id hid hB)

theorem mono (h : Grows A m m') (hAB : ∀ id, A id → B id) : Grows B m m' :=
  ⟨h.current, h.size, h.enclosing, h.kept,
    fun id hid x hx => (h.added id hid x hx).imp_right (hAB id)⟩

theorem of_store_eq (hc : m'.current = m.current) (hs : m'.store = m.store) : Grows A m m' where
  current := hc
  size := Nat.le_of_eq (congrArg Store.size hs.symm)
  enclosing id _ := by rw [hs]
  kept id x hx := by rwa [hs]
  added id _ x hx := .inl (by rwa [hs] at hx)

/-- Binding a name can only be new to the scope that it is bound in. -/
theorem define (m : Machine) {scope : ScopeId} {x : String} (v : Value)
    (hA : m.store.Binds scope x ∨ A scope) :
    Grows A m { m with store := m.store.define scope x v } where
  current := rfl
  size := Nat.le_of_eq (m.store.size_define _ _ _).symm
  enclosing id _ := m.store.enclosing?_define _ _ _ id
  kept id y hy := (Store.binds_define v).mpr (.inl hy)
  added id _ y hy := by
    rcases (Store.binds_define v).mp hy with hy | ⟨rfl, rfl, _⟩
    · exact .inl hy
    · exact hA

theorem openScope (m : Machine) (outer : ScopeId) :
    Grows nowhere m { m with store := m.store.addChild outer } where
  current := rfl
  size := by rw [Store.size_addChild]; exact Nat.le_succ _
  enclosing id hid := Store.enclosing?_addChild_of_lt outer hid
  kept id x hx := by rwa [Store.Binds, Store.local?_addChild]
  added id hid x hx := by
    rw [Store.Binds, Store.local?_addChild] at hx
    exact .inl hx

theorem chain (h : Grows A m m') {id : ScopeId} (hid : id < m.store.size) :
    m'.store.chain id = m.store.chain id :=
  Store.chain_congr h.size h.enclosing hid

/-- What resolves goes on to resolve. -/
theorem resolves (h : Grows A m m') {id : ScopeId} {x : String}
    (hx : (m.store.get? id x).isSome) : (m'.store.get? id x).isSome := by
  obtain ⟨i, hi, hb⟩ := Store.get?_isSome_iff.mp hx
  have hid : id < m.store.size := Nat.lt_of_not_le fun hle => by
    rw [Store.chain_of_le hle] at hi
    exact nomatch hi
  exact Store.get?_isSome_iff.mpr ⟨i, h.chain hid ▸ hi, h.kept i x hb⟩

end Grows

/-! ## Actions -/

namespace Action

/-- Whatever the action does from `m` on, only scopes of `A` get new names. -/
def Grow (A : ScopeId → Prop) (p : Action α) (m : Machine) : Prop := Grows A m (p.after m)

variable {α β : Type} {A B : ScopeId → Prop} {p : Action α} {f : α → Action β} {m : Machine}

theorem Grow.mono (h : Grow A p m) (hAB : ∀ id, A id → B id) : Grow B p m := Grows.mono h hAB

theorem grow_pure (a : α) : Grow A (pure a) m := .refl A m

theorem grow_throw (halt : Halt) : Grow A (throw halt : Action α) m := .refl A m

theorem grow_fail (t : Token) (fault : RuntimeFault) : Grow A (fail t fault : Action α) m :=
  grow_throw _

theorem grow_blame (t : Token) (result : Except RuntimeFault α) : Grow A (blame t result) m := by
  cases result with
  | ok a => exact grow_pure a
  | error fault => exact grow_fail t fault

theorem grow_bind (hp : Grow A p m)
    (hf : ∀ a m', p m = .ok a m' → Grows A m m' → Grow B (f a) m')
    (hBA : ∀ id < m.store.size, B id → A id) : Grow A (p >>= f) m := by
  unfold Grow at hp ⊢
  cases h : p m with
  | ok a m' =>
    rw [after_of_ok h] at hp
    rw [after, bind_of_ok h, ← after]
    exact hp.trans (hf a m' h hp) hBA
  | error halt m' =>
    rw [after_of_error h] at hp
    rwa [after_of_error (bind_of_error h)]

/-- The usual case, in which both parts may add names to the same scopes. -/
theorem grow_seq (hp : Grow A p m) (hf : ∀ a m', Grows A m m' → Grow A (f a) m') :
    Grow A (p >>= f) m :=
  grow_bind hp (fun a m' _ => hf a m') fun _ _ => id

theorem grow_lookup (name : Token) : Grow A (lookup name) m := by
  unfold lookup
  refine grow_seq (.refl A m) fun m₁ m' _ => ?_
  split
  · exact grow_pure _
  · exact grow_fail _ _

/-- An assignment binds where the name is bound already. -/
theorem grow_assign (name : Token) (v : Value) : Grow A (assign name v) m := by
  unfold Grow after assign Store.assign
  cases h : m.store.find? name.lexeme m.current with
  | none => exact .refl A m
  | some found =>
    obtain ⟨holder, w⟩ := found
    have hb : m.store.Binds holder name.lexeme := by
      rw [Store.Binds, (Store.local?_of_find? h).2]
      rfl
    exact .define m v (.inl hb)

theorem grow_define (x : String) (v : Value) : Grow (only m.current) (define x v) m :=
  .define m v (.inr rfl)

theorem grow_print (keyword : Token) (v : Value) : Grow A (print keyword v) m := by
  unfold Grow after print
  cases h : m.sink.print v.text with
  | mk fault sink => cases fault <;> exact .of_store_eq rfl rfl

theorem grow_inScope {scope : ScopeId} (h : Grow A p { m with current := scope }) :
    Grow A (inScope scope p) m := by
  unfold Grow after at h ⊢
  unfold inScope
  cases hp : p { m with current := scope } with
  | ok a m' =>
    rw [hp] at h
    exact ⟨rfl, h.size, h.enclosing, h.kept, h.added⟩
  | error halt m' =>
    rw [hp] at h
    exact ⟨rfl, h.size, h.enclosing, h.kept, h.added⟩

/-- What happens inside of a scope that was just made adds no name anywhere else. -/
theorem grow_openScope {f : ScopeId → Action β} (outer : ScopeId)
    (hf : ∀ m', Grows nowhere m m' → Grow (only m.store.size) (f m.store.size) m') :
    Grow nowhere (openScope outer >>= f) m := by
  refine grow_bind (B := only m.store.size) (.openScope m outer) (fun scope m' h hm => ?_)
    fun id hid he => Nat.ne_of_lt hid he
  cases h
  exact hf _ hm

end Action

/-! ## Evaluation -/

/-- Where a statement may add names, given the current scope.  A block declares in its own scope. -/
def Stmt.grown (current : ScopeId) : Stmt → ScopeId → Prop
  | .block _ => nowhere
  | _ => only current

namespace Layer

open Lox.Action

/-- What is asked of the layer below. -/
structure Growing (l : Layer) : Prop where
  evaluate : ∀ e m, Grow nowhere (l.evaluate e) m
  execute : ∀ site s m, Grow (s.grown m.current) (l.execute site s) m

theorem Growing.execute_current {l : Layer} (hl : l.Growing) (site : Site) (s : Stmt)
    (m : Machine) : Grow (only m.current) (l.execute site s) m := by
  refine (hl.execute site s m).mono fun id h => ?_
  unfold Stmt.grown at h
  split at h
  · exact h.elim
  · exact h

variable {l : Layer} (hl : l.Growing)

/-- Nothing that leaves the current scope where it was moves the place where names are added. -/
theorem grow_current {α : Type} {p : Action α} {m m' : Machine} {A : ScopeId → Prop}
    (hm : Grows A m m') (h : Grow (only m'.current) p m') : Grow (only m.current) p m' :=
  hm.current ▸ h

include hl

theorem grow_sequence (site : Site) (first : Nat) (body : List Stmt) (m : Machine) :
    Grow (only m.current) (l.sequence site first body) m := by
  induction body generalizing first m with
  | nil => exact grow_pure _
  | cons s rest ih =>
    unfold sequence
    refine grow_seq (hl.execute_current _ s m) fun flow m' hm => ?_
    cases flow with
    | normal => exact grow_current hm (ih (first + 1) m')
    | returned v => exact grow_pure _

theorem grow_block (site : Site) (body : List Stmt) (scope : ScopeId) (m : Machine) :
    Grow (only scope) (l.block site body scope) m :=
  grow_inScope (grow_sequence hl site 0 body { m with current := scope })

theorem grow_evaluateAll (es : List Expr) (m : Machine) : Grow nowhere (l.evaluateAll es) m := by
  induction es generalizing m with
  | nil => exact grow_pure _
  | cons e rest ih =>
    unfold evaluateAll
    refine grow_seq (hl.evaluate e m) fun v m' _ => ?_
    exact grow_seq (ih m') fun others m'' _ => grow_pure _

omit hl in
theorem grow_bindParameters (scope : ScopeId) (xs : List Token) (vs : List Value) (m : Machine) :
    Grow (only scope) (bindParameters scope xs vs) m := by
  induction xs generalizing vs m with
  | nil => exact grow_pure _
  | cons x xs ih =>
    cases vs with
    | nil => exact grow_pure _
    | cons v vs => exact grow_seq (.define m v (.inr rfl)) fun _ m' _ => ih vs m'

theorem grow_call (f : Closure) (arguments : List Value) (m : Machine) :
    Grow nowhere (l.call f arguments) m := by
  unfold call
  refine grow_openScope f.scope fun m₁ _ => ?_
  refine grow_seq (grow_bindParameters _ _ _ m₁) fun _ m₂ _ => ?_
  refine grow_seq (grow_block hl _ _ _ m₂) fun flow m₃ _ => ?_
  cases flow with
  | normal => exact grow_pure _
  | returned v => exact grow_pure _

omit hl in
theorem grow_requireArity (paren : Token) (expected given : Nat) (m : Machine) :
    Grow nowhere (requireArity paren expected given) m := by
  unfold requireArity
  split
  · exact grow_pure _
  · exact grow_fail _ _

theorem grow_apply (host : Host) (callee : Value) (paren : Token) (arguments : List Value)
    (m : Machine) : Grow nowhere (l.apply host callee paren arguments) m := by
  unfold apply
  split
  · exact grow_seq (grow_requireArity _ _ _ m) fun _ m' _ => grow_call hl _ _ m'
  · exact grow_seq (grow_requireArity _ _ _ m) fun _ m' _ => grow_pure _
  · exact grow_fail _ _

theorem grow_evaluateOf (host : Host) (e : Expr) (m : Machine) :
    Grow nowhere (l.evaluateOf host e) m := by
  cases e with
  | literal v => exact grow_pure _
  | grouping e => exact hl.evaluate e m
  | unary operator right => exact grow_seq (hl.evaluate right m) fun v m' _ => grow_blame _ _
  | binary left operator right =>
    refine grow_seq (hl.evaluate left m) fun v m₁ _ => ?_
    exact grow_seq (hl.evaluate right m₁) fun w m₂ _ => grow_blame _ _
  | «variable» name => exact grow_lookup name
  | assign name value =>
    refine grow_seq (hl.evaluate value m) fun v m₁ _ => ?_
    exact grow_seq (grow_assign name v) fun _ m₂ _ => grow_pure _
  | logical left operator right =>
    refine grow_seq (hl.evaluate left m) fun v m₁ _ => ?_
    -- Each operator either keeps the left value or evaluates the right operand.
    split
    · split
      · exact grow_pure _
      · exact hl.evaluate right m₁
    · split
      · exact hl.evaluate right m₁
      · exact grow_pure _
    · exact grow_fail _ _
  | call callee paren arguments =>
    refine grow_seq (hl.evaluate callee m) fun f m₁ _ => ?_
    exact grow_seq (grow_evaluateAll hl arguments m₁) fun vs m₂ _ =>
      grow_apply hl host f paren vs m₂

theorem grow_evaluateOptional (e : Option Expr) (m : Machine) :
    Grow nowhere (l.evaluateOptional e) m := by
  cases e with
  | none => exact grow_pure _
  | some e => exact hl.evaluate e m

theorem grow_repeatWhile (site : Site) (condition : Expr) (body : Stmt) (n : Nat) (m : Machine) :
    Grow (only m.current) (l.repeatWhile site condition body n) m := by
  induction n generalizing m with
  | zero => exact grow_throw _
  | succ n ih =>
    unfold repeatWhile
    refine grow_seq ((hl.evaluate condition m).mono fun _ => False.elim) fun v m₁ hm₁ => ?_
    split
    · refine grow_current hm₁ (grow_seq (hl.execute_current _ body m₁) fun flow m₂ hm₂ => ?_)
      cases flow with
      | normal => exact grow_current hm₂ (ih m₂)
      | returned w => exact grow_pure _
    · exact grow_pure _

theorem grow_executeOf (fuel : Nat) (site : Site) (s : Stmt) (m : Machine) :
    Grow (s.grown m.current) (l.executeOf fuel site s) m := by
  have value : ∀ e, Grow (only m.current) (l.evaluate e) m :=
    fun e => (hl.evaluate e m).mono fun _ => False.elim
  cases s with
  | print keyword e =>
    refine grow_seq (value e) fun v m₁ _ => ?_
    exact grow_seq (grow_print keyword v) fun _ m₂ _ => grow_pure _
  | expression e => exact grow_seq (value e) fun v m₁ _ => grow_pure _
  | declare name initializer =>
    refine grow_seq ((grow_evaluateOptional hl initializer m).mono fun _ => False.elim)
      fun v m₁ hm₁ => ?_
    exact grow_seq (grow_current hm₁ (grow_define _ v)) fun _ m₂ _ => grow_pure _
  | block body =>
    refine grow_seq (.refl _ m) fun m₁ m₁' hm₁ => ?_
    exact grow_openScope _ fun m₂ _ => grow_block hl site body _ m₂
  | branch condition whenTrue whenFalse =>
    refine grow_seq (value condition) fun v m₁ hm₁ => ?_
    split
    · exact grow_current hm₁ (hl.execute_current _ whenTrue m₁)
    · cases whenFalse with
      | none => exact grow_pure _
      | some s => exact grow_current hm₁ (hl.execute_current _ s m₁)
  | loop condition body => exact grow_repeatWhile hl site condition body fuel m
  | function declaration =>
    refine grow_seq (.refl _ m) fun m₁ m₁' hm₁ => ?_
    exact grow_seq (grow_current hm₁ (grow_define _ _)) fun _ m₂ _ => grow_pure _
  | ret keyword e =>
    refine grow_seq ((grow_evaluateOptional hl e m).mono fun _ => False.elim) fun v m₁ _ => ?_
    exact grow_pure _

end Layer

theorem growing_layer (host : Host) (fuel : Nat) : (layer host fuel).Growing := by
  induction fuel with
  | zero => exact ⟨fun _ _ => Action.grow_throw _, fun _ _ _ => Action.grow_throw _⟩
  | succ n ih =>
    exact ⟨fun e m => Layer.grow_evaluateOf ih host e m,
      fun site s m => Layer.grow_executeOf ih n site s m⟩

/-! ## Operations -/

namespace Operation

/-- Where an operation may add names. -/
def grown (m : Machine) : Operation → ScopeId → Prop
  | evaluate _ | freshBlock _ _ _ | call _ _ => nowhere
  | execute _ s => s.grown m.current
  | sequence _ _ _ => only m.current
  | block _ _ scope => only scope

theorem grow_perform (host : Host) (fuel : Nat) (o : Operation) (m : Machine) :
    Action.Grow (o.grown m) (o.perform host fuel) m := by
  have hl := growing_layer host fuel
  cases o with
  | evaluate e => exact Action.grow_seq (hl.evaluate e m) fun _ _ _ => Action.grow_pure _
  | execute site s => exact Action.grow_seq (hl.execute site s m) fun _ _ _ => Action.grow_pure _
  | sequence site first body =>
    exact Action.grow_seq (Layer.grow_sequence hl site first body m) fun _ _ _ =>
      Action.grow_pure _
  | block site body scope =>
    exact Action.grow_seq (Layer.grow_block hl site body scope m) fun _ _ _ => Action.grow_pure _
  | freshBlock site body outer =>
    refine Action.grow_openScope outer fun m' _ => ?_
    exact Action.grow_seq (Layer.grow_block hl site body _ m') fun _ _ _ => Action.grow_pure _
  | call f arguments =>
    exact Action.grow_seq (Layer.grow_call hl f arguments m) fun _ _ _ => Action.grow_pure _

theorem resolves_performAll (host : Host) (operations : List (Nat × Operation)) {m : Machine}
    {id : ScopeId} {x : String} (h : (m.store.get? id x).isSome) :
    ((performAll host m operations).store.get? id x).isSome := by
  induction operations generalizing m with
  | nil => exact h
  | cons o rest ih => exact ih ((grow_perform host o.1 o.2 m).resolves h)

/-- Scopes keep their place and their names, only declarations add names and only where they stand,
chains end without meeting a scope twice, and what resolves at one time does so ever after. -/
theorem scopes_grow (host : Host) (m : Machine) :
    (∀ (fuel : Nat) (o : Operation),
      let m' := (o.perform host fuel).after m
      Grows (o.grown m) m m' ∧ (∀ id, (m'.store.chain id).Pairwise (· > ·)) ∧
        ∀ id < m.store.size, m'.store.chain id = m.store.chain id) ∧
    ∀ (operations : List (Nat × Operation)) (id : ScopeId) (x : String),
      (m.store.get? id x).isSome →
        ((performAll host m operations).store.get? id x).isSome := by
  refine ⟨fun fuel o => ?_, fun operations id x => resolves_performAll host operations⟩
  have hgrow := grow_perform host fuel o m
  exact ⟨hgrow, Store.chain_decreasing _, fun id hid => hgrow.chain hid⟩

end Operation
end Lox
