import Lox.Proofs.Comparison.Basic
import Lox.Proofs.Evaluation.Functions
import Lox.Proofs.Scopes.Chains

/-!
Running with other functions in the scopes.

Two machines are compared of which one holds other functions than the other, in the same places.
What a machine is asked for while a program runs looks at names, scopes and plain values, so it has
the same effect on both, with the functions still replaced.
-/

namespace Lox

variable {φ : Closure → Closure}

/-- Whether the scopes of `τ` bind what those of `σ` bind, with all functions replaced. -/
structure Store.Replaced (φ : Closure → Closure) (σ τ : Store) : Prop where
  size : τ.size = σ.size
  enclosing : ∀ id, τ.enclosing? id = σ.enclosing? id
  bindings : ∀ id x, τ.local? id x = (σ.local? id x).map (Value.mapFunction φ)

namespace Store.Replaced

variable {σ τ : Store}

theorem empty : Replaced φ Store.empty Store.empty := ⟨rfl, fun _ => rfl, fun _ _ => rfl⟩

theorem find? (h : Replaced φ σ τ) (x : String) (id : ScopeId) :
    τ.find? x id = (σ.find? x id).map fun found => (found.1, found.2.mapFunction φ) :=
  find?_map h.enclosing (fun i => h.bindings i x) id

theorem get? (h : Replaced φ σ τ) (id : ScopeId) (x : String) :
    τ.get? id x = (σ.get? id x).map (Value.mapFunction φ) := by
  rw [Store.get?, Store.get?, h.find?]
  cases σ.find? x id <;> rfl

theorem define (h : Replaced φ σ τ) (id : ScopeId) (x : String) (v : Value) :
    Replaced φ (σ.define id x v) (τ.define id x (v.mapFunction φ)) where
  size := by rw [size_define, size_define, h.size]
  enclosing i := by rw [enclosing?_define, enclosing?_define, h.enclosing]
  bindings i y := local?_define_map h.size Iff.rfl (h.bindings i y) v

theorem addChild (h : Replaced φ σ τ) (outer : ScopeId) :
    Replaced φ (σ.addChild outer) (τ.addChild outer) where
  size := by rw [size_addChild, size_addChild, h.size]
  bindings i y := by rw [local?_addChild, local?_addChild, h.bindings]
  enclosing := enclosing?_addChild_congr h.size h.enclosing outer

end Store.Replaced

/-- Whether two machines are the same but for the functions that they hold. -/
structure Machine.Replaced (φ : Closure → Closure) (m n : Machine) : Prop where
  store : m.store.Replaced φ n.store
  sink : n.sink = m.sink
  current : n.current = m.current

/-- Two ends of the same kind, with results related by `R` and the same fault. -/
inductive ReplacedEnds (φ : Closure → Closure) {α : Type} (R : α → α → Prop) :
    EStateM.Result Halt Machine α → EStateM.Result Halt Machine α → Prop
  | ok {a b : α} {m n : Machine} : R a b → m.Replaced φ n → ReplacedEnds φ R (.ok a m) (.ok b n)
  | error {halt : Halt} {m n : Machine} : m.Replaced φ n →
      ReplacedEnds φ R (.error halt m) (.error halt n)

/-- Whether two actions do the same on machines that hold other functions. -/
def Replaces (φ : Closure → Closure) {α : Type} (R : α → α → Prop) (p q : Action α) : Prop :=
  ∀ m n : Machine, m.Replaced φ n → ReplacedEnds φ R (p m) (q n)

/-! ## Actions -/

namespace Replaces

variable {α β : Type} {R : α → α → Prop} {S : β → β → Prop} {p q : Action α} {f g : α → Action β}

theorem pure {a b : α} (h : R a b) : Replaces φ R (pure a) (pure b) := fun _ _ hm => .ok h hm

theorem throw (halt : Halt) : Replaces φ R (throw halt) (throw halt) := fun _ _ hm => .error hm

theorem bind (hp : Replaces φ R p q) (hf : ∀ a b, R a b → Replaces φ S (f a) (g b)) :
    Replaces φ S (p >>= f) (q >>= g) := by
  intro m n hm
  have h := hp m n hm
  rw [Action.bind_apply, Action.bind_apply]
  generalize p m = x at h ⊢
  generalize q n = y at h ⊢
  cases h with
  | ok hab hm => exact hf _ _ hab _ _ hm
  | error hm => exact .error hm

theorem blame (t : Token) (result : Except RuntimeFault Value) :
    Replaces φ (fun v w => w = v.mapFunction φ) (Action.blame t result)
      (Action.blame t (result.map (Value.mapFunction φ))) := by
  cases result with
  | ok v => exact pure rfl
  | error fault => exact throw _

/-- Looking at a machine shows the current scope. -/
theorem get : Replaces φ (fun m n => n.current = m.current) get get :=
  fun _ _ hm => .ok hm.current hm

theorem openScope (outer : ScopeId) :
    Replaces φ (fun i j => j = i) (Action.openScope outer) (Action.openScope outer) :=
  fun _ _ hm => .ok hm.store.size ⟨hm.store.addChild outer, hm.sink, hm.current⟩

theorem inScope (scope : ScopeId) (h : Replaces φ R p q) :
    Replaces φ R (Action.inScope scope p) (Action.inScope scope q) := by
  intro m n hm
  have h := h { m with current := scope } { n with current := scope } ⟨hm.store, hm.sink, rfl⟩
  unfold Action.inScope
  generalize p { m with current := scope } = x at h ⊢
  generalize q { n with current := scope } = y at h ⊢
  cases h with
  | ok hab hm' => exact .ok hab ⟨hm'.store, hm'.sink, hm.current⟩
  | error hm' => exact .error ⟨hm'.store, hm'.sink, hm.current⟩

/-- Functions that are called the same are printed the same. -/
theorem print (hname : ∀ f, (φ f).name = f.name) (t : Token) (v : Value) :
    Replaces φ (fun _ _ => True) (Action.print t v) (Action.print t (v.mapFunction φ)) := by
  intro m n hm
  unfold Action.print
  rw [Value.text_mapFunction hname, hm.sink]
  cases m.sink.print v.text with
  | mk fault sink =>
    cases fault with
    | none => exact .ok trivial ⟨hm.store, rfl, hm.current⟩
    | some fault => exact .error ⟨hm.store, rfl, hm.current⟩

theorem lookup (t : Token) : Replaces φ (fun v w => w = v.mapFunction φ) (Action.lookup t)
    (Action.lookup t) := by
  intro m n hm
  rw [Action.lookup_apply, Action.lookup_apply, hm.current, hm.store.get?]
  cases m.store.get? m.current t.lexeme with
  | none => exact .error hm
  | some v => exact .ok rfl hm

theorem bindIn (scope : ScopeId) (x : String) (v : Value) : Replaces φ (fun _ _ => True)
    (modify fun m => { m with store := m.store.define scope x v })
    (modify fun m => { m with store := m.store.define scope x (v.mapFunction φ) }) :=
  fun _ _ hm => .ok trivial ⟨hm.store.define scope x v, hm.sink, hm.current⟩

theorem define (x : String) (v : Value) : Replaces φ (fun _ _ => True) (Action.define x v)
    (Action.define x (v.mapFunction φ)) := by
  rintro m ⟨τ, _, sink⟩ hm
  cases hm.current
  exact bindIn m.current x v m ⟨τ, m.current, sink⟩ hm

theorem assign (t : Token) (v : Value) : Replaces φ (fun _ _ => True) (Action.assign t v)
    (Action.assign t (v.mapFunction φ)) := by
  rintro m ⟨τ, _, sink⟩ hm
  cases hm.current
  unfold Action.assign Store.assign
  rw [hm.store.find?]
  cases m.store.find? t.lexeme m.current with
  | none => exact .error hm
  | some found => exact .ok trivial ⟨hm.store.define found.1 t.lexeme v, hm.sink, rfl⟩

end Replaces
end Lox
