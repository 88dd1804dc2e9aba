import Lox.Proofs.Evaluation.Actions
import Lox.Proofs.Relabeling.Mirrors

/-!
Actions in tandem.

Two actions run in tandem when from machines that mirror one another they end in the same way, with
related results, and leave machines that mirror one another again.  The judgement also says that
neither comes back in another scope than it started in, and that the first one leaves the scopes
outside of `L` alone.
-/

namespace Lox

/-- Whether one machine mirrors another one, with the scopes that are current if `here` asks for
it. -/
structure Machine.Mirrors (here : Prop) (r : Relabeling) (L : ScopeId → Prop) (m n : Machine) :
    Prop where
  store : m.store.Mirrors r L n.store
  sink : n.sink = m.sink
  current : here → L m.current ∧ n.current = r.scope m.current

/-- What two actions may have done to machines `m` and `n`. -/
structure Advances (r : Relabeling) (L : ScopeId → Prop) (m n m' n' : Machine) : Prop where
  store : m'.store.Mirrors r L n'.store
  sink : n'.sink = m'.sink
  left : m'.current = m.current
  right : n'.current = n.current
  size : m.store.size ≤ m'.store.size
  frame : ∀ id, ¬L id → m'.store.scopes[id]? = m.store.scopes[id]?

/-- A value with its image. -/
def Value.Image (r : Relabeling) (L : ScopeId → Prop) (v w : Value) : Prop :=
  w = v.relabel r ∧ Within L v.scopes

inductive Flow.Image (r : Relabeling) (L : ScopeId → Prop) : Flow → Flow → Prop
  | normal : Image r L .normal .normal
  | returned {v w : Value} : v.Image r L w → Image r L (.returned v) (.returned w)

/-- A scope with its image. -/
def ScopeId.Image (r : Relabeling) (L : ScopeId → Prop) (i j : ScopeId) : Prop :=
  j = r.scope i ∧ L i

section

variable {here : Prop} {r : Relabeling} {L : ScopeId → Prop} {m n m' n' m'' n'' : Machine}

theorem Advances.refl (h : m.Mirrors here r L n) : Advances r L m n m n :=
  ⟨h.store, h.sink, rfl, rfl, Nat.le_refl _, fun _ _ => rfl⟩

theorem Advances.trans (h : Advances r L m n m' n') (k : Advances r L m' n' m'' n'') :
    Advances r L m n m'' n'' :=
  ⟨k.store, k.sink, k.left.trans h.left, k.right.trans h.right, Nat.le_trans h.size k.size,
    fun id hid => (k.frame id hid).trans (h.frame id hid)⟩

theorem Advances.mirrors (h : Advances r L m n m' n') (k : m.Mirrors here r L n) :
    m'.Mirrors here r L n' := by
  refine ⟨h.store, h.sink, fun hhere => ?_⟩
  rw [h.left, h.right]
  exact k.current hhere

/-- Binding a name in a scope and in its image. -/
theorem Advances.define (hr : r.Faithful L) (hm : m.Mirrors here r L n) {i j : ScopeId}
    (hi : ScopeId.Image r L i j) (x : String) {v w : Value} (hv : v.Image r L w) :
    Advances r L m n { m with store := m.store.define i x v }
      { n with store := n.store.define j x w } := by
  obtain ⟨rfl, hi⟩ := hi
  obtain ⟨rfl, hv⟩ := hv
  refine ⟨hm.store.define hr hi x hv, hm.sink, rfl, rfl, ?_, fun id hid => ?_⟩
  · exact Nat.le_of_eq (m.store.size_define i x v).symm
  · exact Store.scopes_define_of_ne (fun h : id = i => hid (h ▸ hi)) x v

end

def RuntimeError.relabel (r : Relabeling) (e : RuntimeError) : RuntimeError :=
  { e with token := r.token e.token }

def Halt.relabel (r : Relabeling) : Halt → Halt
  | .fault e => .fault (e.relabel r)
  | .outOfFuel => .outOfFuel

/-- Two ends of the same kind, with results related by `R` and machines by `P`. -/
inductive Ends (r : Relabeling) {α : Type} (R : α → α → Prop) (P : Machine → Machine → Prop) :
    EStateM.Result Halt Machine α → EStateM.Result Halt Machine α → Prop
  | ok {a b : α} {m n : Machine} : R a b → P m n → Ends r R P (.ok a m) (.ok b n)
  | error {halt : Halt} {m n : Machine} :
      P m n → Ends r R P (.error halt m) (.error (halt.relabel r) n)

theorem Ends.imp {r : Relabeling} {α : Type} {R S : α → α → Prop}
    {P Q : Machine → Machine → Prop} {x y : EStateM.Result Halt Machine α} (h : Ends r R P x y)
    (hR : ∀ a b, R a b → S a b) (hP : ∀ m n, P m n → Q m n) : Ends r S Q x y := by
  cases h with
  | ok ha hm => exact .ok (hR _ _ ha) (hP _ _ hm)
  | error hm => exact .error (hP _ _ hm)

/-- Whether two actions run in tandem. -/
def Tandem (here : Prop) (r : Relabeling) (L : ScopeId → Prop) {α : Type} (R : α → α → Prop)
    (p q : Action α) : Prop :=
  ∀ m n : Machine, m.Mirrors here r L n → Ends r R (Advances r L m n) (p m) (q n)

namespace Tandem

variable {here : Prop} {r : Relabeling} {L : ScopeId → Prop} {α β : Type} {R : α → α → Prop}
  {S : β → β → Prop} {p q : Action α} {f g : α → Action β}

theorem pure {a b : α} (h : R a b) : Tandem here r L R (pure a) (pure b) :=
  fun _ _ hm => .ok h (.refl hm)

theorem throw (halt : Halt) : Tandem here r L R (throw halt) (throw (halt.relabel r)) :=
  fun _ _ hm => .error (.refl hm)

theorem fail (t : Token) (fault : RuntimeFault) :
    Tandem here r L R (Action.fail t fault) (Action.fail (r.token t) fault) :=
  throw (.fault ⟨t, fault⟩)

theorem bind (hp : Tandem here r L R p q)
    (hf : ∀ a b, R a b → Tandem here r L S (f a) (g b)) :
    Tandem here r L S (p >>= f) (q >>= g) := by
  intro m n hm
  have h := hp m n hm
  rw [Action.bind_apply, Action.bind_apply]
  generalize p m = x at h ⊢
  generalize q n = y at h ⊢
  cases h with
  | ok hab hadv =>
    exact (hf _ _ hab _ _ (hadv.mirrors hm)).imp (fun _ _ => id) fun _ _ => hadv.trans
  | error hadv => exact .error hadv

theorem blame {result : Except RuntimeFault Value} (t : Token)
    (hw : ∀ v, result = .ok v → Within L v.scopes) :
    Tandem here r L (Value.Image r L) (Action.blame t result)
      (Action.blame (r.token t) (result.map (·.relabel r))) := by
  cases result with
  | ok v => exact .pure ⟨rfl, hw v rfl⟩
  | error fault => exact .fail t fault

/-- Looking at a machine shows the current scope. -/
theorem get : Tandem True r L (fun m n => ScopeId.Image r L m.current n.current) get get :=
  fun _ _ hm => .ok ⟨(hm.current trivial).2, (hm.current trivial).1⟩ (.refl hm)

theorem openScope {i j : ScopeId} (h : ScopeId.Image r L i j) :
    Tandem here r L (ScopeId.Image r L) (Action.openScope i) (Action.openScope j) := by
  obtain ⟨rfl, hi⟩ := h
  intro m n hm
  refine .ok ⟨(hm.store.fresh 0).2.symm, (hm.store.fresh 0).1⟩
    ⟨hm.store.addChild hi, hm.sink, rfl, rfl, ?_, fun id hid => ?_⟩
  · rw [Store.size_addChild]
    exact Nat.le_succ _
  · -- Every scope that is still to be made belongs to `L`, so this one is older.
    refine Store.scopes_addChild_of_lt i (Nat.lt_of_not_le fun hle => hid ?_)
    obtain ⟨k, rfl⟩ := Nat.exists_eq_add_of_le hle
    exact (hm.store.fresh k).1

/-- What runs in a scope may ask for it, whatever is asked of the current scopes. -/
theorem inScope {i j : ScopeId} (hi : ScopeId.Image r L i j) (h : Tandem True r L R p q) :
    Tandem here r L R (Action.inScope i p) (Action.inScope j q) := by
  intro m n hm
  have hends := h { m with current := i } { n with current := j }
    ⟨hm.store, hm.sink, fun _ => ⟨hi.2, hi.1⟩⟩
  unfold Action.inScope
  generalize p { m with current := i } = x at hends ⊢
  generalize q { n with current := j } = y at hends ⊢
  cases hends with
  | ok hab hadv => exact .ok hab ⟨hadv.store, hadv.sink, rfl, rfl, hadv.size, hadv.frame⟩
  | error hadv => exact .error ⟨hadv.store, hadv.sink, rfl, rfl, hadv.size, hadv.frame⟩

variable (hr : r.Faithful L)
include hr

theorem lookup (name : Token) :
    Tandem True r L (Value.Image r L) (Action.lookup name) (Action.lookup (r.token name)) := by
  intro m n hm
  obtain ⟨hL, himage⟩ := hm.current trivial
  rw [Action.lookup_apply, Action.lookup_apply, hr.lexeme, himage, hm.store.get? hL]
  cases hv : m.store.get? m.current name.lexeme with
  | none => exact .error (.refl hm)
  | some v => exact .ok ⟨rfl, hm.store.within_of_get? hL hv⟩ (.refl hm)

theorem assign (name : Token) {v w : Value} (hv : v.Image r L w) :
    Tandem True r L (fun _ _ => True) (Action.assign name v) (Action.assign (r.token name) w) := by
  intro m n hm
  obtain ⟨hL, himage⟩ := hm.current trivial
  have hfind : n.store.find? (r.token name).lexeme n.current =
      (m.store.find? name.lexeme m.current).map fun found =>
        (r.scope found.1, found.2.relabel r) := by
    rw [hr.lexeme, himage, hm.store.find? hL]
  unfold Action.assign Store.assign
  rw [hfind]
  cases hf : m.store.find? name.lexeme m.current with
  | none => exact .error (.refl hm)
  | some found =>
    rw [hr.lexeme]
    exact .ok trivial (Advances.define hr hm ⟨rfl, (hm.store.holder hL hf).1⟩ _ hv)

theorem define (name : Token) {v w : Value} (hv : v.Image r L w) :
    Tandem True r L (fun _ _ => True) (Action.define name.lexeme v)
      (Action.define (r.token name).lexeme w) := by
  intro m n hm
  obtain ⟨hL, himage⟩ := hm.current trivial
  rw [hr.lexeme]
  exact .ok trivial (Advances.define hr hm ⟨himage, hL⟩ _ hv)

theorem print (keyword : Token) {v w : Value} (hv : v.Image r L w) :
    Tandem here r L (fun _ _ => True) (Action.print keyword v)
      (Action.print (r.token keyword) w) := by
  intro m n hm
  unfold Action.print
  rw [hm.sink, hv.1, Value.text_relabel hr]
  cases m.sink.print v.text with
  | mk fault sink =>
    cases fault with
    | none => exact .ok trivial ⟨hm.store, rfl, rfl, rfl, Nat.le_refl _, fun _ _ => rfl⟩
    | some fault => exact .error ⟨hm.store, rfl, rfl, rfl, Nat.le_refl _, fun _ _ => rfl⟩

end Tandem
end Lox
