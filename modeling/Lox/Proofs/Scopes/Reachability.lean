import Lox.Main
import Lox.Proofs.Relabeling.Evaluation

/-!
Blocks and calls touch the scopes that they can reach and depend on no others.

A scope is reached from the scopes that a piece of program mentions, outwards through the links
between scopes and through the functions that reached scopes bind.  While a program runs, what it
can reach changes, but nothing is reached that was not reached at the start or made since.  So what
a run does can be told from any other store that agrees on the reachable scopes, except that scopes
made on the way may be numbered differently there.
-/

namespace Lox

namespace Store

/-- The scopes that `σ` leads to from the given ones. -/
inductive Reachable (σ : Store) (roots : List ScopeId) : ScopeId → Prop
  | root {id : ScopeId} : id ∈ roots → Reachable σ roots id
  | outer {id outer : ScopeId} :
      Reachable σ roots id → σ.enclosing? id = some outer → Reachable σ roots outer
  | stored {id i : ScopeId} {x : String} {v : Value} :
      Reachable σ roots id → σ.local? id x = some v → i ∈ v.scopes → Reachable σ roots i

/-- Whether the scopes of `R` are the same in two stores. -/
structure Agrees (R : ScopeId → Prop) (σ τ : Store) : Prop where
  size : ∀ id, R id → (id < τ.size ↔ id < σ.size)
  enclosing : ∀ id, R id → τ.enclosing? id = σ.enclosing? id
  bindings : ∀ id, R id → ∀ x, τ.local? id x = σ.local? id x

theorem Agrees.refl (R : ScopeId → Prop) (σ : Store) : Agrees R σ σ :=
  ⟨fun _ _ => Iff.rfl, fun _ _ => rfl, fun _ _ _ => rfl⟩

end Store

/-- Natives that compute from their arguments alone.  They can tell scopes apart but not see how
these are numbered, and have no functions to give but those that they were given. -/
structure Host.Pure (host : Host) : Prop where
  given : ∀ entry vs f, host entry vs = .function f → .function f ∈ vs
  blind : ∀ entry vs (r : Relabeling), (∀ t, r.token t = t) →
    (∀ i ∈ vs.flatMap Value.scopes, ∀ j ∈ vs.flatMap Value.scopes,
      r.scope i = r.scope j → i = j) →
    host entry (vs.map (·.relabel r)) = (host entry vs).relabel r

/-- Keeps the scopes below `before` and moves those from there on up or down to `after`. -/
def Relabeling.renumber (before after : Nat) : Relabeling where
  token t := t
  scope id := if id < before then id else after + (id - before)

/-- Whether an action from `m` on touches and depends on scopes of `R` and new ones only.  From any
machine that agrees on `R` and on the sink it ends in the same way, up to the numbers of the new
scopes, and leaves the same scopes and the same sink. -/
structure Confined {α : Type} (Image : Relabeling → (ScopeId → Prop) → α → α → Prop)
    (R : ScopeId → Prop) (p : Action α) (m : Machine) : Prop where
  frame : ∀ id < m.store.size, ¬R id → (p.after m).store.scopes[id]? = m.store.scopes[id]?
  agreement : ∀ n : Machine, n.sink = m.sink → m.store.Agrees R n.store →
    let r := Relabeling.renumber m.store.size n.store.size
    let L := fun id => R id ∨ m.store.size ≤ id
    match p m, p n with
    | .ok a m', .ok b n' => Image r L a b ∧ m'.store.Mirrors r L n'.store ∧ n'.sink = m'.sink
    | .error halt m', .error halt' n' =>
      halt' = halt ∧ m'.store.Mirrors r L n'.store ∧ n'.sink = m'.sink
    | _, _ => False

/-! ## Renumbering -/

namespace Relabeling

variable {before after : Nat} {id : ScopeId}

theorem renumber_of_lt (h : id < before) : (renumber before after).scope id = id := if_pos h

theorem renumber_add (before after k : Nat) :
    (renumber before after).scope (before + k) = after + k := by
  show (if before + k < before then before + k else after + (before + k - before)) = after + k
  rw [if_neg (Nat.not_lt.mpr (Nat.le_add_right _ _)), Nat.add_sub_cancel_left]

theorem fixes_renumber {ids : List ScopeId} (h : Within (· < before) ids) :
    (renumber before after).Fixes ids :=
  ⟨fun _ => rfl, fun id hid => renumber_of_lt (h id hid)⟩

/-- New scopes get numbers that none of the kept ones has. -/
theorem faithful_renumber {R : ScopeId → Prop} (hR : ∀ id, R id → id < before ∧ id < after) :
    (renumber before after).Faithful fun id => R id ∨ before ≤ id where
  form _ := rfl
  lexeme _ := rfl
  injective i j hi hj h := by
    have image : ∀ id, R id ∨ before ≤ id →
        (id < before ∧ id < after ∧ (renumber before after).scope id = id) ∨
        ∃ k, id = before + k ∧ (renumber before after).scope id = after + k := by
      intro id hid
      by_cases hlt : id < before
      · have hRid := hid.resolve_right (Nat.not_le.mpr hlt)
        exact .inl ⟨hlt, (hR id hRid).2, renumber_of_lt hlt⟩
      · obtain ⟨k, rfl⟩ := Nat.exists_eq_add_of_le (Nat.not_lt.mp hlt)
        exact .inr ⟨k, rfl, renumber_add before after k⟩
    rcases image i hi with ⟨hi₁, hi₂, hi₃⟩ | ⟨k, rfl, hi₃⟩ <;>
      rcases image j hj with ⟨hj₁, hj₂, hj₃⟩ | ⟨l, rfl, hj₃⟩ <;> rw [hi₃, hj₃] at h
    · exact h
    · exact absurd h (Nat.ne_of_lt (Nat.lt_add_right l hi₂))
    · exact absurd h (Nat.ne_of_gt (Nat.lt_add_right k hj₂))
    · rw [Nat.add_left_cancel h]

end Relabeling

theorem Halt.relabel_renumber (before after : Nat) (halt : Halt) :
    halt.relabel (.renumber before after) = halt := by
  cases halt <;> rfl

/-- Pure natives give images for images. -/
theorem Host.Pure.respects {host : Host} (hhost : host.Pure) {r : Relabeling}
    {L : ScopeId → Prop} (ht : ∀ t, r.token t = t) (hr : r.Faithful L) : host.Respects r L := by
  rintro entry vs ws ⟨rfl, hvs⟩
  have hL : ∀ i ∈ vs.flatMap Value.scopes, L i := fun i hi => by
    obtain ⟨v, hv, hiv⟩ := List.mem_flatMap.mp hi
    exact hvs v hv i hiv
  refine ⟨hhost.blind entry vs r ht fun i hi j hj => hr.injective i j (hL i hi) (hL j hj), ?_⟩
  cases hv : host entry vs with
  | function f => exact hvs _ (hhost.given entry vs f hv)
  | nil | bool _ | number _ | string _ | native _ => exact .nil

/-! ## Blocks and calls -/

section

variable {m n : Machine} {roots : List ScopeId}

/-- A machine mirrors another one that agrees with it on what can be reached. -/
theorem Store.Agrees.mirrors {σ τ : Store} (hR : ∀ id, σ.Reachable roots id → id < σ.size)
    (h : σ.Agrees (σ.Reachable roots) τ) :
    σ.Mirrors (.renumber σ.size τ.size) (fun id => σ.Reachable roots id ∨ σ.size ≤ id) τ where
  size id hid := by
    rcases hid with hid | hid
    · rw [Relabeling.renumber_of_lt (hR id hid)]
      exact h.size id hid
    · obtain ⟨k, rfl⟩ := Nat.exists_eq_add_of_le hid
      rw [Relabeling.renumber_add]
      exact iff_of_false (Nat.not_lt.mpr (Nat.le_add_right _ _)) (Nat.not_lt.mpr hid)
  enclosing id hid := by
    rcases hid with hid | hid
    · rw [Relabeling.renumber_of_lt (hR id hid), h.enclosing id hid]
      cases he : σ.enclosing? id with
      | none => rfl
      | some outer =>
        rw [Option.map_some, Relabeling.renumber_of_lt (hR outer (.outer hid he))]
    · obtain ⟨k, rfl⟩ := Nat.exists_eq_add_of_le hid
      rw [Relabeling.renumber_add, enclosing?_of_le hid, enclosing?_of_le (Nat.le_add_right _ _)]
      rfl
  bindings id hid x := by
    rcases hid with hid | hid
    · rw [Relabeling.renumber_of_lt (hR id hid), h.bindings id hid]
      cases hv : σ.local? id x with
      | none => rfl
      | some v =>
        have hfix : v.relabel (.renumber σ.size τ.size) = v :=
          v.relabel_eq_self (Relabeling.fixes_renumber fun i hi => hR i (.stored hid hv hi))
        rw [Option.map_some, hfix]
    · obtain ⟨k, rfl⟩ := Nat.exists_eq_add_of_le hid
      rw [Relabeling.renumber_add, local?, local?, scopes_of_le hid,
        scopes_of_le (Nat.le_add_right _ _)]
      rfl
  outer id outer hid he := by
    rcases hid with hid | hid
    · exact .inl (.outer hid he)
    · rw [enclosing?_of_le hid] at he
      cases he
  values id x v hid hv := by
    rcases hid with hid | hid
    · exact fun i hi => .inl (.stored hid hv hi)
    · exact absurd (lt_of_local hv) (Nat.not_lt.mpr hid)
  fresh k := ⟨.inr (Nat.le_add_right _ _), Relabeling.renumber_add _ _ k⟩

/-- An action that runs in tandem with itself, however the new scopes are numbered, is confined to
what it reaches. -/
theorem Confined.of_tandem {α : Type} {Image : Relabeling → (ScopeId → Prop) → α → α → Prop}
    {p : Action α} (hR : ∀ id, m.store.Reachable roots id → id < m.store.size)
    (h : ∀ (r : Relabeling) (L : ScopeId → Prop), (∀ t, r.token t = t) → r.Faithful L →
      (∀ id, m.store.Reachable roots id → r.scope id = id ∧ L id) →
      Tandem False r L (Image r L) p p) :
    Confined Image (m.store.Reachable roots) p m := by
  have hends : ∀ n : Machine, n.sink = m.sink →
      m.store.Agrees (m.store.Reachable roots) n.store →
      let r := Relabeling.renumber m.store.size n.store.size
      let L := fun id => m.store.Reachable roots id ∨ m.store.size ≤ id
      Ends r (Image r L) (Advances r L m n) (p m) (p n) := by
    intro n hsink hagrees
    have hfaithful := Relabeling.faithful_renumber fun id hid =>
      ⟨hR id hid, (hagrees.size id hid).mpr (hR id hid)⟩
    exact h _ _ (fun _ => rfl) hfaithful
      (fun id hid => ⟨Relabeling.renumber_of_lt (hR id hid), .inl hid⟩) m n
      ⟨hagrees.mirrors hR, hsink, False.elim⟩
  constructor
  · intro id hid hout
    obtain ⟨y, hself⟩ : ∃ y, Ends _ _ _ (p m) y := ⟨_, hends m rfl (.refl _ _)⟩
    have hnot : ¬(m.store.Reachable roots id ∨ m.store.size ≤ id) :=
      not_or.mpr ⟨hout, Nat.not_le.mpr hid⟩
    unfold Action.after
    generalize p m = x at hself ⊢
    cases hself with
    | ok _ hadv => exact hadv.frame id hnot
    | error hadv => exact hadv.frame id hnot
  · intro n hsink hagrees
    have hpair := hends n hsink hagrees
    dsimp only at hpair ⊢
    generalize p m = x at hpair ⊢
    generalize p n = y at hpair ⊢
    cases hpair with
    | ok hab hadv => exact ⟨hab, hadv.store, hadv.sink⟩
    | error hadv => exact ⟨Halt.relabel_renumber _ _ _, hadv.store, hadv.sink⟩

end

/-- Blocks in a given scope and calls touch and depend on what they can reach only.  A block reaches
what its scope leads to, and a call what the function and the arguments lead to.  There are no
handles to scopes that are yet to be made. -/
theorem block_and_call_confined {host : Host} (hhost : host.Pure) (fuel : Nat) (m : Machine) :
    (∀ (site : Site) (body : List Stmt) (scope : ScopeId),
      let R := m.store.Reachable (scope :: Stmt.scopesAll body)
      (∀ id, R id → id < m.store.size) →
        Confined Flow.Image R ((layer host fuel).block site body scope) m) ∧
    ∀ (f : Closure) (vs : List Value),
      let R := m.store.Reachable (f.scopes ++ vs.flatMap Value.scopes)
      (∀ id, R id → id < m.store.size) →
        Confined Value.Image R ((layer host fuel).call f vs) m := by
  constructor
  · intro site body scope R hR
    refine .of_tandem hR fun r L ht hr hkeep => ?_
    have hlayer := respects_layer hr (hhost.respects ht hr) fuel
    have hscope := hkeep scope (.root List.mem_cons_self)
    have hbody := fun i hi => hkeep i (.root (List.mem_cons_of_mem _ hi))
    have hfix := Stmt.relabelAll_eq_self body ⟨ht, fun i hi => (hbody i hi).1⟩
    have htandem : Tandem False r L (Flow.Image r L) ((layer host fuel).block site body scope)
        ((layer host fuel).block site (Stmt.relabelAll r body) scope) :=
      Layer.tandem_block hlayer site body ⟨hscope.1.symm, hscope.2⟩ fun i hi => (hbody i hi).2
    rwa [hfix] at htandem
  · intro f vs R hR
    refine .of_tandem hR fun r L ht hr hkeep => ?_
    have hlayer := respects_layer hr (hhost.respects ht hr) fuel
    have hf := fun i hi => hkeep i (.root (List.mem_append_left _ hi))
    have hvs : ∀ v ∈ vs, ∀ i ∈ v.scopes, r.scope i = i ∧ L i := fun v hv i hi =>
      hkeep i (.root (List.mem_append_right _ (List.mem_flatMap.mpr ⟨v, hv, hi⟩)))
    have hfix := f.relabel_eq_self ⟨ht, fun i hi => (hf i hi).1⟩
    have hargs : vs = vs.map (·.relabel r) := by
      refine ((List.map_congr_left fun v hv => ?_).trans (List.map_id' _)).symm
      exact v.relabel_eq_self ⟨ht, fun i hi => (hvs v hv i hi).1⟩
    have htandem : Tandem False r L (Value.Image r L) ((layer host fuel).call f vs)
        ((layer host fuel).call (f.relabel r) vs) :=
      Layer.tandem_call hr hlayer f (fun i hi => (hf i hi).2)
        ⟨hargs, fun v hv i hi => (hvs v hv i hi).2⟩
    rwa [hfix] at htandem

/-! ## Two counters

Two scopes side by side in the global one, each with a variable of its own. -/

theorem Host.pure_withClock (seconds : Float) : (Host.withClock seconds).Pure where
  given entry vs f h := by
    unfold Host.withClock at h
    split at h <;> exact nomatch h
  blind entry vs r _ _ := by
    unfold Host.withClock
    split <;> rfl

def twoCounters : Machine where
  store := ((((Store.empty.addChild 0).addChild 0).addChild 0).define 1 "n" (.number 0)).define 2
    "n" (.number 0)
  current := 0
  sink := .fresh none

/-- The function with the body `n = nil; return n;` in the given scope. -/
def resetCounter (scope : ScopeId) : Closure :=
  let word : Token := ⟨.bare .identifier, "n", 1, 1⟩
  ⟨⟨word, [], [.expression (.assign word (.literal .nil)), .ret default (some (.variable word))]⟩,
    [], scope⟩

theorem reachable_twoCounters {id : ScopeId} (h : twoCounters.store.Reachable [1] id) :
    id ≤ 1 := by
  have hplain : ∀ i x v, twoCounters.store.local? i x = some v → v.scopes = [] := by
    intro i x v hv
    rcases Store.local?_of_define hv with ⟨_, rfl⟩ | hv
    · rfl
    rcases Store.local?_of_define hv with ⟨_, rfl⟩ | hv
    · rfl
    rw [Store.local?_addChild, Store.local?_addChild, Store.local?_addChild] at hv
    simp [Store.local?, Store.empty] at hv
  induction h with
  | root h => exact Nat.le_of_eq (List.mem_singleton.mp h)
  | outer _ he ih => exact Nat.le_trans (Nat.le_of_lt (Store.enclosing?_lt he)) ih
  | stored _ hv hi _ =>
    rw [hplain _ _ _ hv] at hi
    cases hi

theorem resetCounter_confined : ¬twoCounters.store.Reachable [1] 2 ∧
    Confined Value.Image (twoCounters.store.Reachable [1])
      ((layer (.withClock 0) 9).call (resetCounter 1) []) twoCounters ∧
    Confined Flow.Image (twoCounters.store.Reachable [1])
      ((layer (.withClock 0) 9).block [] (resetCounter 1).declaration.body 1) twoCounters := by
  have hlt : ∀ id, twoCounters.store.Reachable [1] id → id < twoCounters.store.size :=
    fun id h => Nat.lt_of_le_of_lt (reachable_twoCounters h) (by decide)
  have hpure := Host.pure_withClock 0
  exact ⟨fun h => absurd (reachable_twoCounters h) (by decide),
    (block_and_call_confined hpure 9 twoCounters).2 (resetCounter 1) [] hlt,
    (block_and_call_confined hpure 9 twoCounters).1 [] (resetCounter 1).declaration.body 1 hlt⟩

end Lox
