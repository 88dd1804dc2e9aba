import Lox.Proofs.Comparison.Evaluation
import Lox.Proofs.Relabeling.Tandem
import Lox.Proofs.Scopes.Folding
import Lox.Proofs.Scopes.Reachability

/-!
Running with passages and without.

The same trees run alike on a machine with passages and on one where these are folded.  Around a
passage nothing can tell that it is there: names are looked up through it, and statements that
declare nothing can be executed in it, since they bind no name where they are executed.
-/

namespace Lox

/-- A statement that binds no name in the scope where it is executed. -/
inductive Stmt.Undeclaring : Stmt → Prop
  | print {t : Token} {e : Expr} : Undeclaring (.print t e)
  | expression {e : Expr} : Undeclaring (.expression e)
  | block {ss : List Stmt} : Undeclaring (.block ss)
  | branch {c : Expr} {s : Stmt} {t : Option Stmt} : Undeclaring s → (∀ u ∈ t, Undeclaring u) →
      Undeclaring (.branch c s t)
  | loop {c : Expr} {s : Stmt} : Undeclaring s → Undeclaring (.loop c s)
  | ret {t : Token} {e : Option Expr} : Undeclaring (.ret t e)

namespace Folding

variable {old : Nat}

/-- Whether two scopes are the same place, and as much of a place as is asked for. -/
def At (w : Folding old) : Place → ScopeId → ScopeId → Prop
  | .anywhere, _, _ => True
  | .reading, i, j => i < w.made ∧ j = w.scope i
  | .declaring, i, j => w.Keeps i ∧ j = w.scope i

/-- Two machines that are at the same place in a store with passages and without. -/
structure Matches (w : Folding old) (place : Place) (m n : Machine) : Prop where
  store : w.Folds m.store n.store
  sink : n.sink = m.sink
  current : w.At place m.current n.current

/-- Two ends of the same kind, in the scopes where `m` and `n` were. -/
inductive Ends (w : Folding old) {α : Type} (R : α → α → Prop) (m n : Machine) :
    EStateM.Result Halt Machine α → EStateM.Result Halt Machine α → Prop
  | ok {a b : α} {m' n' : Machine} : R a b → w.Folds m'.store n'.store → n'.sink = m'.sink →
      m'.current = m.current → n'.current = n.current → Ends w R m n (.ok a m') (.ok b n')
  | error {halt : Halt} {m' n' : Machine} : w.Folds m'.store n'.store → n'.sink = m'.sink →
      m'.current = m.current → n'.current = n.current →
      Ends w R m n (.error halt m') (.error halt n')

/-- Two actions that end alike from the same place. -/
def Acts (w : Folding old) (place : Place) {α : Type} (R : Folding old → α → α → Prop)
    (p q : Action α) : Prop :=
  ∀ m n, w.Matches place m n → ∃ w', w.Later w' ∧ w'.Ends (R w') m n (p m) (q n)

/-- The stores in the end, however that came. -/
theorem Ends.folds {w : Folding old} {α : Type} {R : α → α → Prop} {m n : Machine}
    {p q : Action α} (h : w.Ends R m n (p m) (q n)) :
    w.Folds (p.after m).store (q.after n).store := by
  unfold Action.after
  generalize p m = x, q n = y at h
  cases h with
  | ok _ hstore _ _ _ => exact hstore
  | error hstore _ _ _ => exact hstore

theorem Ends.current {w : Folding old} {α : Type} {R : α → α → Prop} {m n : Machine}
    {p q : Action α} (h : w.Ends R m n (p m) (q n)) : (p.after m).current = m.current := by
  unfold Action.after
  generalize p m = x, q n = y at h
  cases h with
  | ok _ _ _ hleft _ => exact hleft
  | error _ _ hleft _ => exact hleft

theorem Later.at {w w' : Folding old} (h : w.Later w') {place : Place} {i j : ScopeId}
    (hij : w.At place i j) : w'.At place i j := by
  cases place with
  | anywhere => trivial
  | reading => exact ⟨Nat.lt_of_lt_of_le hij.1 h.made, hij.2.trans (h.scope i hij.1).symm⟩
  | declaring => exact ⟨h.keeps hij.1, hij.2.trans (h.scope i hij.1.1).symm⟩

theorem At.reading {w : Folding old} {place : Place} (hplace : place ≠ .anywhere) {i j : ScopeId}
    (h : w.At place i j) : w.At .reading i j := by
  cases place with
  | anywhere => exact absurd rfl hplace
  | reading => exact h
  | declaring => exact ⟨h.1.1, h.2⟩

namespace Acts

variable {α β : Type} {w : Folding old} {place : Place} {R : Folding old → α → α → Prop}
  {S : Folding old → β → β → Prop} {p q : Action α} {f g : α → Action β}

theorem pure {a b : α} (h : R w a b) : w.Acts place R (pure a) (pure b) :=
  fun _ _ hm => ⟨w, .refl w, .ok h hm.store hm.sink rfl rfl⟩

theorem throw (halt : Halt) : w.Acts place R (throw halt) (throw halt) :=
  fun _ _ hm => ⟨w, .refl w, .error hm.store hm.sink rfl rfl⟩

theorem bind (hp : w.Acts place R p q)
    (hf : ∀ w' a b, w.Later w' → R w' a b → w'.Acts place S (f a) (g b)) :
    w.Acts place S (p >>= f) (q >>= g) := by
  intro m n hm
  obtain ⟨w₁, hl₁, hends⟩ := hp m n hm
  rw [Action.bind_apply, Action.bind_apply]
  generalize p m = x, q n = y at hends
  cases hends with
  | error hstore hsink hleft hright => exact ⟨w₁, hl₁, .error hstore hsink hleft hright⟩
  | @ok a b m₁ n₁ hR hstore hsink hleft hright =>
    have hcurrent := hl₁.at hm.current
    rw [← hleft, ← hright] at hcurrent
    obtain ⟨w₂, hl₂, hends⟩ := hf w₁ a b hl₁ hR m₁ n₁ ⟨hstore, hsink, hcurrent⟩
    refine ⟨w₂, hl₁.trans hl₂, ?_⟩
    dsimp only
    generalize f a m₁ = x, g b n₁ = y at hends
    cases hends with
    | error hstore hsink hl hr => exact .error hstore hsink (hl.trans hleft) (hr.trans hright)
    | ok hS hstore hsink hl hr => exact .ok hS hstore hsink (hl.trans hleft) (hr.trans hright)

theorem of_reading (hplace : place ≠ .anywhere) (h : w.Acts .reading R p q) :
    w.Acts place R p q :=
  fun m n hm => h m n ⟨hm.store, hm.sink, hm.current.reading hplace⟩

/-- What operators compute holds no function, so it is the same on both sides. -/
theorem blame (t : Token) {result : Except RuntimeFault Value}
    (h : ∀ u, result = .ok u → Within (fun _ => False) u.scopes) :
    w.Acts place Alike (Action.blame t result)
      (Action.blame t (result.map (·.relabel w.relabeling))) := by
  cases result with
  | error fault => exact throw _
  | ok u =>
    have hnone := List.eq_nil_iff_forall_not_mem.mpr (h u rfl)
    have halike := Alike.plain (w := w) hnone
    refine pure (a := u) (b := u.relabel w.relabeling) ?_
    rwa [← halike.image.1]

theorem inScope {i j : ScopeId} (hi : w.At .declaring i j) (h : w.Acts .declaring R p q) :
    w.Acts place R (Action.inScope i p) (Action.inScope j q) := by
  intro m n hm
  obtain ⟨w', hl, hends⟩ := h { m with current := i } { n with current := j }
    ⟨hm.store, hm.sink, hi⟩
  refine ⟨w', hl, ?_⟩
  unfold Action.inScope
  dsimp only
  generalize p { m with current := i } = x, q { n with current := j } = y at hends
  cases hends with
  | ok hR hstore hsink _ _ => exact .ok hR hstore hsink rfl rfl
  | error hstore hsink _ _ => exact .error hstore hsink rfl rfl

theorem openScope {i j : ScopeId} (hi : w.At .reading i j) :
    w.Acts place (fun w => w.At .declaring) (Action.openScope i) (Action.openScope j) := by
  intro m n hm
  obtain ⟨hlt, rfl⟩ := hi
  have hfolds := hm.store.addChild hlt
  refine ⟨_, w.later_keep _ hm.store.image, .ok ?_ hfolds hm.sink rfl rfl⟩
  rw [hm.store.size]
  exact ⟨⟨Nat.lt_succ_self _, fun hp => hp.2 rfl⟩, (if_pos rfl).symm⟩

/-- Opening a passage on one side, and what is done in it. -/
theorem ends_passage {m n : Machine} (hm : w.Matches .reading m n)
    (h : (w.pass m.current).Acts .reading R p q) :
    ∃ w', (w.pass m.current).Later w' ∧ w'.Ends (R w') m n ((do
      let scope ← Action.openScope (← get).current
      Action.inScope scope p : Action α) m) (q n) := by
  obtain ⟨hlt, hcurrent⟩ := hm.current
  have hat : (w.pass m.current).At .reading m.store.size n.current := by
    rw [hm.store.size]
    exact ⟨Nat.lt_succ_self _, hcurrent.trans (if_pos rfl).symm⟩
  obtain ⟨w', hl, hends⟩ := h { m with
    store := m.store.addChild m.current, current := m.store.size } n
    ⟨hm.store.addPassage hlt, hm.sink, hat⟩
  refine ⟨w', hl, ?_⟩
  show w'.Ends (R w') m n (Action.inScope m.store.size p
    { m with store := m.store.addChild m.current }) (q n)
  unfold Action.inScope
  dsimp only
  generalize p _ = x, q n = y at hends ⊢
  cases hends with
  | ok hR hstore hsink _ hright => exact .ok hR hstore hsink rfl hright
  | error hstore hsink _ hright => exact .error hstore hsink rfl hright

/-- A passage on one side makes no difference. -/
theorem passage (h : ∀ w', w.Later w' → w'.Acts .reading R p q) :
    w.Acts .reading R (do
      let scope ← Action.openScope (← get).current
      Action.inScope scope p) q := by
  intro m n hm
  have hl := w.later_pass m.current
  obtain ⟨w', hl', hends⟩ := ends_passage hm (h _ hl)
  exact ⟨w', hl.trans hl', hends⟩

/-- Nothing is ever bound in a passage. -/
theorem unbound_passage {m n : Machine} (hm : w.Matches .reading m n)
    (h : (w.pass m.current).Acts .reading R p q) (x : String) : (Action.after (do
      let scope ← Action.openScope (← get).current
      Action.inScope scope p) m).store.local? m.store.size x = none := by
  obtain ⟨w', hl, hends⟩ := ends_passage hm h
  have hlt : w.made < (w.pass m.current).made := Nat.lt_succ_self _
  have hpassage : w'.passage w.made := (hl.passage _ hlt).mpr (.inr rfl)
  rw [hm.store.size]
  exact hends.folds.unbound w.made (Nat.lt_of_lt_of_le hlt hl.made) hpassage x

theorem lookup (t : Token) : w.Acts .reading Alike (Action.lookup t) (Action.lookup t) := by
  intro m n hm
  obtain ⟨hlt, hcurrent⟩ := hm.current
  have hfind := hm.store.find? t.lexeme hlt
  rw [← hcurrent] at hfind
  refine ⟨w, .refl w, ?_⟩
  rw [Action.lookup_apply, Action.lookup_apply, Store.get?, Store.get?]
  generalize m.store.find? t.lexeme m.current = o, n.store.find? t.lexeme n.current = o' at hfind
  cases hfind with
  | none => exact .error hm.store hm.sink rfl rfl
  | some h => exact .ok h.2.2 hm.store hm.sink rfl rfl

theorem assign (t : Token) {v v' : Value} (hv : w.Alike v v') :
    w.Acts .reading (fun _ _ _ => True) (Action.assign t v) (Action.assign t v') := by
  intro m n hm
  obtain ⟨hlt, hcurrent⟩ := hm.current
  have hfind := hm.store.find? t.lexeme hlt
  rw [← hcurrent] at hfind
  refine ⟨w, .refl w, ?_⟩
  unfold Action.assign Store.assign
  generalize m.store.find? t.lexeme m.current = o, n.store.find? t.lexeme n.current = o' at hfind
  cases hfind with
  | none => exact .error hm.store hm.sink rfl rfl
  | @some found found' h =>
    obtain ⟨holder, u⟩ := found
    obtain ⟨holder', u'⟩ := found'
    obtain ⟨hkeeps, rfl, -⟩ := h
    exact .ok trivial (hm.store.define hkeeps t.lexeme hv) hm.sink rfl rfl

theorem bindIn (t : Token) {i j : ScopeId} (hi : w.At .declaring i j) {v v' : Value}
    (hv : w.Alike v v') : w.Acts place (fun _ _ _ => True)
      (modify fun m => { m with store := m.store.define i t.lexeme v })
      (modify fun m => { m with store := m.store.define j t.lexeme v' }) := by
  intro m n hm
  obtain ⟨hkeeps, rfl⟩ := hi
  exact ⟨w, .refl w, .ok trivial (hm.store.define hkeeps t.lexeme hv) hm.sink rfl rfl⟩

theorem define (t : Token) {v v' : Value} (hv : w.Alike v v') :
    w.Acts .declaring (fun _ _ _ => True) (Action.define t.lexeme v)
      (Action.define t.lexeme v') := by
  intro m n hm
  exact bindIn t hm.current hv m n hm

theorem print (t : Token) {v v' : Value} (hv : w.Alike v v') :
    w.Acts place (fun _ _ _ => True) (Action.print t v) (Action.print t v') := by
  intro m n hm
  refine ⟨w, .refl w, ?_⟩
  unfold Action.print
  rw [hm.sink, hv.image.1, Value.text_relabel w.faithful]
  obtain ⟨_ | fault, sink⟩ := m.sink.print v.text
  · exact .ok trivial hm.store rfl rfl rfl
  · exact .error hm.store rfl rfl rfl

end Acts

/-! ## The comparison -/

section

theorem same_of_scopesAll {es : List Expr} (h : Within (· < old) (Expr.scopesAll es)) :
    List.Forall₂ (fun e e' => e' = e ∧ Within (· < old) e.scopes) es es := by
  induction es with
  | nil => exact .nil
  | cons e es ih => exact .cons ⟨rfl, h.left⟩ (ih h.right)

theorem same_of_scopesOptional {e : Option Expr}
    (h : Within (· < old) (Expr.scopesOptional e)) :
    Option.Rel (fun e e' => e' = e ∧ Within (· < old) e.scopes) e e := by
  cases e with
  | none => exact .none
  | some e => exact .some ⟨rfl, h⟩

/-- What is asked of statements that are executed at a place. -/
structure Runs (old : Nat) (place : Place) (s s' : Stmt) : Prop where
  same : s' = s
  scopes : Within (· < old) s.scopes
  located : place ≠ .anywhere
  undeclaring : place = .reading → s.Undeclaring

theorem Runs.declaring {s : Stmt} (h : Within (· < old) s.scopes) : Runs old .declaring s s :=
  ⟨rfl, h, Place.declaring_ne, by simp⟩

theorem Runs.reading {s : Stmt} (h : Within (· < old) s.scopes) (hs : s.Undeclaring) :
    Runs old .reading s s :=
  ⟨rfl, h, Place.reading_ne, fun _ => hs⟩

theorem runs_of_scopesAll {ss : List Stmt} (h : Within (· < old) (Stmt.scopesAll ss)) :
    List.Forall₂ (Runs old .declaring) ss ss := by
  induction ss with
  | nil => exact .nil
  | cons s ss ih => exact .cons (.declaring h.left) (ih h.right)

end

end Folding

/-- Comparing runs with passages to runs without. -/
def Comparison.folding (old : Nat) : Comparison where
  World := Folding old
  Later := Folding.Later
  token _ t t' := t' = t
  value := Folding.Alike
  reads w := w.At .reading
  scope w := w.At .declaring
  expr _ e e' := e' = e ∧ Within (· < old) e.scopes
  stmt _ := Folding.Runs old
  declaration _ d d' := d' = d ∧ Within (· < old) d.scopes
  Acts := Folding.Acts
  later_trans := .trans
  value_later h := h.alike
  scope_later h := h.at
  expr_later _ h := h
  stmt_later _ h := h
  declaration_later _ h := h
  value_parts := by
    rintro w v v' h
    cases h with
    | function site hd hi => exact .function rfl ⟨hi.1, rfl⟩ ⟨rfl, hd⟩
    | plain hv =>
      cases v with
      | function f =>
        obtain ⟨d, site, i⟩ := f
        exact nomatch hv
      | native f => exact .native
      | nil | bool _ | number _ | string _ => exact .other rfl rfl
  expr_parts := by
    rintro w _ e ⟨rfl, h⟩
    cases e with
    | literal v => exact .literal (Folding.alike_old h)
    | grouping e => exact .grouping ⟨rfl, h⟩
    | unary t e => exact .unary rfl ⟨rfl, h⟩
    | binary l t r => exact .binary ⟨rfl, h.left⟩ rfl ⟨rfl, h.right⟩
    | logical l t r => exact .logical ⟨rfl, h.left⟩ rfl ⟨rfl, h.right⟩
    | «variable» t => exact .variable rfl
    | assign t e => exact .assign rfl ⟨rfl, h⟩
    | call f t es => exact .call ⟨rfl, h.left⟩ rfl (Folding.same_of_scopesAll h.right)
  stmt_parts := by
    rintro w place _ s ⟨rfl, h, hplace, hundeclaring⟩
    -- Where nothing may be declared, nothing is.
    have hdeclaring : ¬s.Undeclaring → place = .declaring := by
      intro hs
      cases place with
      | anywhere => exact absurd rfl hplace
      | reading => exact absurd (hundeclaring rfl) hs
      | declaring => rfl
    cases s with
    | print t e => exact .print rfl ⟨rfl, h⟩
    | expression e => exact .expression ⟨rfl, h⟩
    | declare t e =>
      obtain rfl := hdeclaring nofun
      exact .declare rfl (Folding.same_of_scopesOptional h)
    | block ss => exact .block (Folding.runs_of_scopesAll h)
    | branch c s t =>
      refine .branch ⟨rfl, h.left.left⟩ ⟨rfl, h.left.right, hplace, fun hr => ?_⟩ ?_
      · cases hundeclaring hr with
        | branch hs _ => exact hs
      · cases t with
        | none => exact .none
        | some u =>
          refine .some ⟨rfl, h.right, hplace, fun hr => ?_⟩
          cases hundeclaring hr with
          | branch _ ht => exact ht u rfl
    | loop c s =>
      refine .loop ⟨rfl, h.left⟩ ⟨rfl, h.right, hplace, fun hr => ?_⟩
      cases hundeclaring hr with
      | loop hs => exact hs
    | function d =>
      obtain rfl := hdeclaring nofun
      exact .function rfl ⟨rfl, h⟩
    | ret t e => exact .ret (Folding.same_of_scopesOptional h)
  stmt_place h := h.located
  declaration_parts := by
    rintro w _ ⟨name, parameters, body⟩ ⟨rfl, h⟩
    exact ⟨List.forall₂_same.mpr fun _ _ => rfl, Folding.runs_of_scopesAll h⟩
  truth h := by rw [h.image.1, Value.truth_relabel]
  nil := .plain rfl
  closure := by
    rintro w _ d i _ site ⟨rfl, hd⟩ ⟨hi, rfl⟩
    exact .function site hd hi
  pure := .pure
  bind := .bind
  of_reading := .of_reading
  exhausted := .throw _
  sign := by
    rintro w place _ t v v' rfl hv
    rw [hv.image.1, Value.unary_relabel]
    exact .blame t fun u => Value.within_of_unary
  operator := by
    rintro w place _ t u u' v v' rfl hu hv
    rw [hu.image.1, hv.image.1, Value.binary_relabel w.faithful t.kind hu.image.2 hv.image.2]
    exact .blame t fun u => Value.within_of_binary
  connective := by
    rintro _ t rfl
    rfl
  unknown := by
    rintro w place _ t _ _ rfl _ _
    exact .throw _
  notCallable := by
    rintro w place _ t _ _ _ rfl
    exact .throw _
  wrongArity := by
    rintro w place _ t _ _ _ _ _ _ rfl _ _ _
    exact .throw _
  lookup := by
    rintro w _ t rfl
    exact .lookup t
  assign := by
    rintro w _ t _ _ rfl hv
    exact .assign t hv
  define := by
    rintro w _ t _ _ rfl hv
    exact .define t hv
  bindIn := by
    rintro w place _ t _ _ _ _ rfl hi hv
    exact .bindIn t hi hv
  current := fun {w} m n hm => ⟨w, .refl w, .ok hm.current hm.store hm.sink rfl rfl⟩
  here := fun {w} m n hm => ⟨w, .refl w, .ok hm.current hm.store hm.sink rfl rfl⟩
  openScope := .openScope
  inScope := .inScope
  print := by
    rintro w place _ t _ _ rfl hv
    rw [Action.printAs_text]
    exact .print t hv

/-- Alike arguments give alike results, since a function that comes back was given. -/
theorem Host.Pure.alike {host : Host} (hhost : host.Pure) {old : Nat} :
    host.Alike (Comparison.folding old).toLikeness := by
  intro w entry vs vs' h
  replace h : List.Forall₂ w.Alike vs vs' := h
  have hvs' : vs' = vs.map (·.relabel w.relabeling) := by
    induction h with
    | nil => rfl
    | cons hv _ ih => rw [List.map_cons, ← hv.image.1, ← ih]
  have hkeeps : ∀ i ∈ vs.flatMap Value.scopes, w.Keeps i := by
    clear hvs'
    induction h with
    | nil => exact nofun
    | cons hv _ ih =>
      rw [List.flatMap_cons, List.forall_mem_append]
      exact ⟨hv.image.2, ih⟩
  have hblind := hhost.blind entry vs w.relabeling (fun _ => rfl) fun i hi j hj =>
    w.faithful.injective i j (hkeeps i hi) (hkeeps j hj)
  show w.Alike _ _
  rw [hvs', hblind]
  cases hv : host entry vs with
  | function f =>
    have hmem := hhost.given entry vs f hv
    clear hblind hkeeps hvs' hv
    induction h with
    | nil => exact nomatch hmem
    | @cons v v' _ _ halike _ ih =>
      rcases List.mem_cons.mp hmem with rfl | hmem
      · rwa [← halike.image.1]
      · exact ih hmem
  | nil | bool _ | number _ | string _ | native _ => exact .plain rfl

namespace Folding

variable {old : Nat} {w : Folding old}

/-- Two flows with alike values. -/
def Flows (w : Folding old) : Flow → Flow → Prop
  | .normal, .normal => True
  | .returned v, .returned v' => w.Alike v v'
  | _, _ => False

theorem Ends.flows {m n : Machine} {x y : EStateM.Result Halt Machine Flow}
    (h : w.Ends ((Comparison.folding old).FlowParts w) m n x y) : w.Ends w.Flows m n x y := by
  cases h with
  | error hstore hsink hleft hright => exact .error hstore hsink hleft hright
  | ok hflow hstore hsink hleft hright =>
    refine .ok ?_ hstore hsink hleft hright
    cases hflow with
    | normal => trivial
    | returned hv => exact hv

end Folding

end Lox
