import Lox.Proofs.Relabeling.Names
import Lox.Proofs.Relabeling.Tandem

/-!
Running trees under other names.

A tree is compared with the same tree under other names.  Names are only ever looked up, bound and
told to be undefined, and functions are only told apart, so the runs differ in names only.  What
they print differs as much as what they show of values does.
-/

namespace Lox

variable {r : String → String} {same : Prop}

/-! ## What two runs leave behind -/

/-- A fault that is told of the renamed token like that of the token itself.  Only an undefined
variable is told by its name. -/
def RuntimeError.Retold (r : String → String) (e : RuntimeError) : Prop :=
  (e.relabel (.renaming r)).message =
    if e.fault = .undefinedVariable then "Undefined variable '" ++ r e.token.lexeme ++ "'."
    else e.message

def Halt.Retold (r : String → String) : Halt → Prop
  | .fault e => e.Retold r
  | .outOfFuel => True

theorem Halt.retold_outOfFuel : Halt.Retold r .outOfFuel := trivial

theorem RuntimeError.retold_of_identifier {t : Token} (h : t.kind = .identifier) :
    Retold r ⟨t, .undefinedVariable⟩ := by
  rw [Retold, if_pos rfl]
  show "Undefined variable '" ++ (t.rename r).lexeme ++ "'." = _
  rw [Token.rename_of_identifier h]

theorem RuntimeError.retold_of_ne {t : Token} {fault : RuntimeFault} (h : t.kind ≠ .identifier)
    (hfault : fault ≠ .undefinedVariable) : Retold r ⟨t, fault⟩ := by
  rw [Retold, if_neg hfault]
  show RuntimeError.message ⟨t.rename r, fault⟩ = _
  rw [Token.rename_of_ne h]

/-- Sinks that break alike.  If the `same` was printed, they hold the same text. -/
structure Sink.Alike (same : Prop) (s s' : Sink) : Prop where
  flushes : s'.flushes = s.flushes
  breakage : s'.breakage = s.breakage
  text : same → s'.text = s.text

theorem Sink.Alike.print {s s' : Sink} (h : s.Alike same s') {line line' : String}
    (hline : same → line' = line) :
    (s'.print line').1 = (s.print line).1 ∧ (s.print line).2.Alike same (s'.print line').2 := by
  have hcollect : same → (s'.collect line').text = (s.collect line).text := fun hsame => by
    rw [Sink.collect, Sink.collect, h.text hsame, hline hsame]
  have hfault : s'.fault? = s.fault? := by
    rw [Sink.fault?, Sink.fault?, h.breakage, h.flushes]
  unfold Sink.print
  rw [hfault]
  cases s.fault? with
  | none => exact ⟨rfl, congrArg Nat.succ h.flushes, h.breakage, hcollect⟩
  | some fault =>
    cases fault with
    | unflushable => exact ⟨rfl, h.flushes, h.breakage, hcollect⟩
    | closed | full => exact ⟨rfl, h⟩

/-- Whether a machine holds under other names what another one holds. -/
structure Machine.Renamed (r : String → String) (same : Prop) (m n : Machine) : Prop where
  store : m.store.Renamed r n.store
  sink : m.sink.Alike same n.sink
  current : n.current = m.current

/-- Two ends of the same kind, with results related by `R` and a fault that is retold. -/
inductive Retells (r : String → String) (same : Prop) {α : Type} (R : α → α → Prop) :
    EStateM.Result Halt Machine α → EStateM.Result Halt Machine α → Prop
  | ok {a b : α} {m n : Machine} : R a b → m.Renamed r same n → Retells r same R (.ok a m) (.ok b n)
  | error {halt : Halt} {m n : Machine} : halt.Retold r → m.Renamed r same n →
      Retells r same R (.error halt m) (.error (halt.relabel (.renaming r)) n)

/-- Whether the second action does under other names what the first one does. -/
def Renames (r : String → String) (same : Prop) {α : Type} (R : α → α → Prop) (p q : Action α) :
    Prop :=
  ∀ m n : Machine, m.Renamed r same n → Retells r same R (p m) (q n)

/-! ## Actions -/

namespace Renames

variable {α β : Type} {R : α → α → Prop} {S : β → β → Prop} {p q : Action α} {f g : α → Action β}

theorem pure {a b : α} (h : R a b) : Renames r same R (pure a) (pure b) := fun _ _ hm => .ok h hm

theorem throw {halt : Halt} (h : halt.Retold r) :
    Renames r same R (throw halt) (throw (halt.relabel (.renaming r))) :=
  fun _ _ hm => .error h hm

/-- A token that is no identifier keeps its lexeme, and so does what is told of it. -/
theorem fail {t : Token} {fault : RuntimeFault} (ht : t.kind ≠ .identifier)
    (hfault : fault ≠ .undefinedVariable := by simp) :
    Renames r same R (Action.fail t fault) (Action.fail (t.rename r) fault) := by
  have hretold : Halt.Retold r (.fault ⟨t, fault⟩) := RuntimeError.retold_of_ne ht hfault
  exact throw hretold

theorem bind (hp : Renames r same R p q) (hf : ∀ a b, R a b → Renames r same S (f a) (g b)) :
    Renames r same S (p >>= f) (q >>= g) := by
  intro m n hm
  have h := hp m n hm
  rw [Action.bind_apply, Action.bind_apply]
  generalize p m = x at h ⊢
  generalize q n = y at h ⊢
  cases h with
  | ok hab hm => exact hf _ _ hab _ _ hm
  | error hhalt hm => exact .error hhalt hm

theorem blame {t : Token} {result : Except RuntimeFault Value} (ht : t.kind ≠ .identifier)
    (h : Computed result) : Renames r same (Value.Renamed r) (Action.blame t result)
      (Action.blame (t.rename r) (result.map (·.relabel (.renaming r)))) := by
  cases result with
  | ok v => exact pure ⟨rfl, Value.named_of_arity? h⟩
  | error fault => exact fail ht h

/-- Looking at a machine shows the current scope. -/
theorem get : Renames r same (fun m n => n.current = m.current) get get :=
  fun _ _ hm => .ok hm.current hm

theorem openScope (outer : ScopeId) :
    Renames r same (fun i j => j = i) (Action.openScope outer) (Action.openScope outer) :=
  fun _ _ hm => .ok hm.store.size ⟨hm.store.addChild outer, hm.sink, hm.current⟩

theorem inScope (scope : ScopeId) (h : Renames r same R p q) :
    Renames r same R (Action.inScope scope p) (Action.inScope scope q) := by
  intro m n hm
  have h := h { m with current := scope } { n with current := scope } ⟨hm.store, hm.sink, rfl⟩
  unfold Action.inScope
  generalize p { m with current := scope } = x at h ⊢
  generalize q { n with current := scope } = y at h ⊢
  cases h with
  | ok hab hm' => exact .ok hab ⟨hm'.store, hm'.sink, hm.current⟩
  | error hhalt hm' => exact .error hhalt ⟨hm'.store, hm'.sink, hm.current⟩

theorem print {shown shown' : Value → String} {t : Token} {v w : Value}
    (ht : Role.printing.Suits Token.Named t) (hline : same → shown' w = shown v) :
    Renames r same (fun _ _ => True) (Action.printAs shown t v)
      (Action.printAs shown' (t.rename r) w) := by
  intro m n hm
  have h := hm.sink.print hline
  unfold Action.printAs Action.print
  dsimp only [Value.text]
  generalize m.sink.print (shown v) = x at h ⊢
  generalize n.sink.print (shown' w) = y at h ⊢
  obtain ⟨fault, sink⟩ := x
  obtain ⟨fault', sink'⟩ := y
  obtain ⟨rfl, hsink⟩ := h
  cases fault' with
  | none => exact .ok trivial ⟨hm.store, hsink, hm.current⟩
  | some fault =>
    have hretold : Halt.Retold r (.fault ⟨t, .outputFailed fault⟩) :=
      RuntimeError.retold_of_ne ht.not_identifier (by simp)
    exact .error hretold ⟨hm.store, hsink, hm.current⟩

theorem lookup {t : Token} (ht : Role.name.Suits Token.Named t) :
    Renames r same (Value.Renamed r) (Action.lookup t) (Action.lookup (t.rename r)) := by
  intro m n hm
  rw [Action.lookup_apply, Action.lookup_apply, ht.lexeme_rename, hm.current,
    hm.store.get? ht.isName]
  cases hv : m.store.get? m.current t.lexeme with
  | none => exact .error (RuntimeError.retold_of_identifier ht.identifier) hm
  | some v => exact .ok ⟨rfl, hm.store.named_of_get? hv⟩ hm

variable (hr : Set.InjOn r {x | IsName x})
include hr

theorem bindIn (scope : ScopeId) {t : Token} {v w : Value} (ht : Role.name.Suits Token.Named t)
    (hv : v.Renamed r w) : Renames r same (fun _ _ => True)
      (modify fun m => { m with store := m.store.define scope t.lexeme v })
      (modify fun m => { m with store := m.store.define scope (t.rename r).lexeme w }) := by
  intro m n hm
  rw [ht.lexeme_rename, hv.1]
  exact .ok trivial ⟨hm.store.define hr ht.isName scope hv.2, hm.sink, hm.current⟩

theorem define {t : Token} {v w : Value} (ht : Role.name.Suits Token.Named t)
    (hv : v.Renamed r w) : Renames r same (fun _ _ => True) (Action.define t.lexeme v)
      (Action.define (t.rename r).lexeme w) := by
  rintro m ⟨τ, _, sink⟩ hm
  cases hm.current
  exact bindIn hr m.current ht hv m ⟨τ, m.current, sink⟩ hm

theorem assign {t : Token} {v w : Value} (ht : Role.name.Suits Token.Named t)
    (hv : v.Renamed r w) : Renames r same (fun _ _ => True) (Action.assign t v)
      (Action.assign (t.rename r) w) := by
  rintro m ⟨τ, _, sink⟩ hm
  cases hm.current
  unfold Action.assign Store.assign
  rw [ht.lexeme_rename, hm.store.find? ht.isName, hv.1]
  cases m.store.find? t.lexeme m.current with
  | none => exact .error (RuntimeError.retold_of_identifier ht.identifier) hm
  | some found =>
    exact .ok trivial ⟨hm.store.define hr ht.isName found.1 hv.2, hm.sink, rfl⟩

end Renames

/-! ## Trees -/

/-- An expression under other names. -/
def Expr.Renamed (r : String → String) (e e' : Expr) : Prop :=
  e' = e.relabel (.renaming r) ∧ e.Fits (Role.Suits Token.Named)

/-- A statement under other names, where names can be bound. -/
def Stmt.Renamed (r : String → String) (place : Place) (s s' : Stmt) : Prop :=
  place = .declaring ∧ s' = s.relabel (.renaming r) ∧ s.Fits (Role.Suits Token.Named)

theorem Expr.renamed_all {es : List Expr} (h : ∀ e ∈ es, e.Fits (Role.Suits Token.Named)) :
    List.Forall₂ (Expr.Renamed r) es (Expr.relabelAll (.renaming r) es) := by
  rw [Expr.relabelAll_eq, List.forall₂_map_right_iff]
  exact List.forall₂_same.mpr fun e he => ⟨rfl, h e he⟩

theorem Expr.renamed_optional {e : Option Expr}
    (h : ∀ u ∈ e, u.Fits (Role.Suits Token.Named)) :
    Option.Rel (Expr.Renamed r) e (Expr.relabelOptional (.renaming r) e) := by
  cases e with
  | none => exact .none
  | some u => exact .some ⟨rfl, h u rfl⟩

theorem Stmt.renamed_all {ss : List Stmt} (h : ∀ s ∈ ss, s.Fits (Role.Suits Token.Named)) :
    List.Forall₂ (Stmt.Renamed r .declaring) ss (Stmt.relabelAll (.renaming r) ss) := by
  rw [Stmt.relabelAll_eq, List.forall₂_map_right_iff]
  exact List.forall₂_same.mpr fun s hs => ⟨rfl, rfl, h s hs⟩

/-! ## Comparing runs to runs under other names -/

/-- Whether the values of programs show under other names as they do under their own. -/
def ShownAlike (r : String → String) (shown shown' : Value → String) : Prop :=
  ∀ v : Value, v.Named → shown' (v.relabel (.renaming r)) = shown v

/-- Everything is alike to itself under other names. -/
def Comparison.renaming {r : String → String} (hr : Set.InjOn r {x | IsName x})
    (shown shown' : Value → String) : Comparison where
  World := Unit
  Later _ _ := True
  token role t t' := t' = t.rename r ∧ role.Suits Token.Named t
  value _ := Value.Renamed r
  reads _ i j := j = i
  scope _ i j := j = i
  expr _ := Expr.Renamed r
  stmt _ := Stmt.Renamed r
  declaration _ d d' := d' = d.relabel (.renaming r) ∧ d.Named
  Acts _ _ _ R p q := Renames r (ShownAlike r shown shown') (R ()) p q
  shown := shown
  shown' := shown'
  later_trans _ _ := trivial
  value_later _ h := h
  scope_later _ h := h
  expr_later _ h := h
  stmt_later _ h := h
  declaration_later _ h := h
  value_parts := by
    rintro _ v _ ⟨rfl, hv⟩
    cases v with
    | function f =>
      cases f
      exact .function rfl rfl ⟨rfl, hv⟩
    | native f => exact .native
    | nil | bool _ | number _ | string _ => exact .other rfl rfl
  expr_parts := by
    rintro _ e _ ⟨rfl, he⟩
    cases he with
    | literal h => exact .literal ⟨rfl, Value.named_of_arity? h⟩
    | grouping h => exact .grouping ⟨rfl, h⟩
    | unary ht h => exact .unary ⟨rfl, ht⟩ ⟨rfl, h⟩
    | binary hl ht hr => exact .binary ⟨rfl, hl⟩ ⟨rfl, ht⟩ ⟨rfl, hr⟩
    | logical hl ht hr => exact .logical ⟨rfl, hl⟩ ⟨rfl, ht⟩ ⟨rfl, hr⟩
    | «variable» ht => exact .variable ⟨rfl, ht⟩
    | assign ht h => exact .assign ⟨rfl, ht⟩ ⟨rfl, h⟩
    | call hf ht hes => exact .call ⟨rfl, hf⟩ ⟨rfl, ht⟩ (Expr.renamed_all hes)
  stmt_parts := by
    rintro _ _ s _ ⟨rfl, rfl, hs⟩
    cases hs with
    | print ht h => exact .print ⟨rfl, ht⟩ ⟨rfl, h⟩
    | expression h => exact .expression ⟨rfl, h⟩
    | declare ht h => exact .declare ⟨rfl, ht⟩ (Expr.renamed_optional h)
    | block hss => exact .block (Stmt.renamed_all hss)
    | @branch c s t hc hs ht =>
      refine .branch ⟨rfl, hc⟩ ⟨rfl, rfl, hs⟩ ?_
      cases t with
      | none => exact .none
      | some u => exact .some ⟨rfl, rfl, ht u rfl⟩
    | loop hc hs => exact .loop ⟨rfl, hc⟩ ⟨rfl, rfl, hs⟩
    | @function d hname hps harity hbody =>
      cases d
      exact .function ⟨rfl, hname⟩ ⟨rfl, hname, hps, harity, hbody⟩
    | ret h => exact .ret (Expr.renamed_optional h)
  stmt_place := by
    rintro _ _ _ _ ⟨rfl, -⟩
    exact Place.declaring_ne
  declaration_parts := by
    rintro _ ⟨name, parameters, body⟩ _ ⟨rfl, hd⟩
    refine ⟨?_, Stmt.renamed_all hd.fits.body⟩
    refine List.forall₂_map_right_iff.mpr (List.forall₂_same.mpr fun x hx => ?_)
    exact ⟨rfl, hd.fits.parameters x hx⟩
  truth := by
    rintro _ v _ ⟨rfl, -⟩
    exact Value.truth_relabel _ v
  nil := ⟨rfl, trivial⟩
  closure := by
    rintro _ d _ i _ site ⟨rfl, hd⟩ rfl
    exact ⟨rfl, hd⟩
  pure h := .pure h
  bind hp hf := .bind hp fun a b h => hf () a b trivial h
  of_reading _ h := h
  exhausted := .throw Halt.retold_outOfFuel
  sign := by
    rintro _ _ t _ v _ ⟨rfl, ht⟩ ⟨rfl, -⟩
    rw [Token.kind_rename, Value.unary_relabel]
    exact .blame ht.not_identifier (computed_unary t.kind v)
  operator := by
    rintro _ _ t _ u _ v _ ⟨rfl, ht⟩ ⟨rfl, hu⟩ ⟨rfl, hv⟩
    rw [Token.kind_rename, Value.binary_rename hr _ hu hv]
    exact .blame ht.not_identifier (computed_binary t.kind u v)
  connective := by
    rintro t _ ⟨rfl, -⟩
    exact t.kind_rename
  unknown := by
    rintro _ _ t _ _ _ ⟨rfl, ht⟩ _ _
    exact .fail ht.not_identifier
  notCallable := by
    rintro _ _ t _ _ _ _ ⟨rfl, ht⟩
    exact .fail ht.not_identifier
  wrongArity := by
    rintro _ _ t _ _ _ _ _ _ _ ⟨rfl, ht⟩ _ _ _
    exact .fail ht.not_identifier
  lookup := by
    rintro _ t _ ⟨rfl, ht⟩
    exact .lookup ht
  assign := by
    rintro _ t _ v _ ⟨rfl, ht⟩ hv
    exact .assign hr ht hv
  define := by
    rintro _ t _ v _ ⟨rfl, ht⟩ hv
    exact .define hr ht hv
  bindIn := by
    rintro _ _ t _ _ i v _ ⟨rfl, ht⟩ rfl hv
    exact .bindIn hr i ht hv
  current := .get
  here := .get
  openScope := by
    rintro _ _ _ i rfl
    exact .openScope i
  inScope := by
    rintro _ _ _ _ _ i p q rfl h
    exact .inScope i h
  print := by
    rintro _ _ t _ v _ ⟨rfl, ht⟩ ⟨rfl, hv⟩
    exact .print ht fun h => h v hv

end Lox
