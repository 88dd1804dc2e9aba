import Lox.Proofs.Comparison.Evaluation
import Lox.Proofs.Grammar.Roles
import Lox.Proofs.Scopes.Chains

/-!
What running programs fail with.

Each fault has one wording, and the grammar leaves few kinds of token that can be blamed for it.
Trees of programs fit, and a machine on which only such trees were run holds no other functions, so
the comparison of such a run with itself shows every fault it can end with.
-/

namespace Lox

/-- The messages that a token can be blamed with. -/
inductive Documented (t : Token) : String → Prop
  | negation : t.kind = .minus → Documented t "Operand must be a number."
  | addition : t.kind = .plus → Documented t "Operands must be two numbers or two strings."
  | arithmetic : t.kind ∈ [.minus, .star, .slash, .less, .lessEqual, .greater, .greaterEqual] →
      Documented t "Operands must be numbers."
  | undefinedVariable : t.kind = .identifier →
      Documented t ("Undefined variable '" ++ t.lexeme ++ "'.")
  | notCallable : t.kind = .rightParen → Documented t "Can only call functions and classes."
  | wrongArity {n k : Nat} : t.kind = .rightParen → n ≠ k → n ≤ 255 → k ≤ 255 →
      Documented t ("Expected " ++ toString n ++ " arguments but got " ++ toString k ++ ".")
  | outputFailed (cause : String) : t.kind = .kwPrint →
      Documented t ("Failed to write output: " ++ cause)

/-- No message is about an operator that is not known. -/
theorem Documented.not_unknown {t : Token} {message : String} (h : Documented t message)
    (rest : String) : message ≠ "Unknown operator" ++ rest := by
  intro he
  have hlist := congrArg String.toList he
  cases h <;> simp [String.toList_append] at hlist

/-! ## What evaluation keeps -/

/-- The function of a statement that fits. -/
structure Declaration.Fits (Allowed : Role → Token → Prop) (d : Declaration) : Prop where
  parameters : ∀ x ∈ d.parameters, Allowed .name x
  arity : d.arity ≤ Parser.arityLimit
  body : ∀ s ∈ d.body, s.Fits Allowed

variable {T : Token → Prop}

/-- A value that cannot be called with too many arguments, and whose body fits if it has one. -/
def Value.Sound (T : Token → Prop) : Value → Prop
  | .function f => f.declaration.Fits (Role.Suits T)
  | .native f => f.arity ≤ Parser.arityLimit
  | _ => True

theorem Value.sound_of_arity? {v : Value} (h : v.arity? = none) : v.Sound T := by
  cases v with
  | function f => exact nomatch h
  | native f => exact nomatch h
  | nil | bool _ | number _ | string _ => trivial

theorem Value.Sound.arity_le {v : Value} (h : v.Sound T) {k : Nat} (hk : v.arity? = some k) :
    k ≤ Parser.arityLimit := by
  cases v with
  | function f => exact Option.some.inj hk ▸ Declaration.Fits.arity h
  | native f => exact Option.some.inj hk ▸ h
  | nil | bool _ | number _ | string _ => exact nomatch hk

/-- A machine on which only trees with tokens of `T` were run. -/
def Machine.Sound (T : Token → Prop) (m : Machine) : Prop :=
  ∀ i x v, m.store.local? i x = some v → v.Sound T

theorem Machine.Sound.define {m : Machine} (hm : m.Sound T) (i : ScopeId) (x : String) {v : Value}
    (hv : v.Sound T) : Machine.Sound T { m with store := m.store.define i x v } := by
  intro j y w hw
  rcases Store.local?_of_define hw with ⟨-, rfl⟩ | hw
  · exact hv
  · exact hm j y w hw

/-- Whether a run may end in this way. -/
def Halt.Blames (T : Token → Prop) : Halt → Prop
  | .fault e => T e.token ∧ Documented e.token e.message
  | .outOfFuel => True

/-- Two runs that end in the same way, on sound machines. -/
def Blames (T : Token → Prop) {α : Type} (R : α → α → Prop) (p q : Action α) : Prop :=
  ∀ m : Machine, m.Sound T → match p m with
    | .ok a m' => m'.Sound T ∧ ∃ b, q m = .ok b m' ∧ R a b
    | .error halt m' => m'.Sound T ∧ q m = .error halt m' ∧ halt.Blames T

namespace Blames

variable {α β : Type} {R : α → α → Prop} {S : β → β → Prop} {p q : Action α}
  {f g : α → Action β}

theorem pure {a b : α} (h : R a b) : Blames T R (pure a) (pure b) := fun _ hm => ⟨hm, b, rfl, h⟩

theorem throw {halt : Halt} (h : halt.Blames T) : Blames T R (throw halt) (throw halt) :=
  fun _ hm => ⟨hm, rfl, h⟩

theorem bind (hp : Blames T R p q) (hf : ∀ a b, R a b → Blames T S (f a) (g b)) :
    Blames T S (p >>= f) (q >>= g) := by
  intro m hm
  have h := hp m hm
  rw [Action.bind_apply, Action.bind_apply]
  cases hrun : p m with
  | ok a m' =>
    rw [hrun] at h
    obtain ⟨hm', b, hb, hR⟩ := h
    rw [hb]
    exact hf a b hR m' hm'
  | error halt m' =>
    rw [hrun] at h
    rw [h.2.1]
    exact ⟨h.1, rfl, h.2.2⟩

theorem fail {t : Token} {fault : RuntimeFault} (hT : T t)
    (h : Documented t (RuntimeError.message ⟨t, fault⟩)) :
    Blames T R (Action.fail t fault) (Action.fail t fault) :=
  throw ⟨hT, h⟩

/-- What operators compute cannot be called. -/
theorem blame {t : Token} {result : Except RuntimeFault Value} (hT : T t)
    (h : match result with
      | .ok v => v.arity? = none
      | .error fault => Documented t (RuntimeError.message ⟨t, fault⟩)) :
    Blames T (fun v v' => v' = v ∧ v.Sound T) (Action.blame t result) (Action.blame t result) := by
  cases result with
  | ok v => exact pure ⟨rfl, Value.sound_of_arity? h⟩
  | error fault => exact fail hT h

theorem inScope (scope : ScopeId) (h : Blames T R p q) :
    Blames T R (Action.inScope scope p) (Action.inScope scope q) := by
  intro m hm
  have h := h { m with current := scope } hm
  unfold Action.inScope
  dsimp only
  cases hrun : p { m with current := scope } with
  | ok a m' =>
    rw [hrun] at h
    obtain ⟨hm', b, hb, hR⟩ := h
    rw [hb]
    exact ⟨hm', b, rfl, hR⟩
  | error halt m' =>
    rw [hrun] at h
    rw [h.2.1]
    exact ⟨h.1, rfl, h.2.2⟩

theorem undefinedVariable {t : Token} (ht : Role.name.Suits T t) :
    Documented t (RuntimeError.message ⟨t, .undefinedVariable⟩) :=
  .undefinedVariable (by simpa [Role.kinds] using ht.kind)

theorem lookup {t : Token} (ht : Role.name.Suits T t) :
    Blames T (fun v v' => v' = v ∧ v.Sound T) (Action.lookup t) (Action.lookup t) := by
  intro m hm
  rw [Action.lookup_apply]
  cases hv : m.store.get? m.current t.lexeme with
  | none => exact ⟨hm, rfl, ht.known, undefinedVariable ht⟩
  | some v =>
    obtain ⟨⟨holder, w⟩, hfound, rfl⟩ := Option.map_eq_some_iff.mp hv
    exact ⟨hm, _, rfl, rfl, hm holder _ _ (Store.local?_of_find? hfound).2⟩

theorem assign {t : Token} {v : Value} (ht : Role.name.Suits T t) (hv : v.Sound T) :
    Blames T (fun _ _ => True) (Action.assign t v) (Action.assign t v) := by
  intro m hm
  unfold Action.assign Store.assign
  cases m.store.find? t.lexeme m.current with
  | none => exact ⟨hm, rfl, ht.known, undefinedVariable ht⟩
  | some found => exact ⟨hm.define found.1 t.lexeme hv, (), rfl, trivial⟩

theorem print {t : Token} (v : Value) (ht : Role.printing.Suits T t) :
    Blames T (fun _ _ => True) (Action.print t v) (Action.print t v) := by
  intro m hm
  unfold Action.print
  obtain ⟨_ | fault, sink⟩ := m.sink.print v.text
  · exact ⟨hm, (), rfl, trivial⟩
  · exact ⟨hm, rfl, ht.known, .outputFailed _ (by simpa [Role.kinds] using ht.kind)⟩

theorem openScope (outer : ScopeId) :
    Blames T (fun i j => j = i) (Action.openScope outer) (Action.openScope outer) := by
  intro m hm
  refine ⟨fun i x v hv => hm i x v ?_, _, rfl, rfl⟩
  rwa [← Store.local?_addChild m.store outer i x]

theorem sign {t : Token} (v : Value) (ht : Role.sign.Suits T t) :
    Blames T (fun v v' => v' = v ∧ v.Sound T) (Action.blame t (v.unary t.kind))
      (Action.blame t (v.unary t.kind)) := by
  refine blame ht.known ?_
  have hk : t.kind = .bang ∨ t.kind = .minus := by simpa [Role.kinds] using ht.kind
  rcases hk with hk | hk
  · cases v <;> simp [hk, Value.unary, Value.arity?]
  · cases v <;> simp [hk, Value.unary, Value.arity?, RuntimeError.message, Documented.negation hk]

/-- The operators that only work for numbers. -/
def arithmeticKinds : List Kind :=
  [.minus, .star, .slash, .less, .lessEqual, .greater, .greaterEqual]

theorem arithmetic {k : Kind} (hk : k ∈ arithmeticKinds) (v w : Value) :
    match v.binary k w with
    | .ok u => u.arity? = none
    | .error fault => fault = .operandsNotNumbers := by
  simp only [arithmeticKinds, List.mem_cons, List.not_mem_nil, or_false] at hk
  cases v with
  | number x =>
    cases w with
    | number y => rcases hk with rfl | rfl | rfl | rfl | rfl | rfl | rfl <;> exact rfl
    | nil | bool _ | string _ | function _ | native _ =>
      rcases hk with rfl | rfl | rfl | rfl | rfl | rfl | rfl <;> exact rfl
  | nil | bool _ | string _ | function _ | native _ =>
    rcases hk with rfl | rfl | rfl | rfl | rfl | rfl | rfl <;> exact rfl

theorem operator {t : Token} (v w : Value) (ht : Role.operator.Suits T t) :
    Blames T (fun v v' => v' = v ∧ v.Sound T) (Action.blame t (v.binary t.kind w))
      (Action.blame t (v.binary t.kind w)) := by
  refine blame ht.known ?_
  by_cases hk : t.kind ∈ arithmeticKinds
  · have h := arithmetic hk v w
    cases hu : v.binary t.kind w with
    | ok u => rwa [hu] at h
    | error fault =>
      rw [hu] at h
      cases h
      exact .arithmetic hk
  · have hkinds := ht.kind
    simp only [Role.kinds, Level.operators, List.cons_append, List.nil_append, List.mem_cons,
      List.not_mem_nil, or_false] at hkinds
    simp only [arithmeticKinds, List.mem_cons, List.not_mem_nil, or_false, not_or] at hk
    have hrest : t.kind = .bangEqual ∨ t.kind = .equalEqual ∨ t.kind = .plus := by tauto
    rcases hrest with h | h | h
    · rw [h]
      rfl
    · rw [h]
      rfl
    · cases v <;> cases w <;>
        simp [h, Value.binary, Value.arity?, RuntimeError.message, Documented.addition h]

end Blames

/-- Comparing sound runs with themselves. -/
def Comparison.faults (T : Token → Prop) : Comparison where
  World := Unit
  Later _ _ := True
  token role t t' := t' = t ∧ role.Suits T t
  value _ v v' := v' = v ∧ v.Sound T
  reads _ i j := j = i
  scope _ i j := j = i
  expr _ e e' := e' = e ∧ e.Fits (Role.Suits T)
  stmt _ place s s' := place = .declaring ∧ s' = s ∧ s.Fits (Role.Suits T)
  declaration _ d d' := d' = d ∧ d.Fits (Role.Suits T)
  Acts _ _ _ R p q := Blames T (R ()) p q
  later_trans _ _ := trivial
  value_later _ h := h
  scope_later _ h := h
  expr_later _ h := h
  stmt_later _ h := h
  declaration_later _ h := h
  value_parts := by
    rintro _ _ v ⟨rfl, hv⟩
    cases v with
    | function f => exact .function rfl rfl ⟨rfl, hv⟩
    | native f => exact .native
    | nil | bool _ | number _ | string _ => exact .other rfl rfl
  expr_parts := by
    rintro _ _ e ⟨rfl, he⟩
    cases he with
    | literal h => exact .literal ⟨rfl, Value.sound_of_arity? h⟩
    | grouping h => exact .grouping ⟨rfl, h⟩
    | unary ht h => exact .unary ⟨rfl, ht⟩ ⟨rfl, h⟩
    | binary hl ht hr => exact .binary ⟨rfl, hl⟩ ⟨rfl, ht⟩ ⟨rfl, hr⟩
    | logical hl ht hr => exact .logical ⟨rfl, hl⟩ ⟨rfl, ht⟩ ⟨rfl, hr⟩
    | «variable» ht => exact .variable ⟨rfl, ht⟩
    | assign ht h => exact .assign ⟨rfl, ht⟩ ⟨rfl, h⟩
    | call hf ht hes =>
      exact .call ⟨rfl, hf⟩ ⟨rfl, ht⟩ (List.forall₂_same.mpr fun e he => ⟨rfl, hes e he⟩)
  stmt_parts := by
    rintro _ _ _ s ⟨rfl, rfl, hs⟩
    have hoptional : ∀ e : Option Expr, (∀ u ∈ e, u.Fits (Role.Suits T)) →
        Option.Rel (fun u u' => u' = u ∧ u.Fits (Role.Suits T)) e e := by
      intro e he
      cases e with
      | none => exact .none
      | some u => exact .some ⟨rfl, he u rfl⟩
    cases hs with
    | print ht h => exact .print ⟨rfl, ht⟩ ⟨rfl, h⟩
    | expression h => exact .expression ⟨rfl, h⟩
    | declare ht h => exact .declare ⟨rfl, ht⟩ (hoptional _ h)
    | block hss => exact .block (List.forall₂_same.mpr fun s hs => ⟨rfl, rfl, hss s hs⟩)
    | @branch c s t hc hs ht =>
      refine .branch ⟨rfl, hc⟩ ⟨rfl, rfl, hs⟩ ?_
      cases t with
      | none => exact .none
      | some u => exact .some ⟨rfl, rfl, ht u rfl⟩
    | loop hc hs => exact .loop ⟨rfl, hc⟩ ⟨rfl, rfl, hs⟩
    | function hname hps harity hbody => exact .function ⟨rfl, hname⟩ ⟨rfl, hps, harity, hbody⟩
    | ret h => exact .ret (hoptional _ h)
  stmt_place := by
    rintro _ _ _ _ ⟨rfl, -⟩
    exact nofun
  declaration_parts := by
    rintro _ _ d ⟨rfl, hd⟩
    exact ⟨List.forall₂_same.mpr fun x hx => ⟨rfl, hd.parameters x hx⟩,
      List.forall₂_same.mpr fun s hs => ⟨rfl, rfl, hd.body s hs⟩⟩
  truth := by
    rintro _ _ v ⟨rfl, -⟩
    rfl
  nil := ⟨rfl, trivial⟩
  closure := by
    rintro _ _ d _ i site ⟨rfl, hd⟩ rfl
    exact ⟨rfl, hd⟩
  pure h := .pure h
  bind hp hf := .bind hp fun a b h => hf () a b trivial h
  of_reading _ h := h
  exhausted := .throw trivial
  sign := by
    rintro _ _ _ t _ v ⟨rfl, ht⟩ ⟨rfl, -⟩
    exact .sign v ht
  operator := by
    rintro _ _ _ t _ u _ v ⟨rfl, ht⟩ ⟨rfl, -⟩ ⟨rfl, -⟩
    exact .operator u v ht
  connective := by
    rintro _ t ⟨rfl, -⟩
    rfl
  unknown := by
    rintro _ _ _ t _ _ ⟨rfl, ht⟩ hor hand
    have hk : t.kind = .kwOr ∨ t.kind = .kwAnd := by simpa [Role.kinds] using ht.kind
    exact absurd hk (not_or.mpr ⟨hor, hand⟩)
  notCallable := by
    rintro _ _ _ t n _ _ ⟨rfl, ht⟩
    exact .fail ht.known (.notCallable (by simpa [Role.kinds] using ht.kind))
  wrongArity := by
    rintro _ _ _ t n k _ v _ _ ⟨rfl, ht⟩ ⟨rfl, hv⟩ hk hne
    refine .fail ht.known (.wrongArity (by simpa [Role.kinds] using ht.kind) hne ?_ ?_)
    · exact hv.arity_le hk
    · exact ht.arguments n rfl
  lookup := by
    rintro _ _ t ⟨rfl, ht⟩
    exact .lookup ht
  assign := by
    rintro _ _ t _ v ⟨rfl, ht⟩ ⟨rfl, hv⟩
    exact .assign ht hv
  define := by
    rintro _ _ t _ v ⟨rfl, ht⟩ ⟨rfl, hv⟩ m hm
    exact ⟨hm.define m.current t.lexeme hv, (), rfl, trivial⟩
  bindIn := by
    rintro _ _ _ t _ i _ v ⟨rfl, ht⟩ rfl ⟨rfl, hv⟩ m hm
    exact ⟨hm.define i t.lexeme hv, (), rfl, trivial⟩
  current := fun m hm => ⟨hm, m, rfl, rfl⟩
  here := fun m hm => ⟨hm, m, rfl, rfl⟩
  openScope := by
    rintro _ _ _ i rfl
    exact .openScope i
  inScope := by
    rintro _ _ _ _ _ i p q rfl h
    exact .inScope i h
  print := by
    rintro _ _ _ t _ v ⟨rfl, ht⟩ ⟨rfl, -⟩
    rw [Action.printAs_text]
    exact .print v ht

end Lox
