import Mathlib.Order.Filter.AtTopBot.Basic
import Lox.Proofs.Printing.Recording

/-!
More fuel changes no run that has come to an end.

A run that was out of fuel goes on with more of it, and what it had printed by then is printed with
more fuel as well.  How much more another run needs to get as far may depend on the machine, so a
run is compared with a family of runs, of which all but a few have to get there.
-/

open Filter

namespace Lox
namespace Run

variable {ι α β : Type} {p q : Run α} {f g : α → Run β} {m : Machine}

/-- Whether `q` does on a machine what `p` does, and may go on where `p` is out of fuel. -/
def LeAt (m : Machine) (p q : Run α) : Prop :=
  (∃ m', p.action m = .error .outOfFuel m') ∧ p.trace m <+: q.trace m ∨
    q.action m = p.action m ∧ q.trace m = p.trace m

theorem LeAt.refl (p : Run α) : p.LeAt m p := .inr ⟨rfl, rfl⟩

theorem exhausted_leAt (q : Run α) : exhausted.LeAt m q := .inl ⟨⟨m, rfl⟩, List.nil_prefix⟩

theorem LeAt.begins (h : p.LeAt m q) : p.trace m <+: q.trace m := by
  rcases h with ⟨-, hbegins⟩ | ⟨-, htrace⟩
  · exact hbegins
  · exact htrace ▸ List.prefix_rfl

theorem action_bind_apply (p : Run α) (f : α → Run β) (m : Machine) :
    (p >>= f).action m = match p.action m with
      | .ok a m => (f a).action m
      | .error halt m => .error halt m :=
  Action.bind_apply _ _ _

theorem trace_bind (p : Run α) (f : α → Run β) (m : Machine) :
    (p >>= f).trace m = p.trace m ++ Action.andThen (fun a => (f a).trace) (p.action m) := rfl

theorem LeAt.bind (hp : p.LeAt m q)
    (hf : ∀ a m', p.action m = .ok a m' → (f a).LeAt m' (g a)) : (p >>= f).LeAt m (q >>= g) := by
  unfold LeAt
  rw [action_bind_apply, action_bind_apply, trace_bind, trace_bind]
  rcases hp with ⟨⟨m', hout⟩, hbegins⟩ | ⟨haction, htrace⟩
  · rw [hout]
    refine .inl ⟨⟨m', rfl⟩, ?_⟩
    rw [Action.andThen, List.append_nil]
    exact hbegins.trans (List.prefix_append _ _)
  · rw [haction, htrace]
    cases hrun : p.action m with
    | error halt m' => exact .inr ⟨rfl, rfl⟩
    | ok a m' =>
      rcases hf a m' hrun with ⟨hout, hbegins⟩ | ⟨hsame, htrace⟩
      · exact .inl ⟨hout, (List.prefix_append_right_inj _).mpr hbegins⟩
      · exact .inr ⟨hsame, congrArg (p.trace m ++ ·) htrace⟩

theorem LeAt.inScope {scope : ScopeId} (hp : p.LeAt { m with current := scope } q) :
    (p.inScope scope).LeAt m (q.inScope scope) := by
  rcases hp with ⟨⟨m', hout⟩, hbegins⟩ | ⟨haction, htrace⟩
  · refine .inl ⟨⟨{ m' with current := m.current }, ?_⟩, hbegins⟩
    show Action.inScope scope p.action m = _
    unfold Action.inScope
    dsimp only
    rw [hout]
  · refine .inr ⟨?_, htrace⟩
    show Action.inScope scope q.action m = Action.inScope scope p.action m
    unfold Action.inScope
    dsimp only
    rw [haction]

/-- Whether `q` does what `p` does, and may go on where `p` is out of fuel. -/
def Le (p q : Run α) : Prop := ∀ m, p.LeAt m q

theorem Le.refl (p : Run α) : p.Le p := fun _ => .refl p

theorem Le.bind (hp : p.Le q) (hf : ∀ a, (f a).Le (g a)) : (p >>= f).Le (q >>= g) :=
  fun m => (hp m).bind fun a m' _ => hf a m'

/-! ## Families of runs -/

/-- Whether on every machine all but a few runs of a family do what `p` does, and may go on where
`p` is out of fuel. -/
def Under (l : Filter ι) (p : Run α) (q : ι → Run α) : Prop := ∀ m, ∀ᶠ i in l, p.LeAt m (q i)

theorem under_pure {i : ι} {q : ι → Run α} : p.Under (pure i) q ↔ p.Le (q i) :=
  forall_congr' fun _ => eventually_pure

namespace Under

variable {l : Filter ι} {q q' : ι → Run α} {g : ι → α → Run β}

theorem refl (p : Run α) : p.Under l fun _ => p := fun _ => .of_forall fun _ => .refl p

theorem exhausted (q : ι → Run α) : Run.exhausted.Under l q :=
  fun _ => .of_forall fun i => exhausted_leAt (q i)

theorem congr (h : ∀ᶠ i in l, q i = q' i) (hp : p.Under l q) : p.Under l q' := by
  intro m
  filter_upwards [h, hp m] with i hi hle
  rwa [← hi]

theorem bind (hp : p.Under l q) (hf : ∀ a, (f a).Under l fun i => g i a) :
    (p >>= f).Under l fun i => q i >>= g i := by
  intro m
  cases hrun : p.action m with
  | error halt m' =>
    filter_upwards [hp m] with i hi
    refine hi.bind fun a m'' hok => ?_
    rw [hrun] at hok
    cases hok
  | ok a m' =>
    -- The rest is compared on the machine that the first part leaves behind.
    filter_upwards [hp m, hf a m'] with i hi hrest
    refine hi.bind fun b m'' hok => ?_
    rw [hrun] at hok
    cases hok
    exact hrest

theorem inScope (hp : p.Under l q) (scope : ScopeId) :
    (p.inScope scope).Under l fun i => (q i).inScope scope :=
  fun m => (hp { m with current := scope }).mono fun _ => .inScope

/-- It does not matter where a family starts. -/
theorem later {q : Nat → Run α} (h : p.Under atTop fun k => q (k + 1)) : p.Under atTop q := by
  intro m
  rw [← map_add_atTop_eq_nat 1]
  exact h m

end Under
end Run

namespace Recording

variable {ι : Type} {l : Filter ι} {r : Recording} {r' : ι → Recording} {host : Host}

/-- Whether all but a few recordings of a family do what `r` does, and may go on where `r` is out
of fuel. -/
structure Under (l : Filter ι) (r : Recording) (r' : ι → Recording) : Prop where
  evaluate : ∀ e, (r.evaluate e).Under l fun i => (r' i).evaluate e
  execute : ∀ site s, (r.execute site s).Under l fun i => (r' i).execute site s

namespace Under

variable (h : r.Under l r')
include h

theorem sequence (outer : Site) (first : Nat) (ss : List Stmt) :
    (r.sequence outer first ss).Under l fun i => (r' i).sequence outer first ss := by
  induction ss generalizing first with
  | nil => exact .refl _
  | cons s ss ih =>
    refine (h.execute _ s).bind fun flow => ?_
    cases flow with
    | normal => exact ih (first + 1)
    | returned v => exact .refl _

theorem evaluateAll (es : List Expr) :
    (r.evaluateAll es).Under l fun i => (r' i).evaluateAll es := by
  induction es with
  | nil => exact .refl _
  | cons e es ih => exact (h.evaluate e).bind fun v => ih.bind fun _ => .refl _

theorem call (f : Closure) (vs : List Value) :
    (r.call f vs).Under l fun i => (r' i).call f vs := by
  refine (Run.Under.refl _).bind fun scope => (Run.Under.refl _).bind fun _ => ?_
  refine ((h.sequence f.site 0 f.declaration.body).inScope scope).bind fun flow => ?_
  exact .refl _

theorem apply (callee : Value) (paren : Token) (vs : List Value) :
    (r.apply host callee paren vs).Under l fun i => (r' i).apply host callee paren vs := by
  cases callee with
  | function f => exact (Run.Under.refl _).bind fun _ => h.call f vs
  | native f => exact .refl _
  | nil | bool _ | number _ | string _ => exact .refl _

theorem evaluateOf (e : Expr) :
    (r.evaluateOf host e).Under l fun i => (r' i).evaluateOf host e := by
  cases e with
  | literal v => exact .refl _
  | grouping e => exact h.evaluate e
  | unary operator right => exact (h.evaluate right).bind fun _ => .refl _
  | binary left operator right =>
    exact (h.evaluate left).bind fun _ => (h.evaluate right).bind fun _ => .refl _
  | «variable» name => exact .refl _
  | assign name value => exact (h.evaluate value).bind fun _ => .refl _
  | logical left operator right =>
    refine (h.evaluate left).bind fun v => ?_
    split
    · cases v.truth with
      | true => exact .refl _
      | false => exact h.evaluate right
    · cases v.truth with
      | true => exact h.evaluate right
      | false => exact .refl _
    · exact .refl _
  | call callee paren arguments =>
    refine (h.evaluate callee).bind fun f => ?_
    exact (h.evaluateAll arguments).bind fun vs => h.apply f paren vs

theorem evaluateOptional (e : Option Expr) :
    (r.evaluateOptional e).Under l fun i => (r' i).evaluateOptional e := by
  cases e with
  | none => exact .refl _
  | some e => exact h.evaluate e

/-- The loop may be repeated more often as well. -/
theorem repeatWhile (site : Site) (condition : Expr) (body : Stmt) {n : Nat} {k : ι → Nat}
    (hn : ∀ᶠ i in l, n ≤ k i) : (r.repeatWhile site condition body n).Under l
      fun i => (r' i).repeatWhile site condition body (k i) := by
  induction n generalizing k with
  | zero => exact .exhausted _
  | succ n ih =>
    have hpositive : ∀ᶠ i in l, k i - 1 + 1 = k i :=
      hn.mono fun i hi => Nat.succ_pred_eq_of_pos (Nat.lt_of_lt_of_le n.succ_pos hi)
    have hbelow : ∀ᶠ i in l, n ≤ k i - 1 := hn.mono fun i hi => Nat.le_sub_one_of_lt hi
    refine .congr (hpositive.mono fun i hi =>
      congrArg ((r' i).repeatWhile site condition body) hi) ?_
    refine (h.evaluate condition).bind fun v => ?_
    cases v.truth with
    | false => exact .refl _
    | true =>
      refine (h.execute _ body).bind fun flow => ?_
      cases flow with
      | normal => exact ih hbelow
      | returned w => exact .refl _

theorem executeOf {n : Nat} {k : ι → Nat} (hn : ∀ᶠ i in l, n ≤ k i) (site : Site) (s : Stmt) :
    (r.executeOf n site s).Under l fun i => (r' i).executeOf (k i) site s := by
  cases s with
  | print keyword value => exact (h.evaluate value).bind fun _ => .refl _
  | expression value => exact (h.evaluate value).bind fun _ => .refl _
  | declare name initializer => exact (h.evaluateOptional initializer).bind fun _ => .refl _
  | block body =>
    refine (Run.Under.refl _).bind fun outer => (Run.Under.refl _).bind fun scope => ?_
    exact (h.sequence site 0 body).inScope scope
  | branch condition whenTrue whenFalse =>
    refine (h.evaluate condition).bind fun v => ?_
    cases v.truth with
    | true => exact h.execute _ whenTrue
    | false =>
      cases whenFalse with
      | none => exact .refl _
      | some s => exact h.execute _ s
  | loop condition body => exact h.repeatWhile site condition body hn
  | function declaration => exact .refl _
  | ret keyword value => exact (h.evaluateOptional value).bind fun _ => .refl _

end Under

/-! ## More fuel -/

structure Le (r r' : Recording) : Prop where
  evaluate : ∀ e, (r.evaluate e).Le (r'.evaluate e)
  execute : ∀ site s, (r.execute site s).Le (r'.execute site s)

namespace Le

variable {r' : Recording} (h : r.Le r')
include h

theorem under : r.Under (pure ()) fun _ => r' :=
  ⟨fun e => Run.under_pure.mpr (h.evaluate e), fun site s => Run.under_pure.mpr (h.execute site s)⟩

theorem sequence (outer : Site) (first : Nat) (ss : List Stmt) :
    (r.sequence outer first ss).Le (r'.sequence outer first ss) :=
  Run.under_pure.mp (h.under.sequence outer first ss)

theorem evaluateOf (e : Expr) : (r.evaluateOf host e).Le (r'.evaluateOf host e) :=
  Run.under_pure.mp (h.under.evaluateOf e)

theorem executeOf {n k : Nat} (hn : n ≤ k) (site : Site) (s : Stmt) :
    (r.executeOf n site s).Le (r'.executeOf k site s) := by
  have hbound : ∀ᶠ _ in (pure () : Filter Unit), n ≤ k := eventually_pure.mpr hn
  have hunder := h.under.executeOf hbound site s
  exact Run.under_pure.mp hunder

end Le
end Recording

theorem recording_le (host : Host) {n k : Nat} (hn : n ≤ k) :
    (recording host n).Le (recording host k) := by
  induction n generalizing k with
  | zero => exact ⟨fun _ _ => Run.exhausted_leAt _, fun _ _ _ => Run.exhausted_leAt _⟩
  | succ n ih =>
    cases k with
    | zero => exact absurd hn (Nat.not_succ_le_zero n)
    | succ k =>
      have hbelow := ih (Nat.le_of_succ_le_succ hn)
      exact ⟨fun e => hbelow.evaluateOf e,
        fun site s => hbelow.executeOf (Nat.le_of_succ_le_succ hn) site s⟩

end Lox
