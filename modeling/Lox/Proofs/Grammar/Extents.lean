import Lox.Proofs.Grammar.Acceptance
import Lox.Proofs.Grammar.Progress

/-!
When faults are recorded.

Nearly every fault is recorded where it is found, at the token ahead or at the one that was just
taken.  Only that something cannot be assigned to is recorded late, behind the value that follows.
So a fault has an extent, from the token that it is blamed on to the place where it was recorded,
and a fault comes behind those in front of its extent and those inside of it.
-/

namespace Lox

/-- A fault with the extent that it was recorded for. -/
structure Finding where
  error : ParseError
  /-- The tokens from the blamed one on. -/
  blamed : List Token
  /-- The tokens that were left when the fault was recorded. -/
  left : List Token

namespace Finding

/-- Whether the fault `g` is about an assignment and `f` is blamed on a token of its value. -/
structure Around (g f : Finding) : Prop where
  fault : g.error.fault = .invalidAssignmentTarget
  behind_sign : f.blamed <:+ g.blamed.tail
  inside : g.left <:+ f.left
  taken : g.left.length < f.blamed.length

/-- Whether `g` is rightly recorded behind `f`. -/
def Ordered (f g : Finding) : Prop := g.blamed <:+ f.left ∨ g.Around f

/-- Whether the tokens between a sign of assignment and what was left are a value that is read. -/
def Assigns (stop : Token) (f : Finding) : Prop :=
  f.error.token.kind = .equal ∧ ∃ bound s value s', Parser.assignment bound s = .ok value s' ∧
    s.stop = stop ∧ f.blamed = f.error.token :: s.rest ∧ s'.rest = f.left

/-- What holds of every finding among tokens that `stop` ends. -/
structure Sound (stop : Token) (f : Finding) : Prop where
  token : f.error.token = f.blamed.headD stop
  extent : f.left <:+ f.blamed
  assigns : f.error.fault = .invalidAssignmentTarget → f.Assigns stop

end Finding

namespace Reading

/-- Whether `fs` are the faults that are recorded on the way from `s` to `s'`. -/
structure Finds (s s' : Reading) (fs : List Finding) : Prop where
  rest : s'.rest <:+ s.rest
  stop : s'.stop = s.stop
  errors : s'.errors = s.errors ++ fs.map Finding.error
  sound : ∀ f ∈ fs, f.Sound s.stop
  blamed : ∀ f ∈ fs, f.blamed <:+ s.rest
  left : ∀ f ∈ fs, s'.rest <:+ f.left
  ordered : fs.Pairwise Finding.Ordered

namespace Finds

variable {s s' s'' : Reading} {fs gs : List Finding}

theorem of_rest (hrest : s'.rest <:+ s.rest) (hstop : s'.stop = s.stop)
    (herrors : s'.errors = s.errors) : s.Finds s' [] where
  rest := hrest
  stop := hstop
  errors := by rw [herrors, List.map_nil, List.append_nil]
  sound := List.forall_mem_nil _
  blamed := List.forall_mem_nil _
  left := List.forall_mem_nil _
  ordered := .nil

theorem refl (s : Reading) : s.Finds s [] := of_rest (List.suffix_refl _) rfl rfl

theorem next (s : Reading) : s.Finds s.next [] := of_rest (List.tail_suffix _) rfl rfl

theorem trans (h : s.Finds s' fs) (k : s'.Finds s'' gs) : s.Finds s'' (fs ++ gs) where
  rest := k.rest.trans h.rest
  stop := k.stop.trans h.stop
  errors := by rw [k.errors, h.errors, List.map_append, List.append_assoc]
  sound := List.forall_mem_append.mpr ⟨h.sound, h.stop ▸ k.sound⟩
  blamed := List.forall_mem_append.mpr ⟨h.blamed, fun g hg => (k.blamed g hg).trans h.rest⟩
  left := List.forall_mem_append.mpr ⟨fun f hf => k.rest.trans (h.left f hf), k.left⟩
  ordered := List.pairwise_append.mpr
    ⟨h.ordered, k.ordered, fun f hf g hg => .inl ((k.blamed g hg).trans (h.left f hf))⟩

/-- A fault that is blamed on the token ahead. -/
theorem record {e : ParseError} (he : e.token = s.ahead)
    (hfault : e.fault ≠ .invalidAssignmentTarget) : s.Finds (s.record e) [⟨e, s.rest, s.rest⟩] where
  rest := List.suffix_refl _
  stop := rfl
  errors := rfl
  sound := List.forall_mem_singleton.mpr ⟨he, List.suffix_refl _, fun h => absurd h hfault⟩
  blamed := List.forall_mem_singleton.mpr (List.suffix_refl _)
  left := List.forall_mem_singleton.mpr (List.suffix_refl _)
  ordered := List.pairwise_singleton _ _

/-- A fault that is blamed on the token that was just taken. -/
theorem recordTaken {e : ParseError} (he : e.token = s.ahead)
    (hfault : e.fault ≠ .invalidAssignmentTarget) :
    s.Finds (s.next.record e) [⟨e, s.rest, s.next.rest⟩] where
  rest := List.tail_suffix _
  stop := rfl
  errors := rfl
  sound := List.forall_mem_singleton.mpr ⟨he, List.tail_suffix _, fun h => absurd h hfault⟩
  blamed := List.forall_mem_singleton.mpr (List.suffix_refl _)
  left := List.forall_mem_singleton.mpr (List.suffix_refl _)
  ordered := List.pairwise_singleton _ _

/-- A fault that is blamed on a sign of assignment comes behind those of the value. -/
theorem recordValue {bound : Nat} {value : Expr} (hs : s.stop.kind = .eof)
    (hsign : s.ahead.kind = .equal) (hvalue : Parser.assignment bound s.next = .ok value s')
    (h : s.next.Finds s' fs) (htaken : ∀ f ∈ fs, s'.rest.length < f.blamed.length) :
    s.Finds (s'.record ⟨s.ahead, .invalidAssignmentTarget⟩)
      (fs ++ [⟨⟨s.ahead, .invalidAssignmentTarget⟩, s.rest, s'.rest⟩]) := by
  have hrest : s.rest = s.ahead :: s.next.rest :=
    Reading.rest_eq_ahead_cons hs (by rw [hsign]; decide)
  have hsuffix : s'.rest <:+ s.rest := h.rest.trans (List.tail_suffix _)
  refine ⟨hsuffix, h.stop, ?_, ?_, ?_, ?_, ?_⟩
  · rw [List.map_append, ← List.append_assoc]
    exact congrArg (· ++ _) h.errors
  · refine List.forall_mem_append.mpr ⟨h.sound, List.forall_mem_singleton.mpr ?_⟩
    exact ⟨rfl, hsuffix, fun _ => ⟨hsign, bound, s.next, value, s', hvalue, rfl, hrest, rfl⟩⟩
  · refine List.forall_mem_append.mpr ⟨fun f hf => ?_, List.forall_mem_singleton.mpr ?_⟩
    · exact (h.blamed f hf).trans (List.tail_suffix _)
    · exact List.suffix_refl _
  · exact List.forall_mem_append.mpr ⟨h.left, List.forall_mem_singleton.mpr (List.suffix_refl _)⟩
  · refine List.pairwise_append.mpr ⟨h.ordered, List.pairwise_singleton _ _, fun f hf g hg => ?_⟩
    obtain rfl := List.mem_singleton.mp hg
    exact .inr ⟨rfl, h.blamed f hf, h.left f hf, htaken f hf⟩

end Finds

end Reading

namespace Parser

variable {α β : Type} {s : Reading} {stop : Token} {strict : Bool}

theorem limit_of_le {count : Nat} {fault : ParseFault} (h : arityLimit ≤ count) :
    limit count fault s = .ok () (s.record ⟨s.ahead, fault⟩) := by
  unfold limit
  rw [if_pos h]
  rfl

/-- Whether a parser records faults in order from `s` on, and one that it throws is blamed on the
token ahead.  If it is strict about them, then it succeeds behind the blamed tokens only. -/
def OrderlyFrom (strict : Bool) (s : Reading) (p : Parser α) : Prop :=
  match p s with
  | .ok _ s' => ∃ fs, s.Finds s' fs ∧
      (strict = true → ∀ f ∈ fs, s'.rest.length < f.blamed.length)
  | .error e s' => e.token = s'.ahead ∧ e.fault ≠ .invalidAssignmentTarget ∧ ∃ fs, s.Finds s' fs

/-- The same from every place among tokens that `stop` ends. -/
def Orderly (stop : Token) (strict : Bool) (p : Parser α) : Prop :=
  ∀ s : Reading, s.stop = stop → OrderlyFrom strict s p

theorem OrderlyFrom.of_ok {p : Parser α} {a : α} {s' : Reading} (hp : p s = .ok a s')
    (h : s.Finds s' []) : OrderlyFrom strict s p := by
  unfold OrderlyFrom
  rw [hp]
  exact ⟨[], h, fun _ => List.forall_mem_nil _⟩

/-- What is done behind a start with faults of its own. -/
theorem OrderlyFrom.of_finds {p q : Parser α} {s' : Reading} {gs : List Finding}
    (hp : p s = q s') (h : s.Finds s' gs)
    (hgs : strict = true → ∀ g ∈ gs, s'.rest.length < g.blamed.length)
    (hq : OrderlyFrom strict s' q) : OrderlyFrom strict s p := by
  unfold OrderlyFrom at hq ⊢
  rw [hp]
  cases hr : q s' with
  | ok a s'' =>
    rw [hr] at hq
    obtain ⟨fs, hfs, htaken⟩ := hq
    refine ⟨gs ++ fs, h.trans hfs, fun hstrict => ?_⟩
    refine List.forall_mem_append.mpr ⟨fun g hg => ?_, htaken hstrict⟩
    exact Nat.lt_of_le_of_lt hfs.rest.length_le (hgs hstrict g hg)
  | error e s'' =>
    rw [hr] at hq
    obtain ⟨he, hfault, fs, hfs⟩ := hq
    exact ⟨he, hfault, gs ++ fs, h.trans hfs⟩

/-- What is done behind a start without faults. -/
theorem OrderlyFrom.of_eq {p q : Parser α} {s' : Reading} (hp : p s = q s') (h : s.Finds s' [])
    (hq : OrderlyFrom strict s' q) : OrderlyFrom strict s p :=
  .of_finds hp h (fun _ => List.forall_mem_nil _) hq

namespace Orderly

variable {p q : Parser α} {f : α → Parser β}

theorem mono (h : Orderly stop true p) : Orderly stop strict p := by
  intro s hs
  have hp := h s hs
  unfold OrderlyFrom at hp ⊢
  cases hr : p s with
  | ok a s' =>
    rw [hr] at hp
    obtain ⟨fs, hfs, htaken⟩ := hp
    exact ⟨fs, hfs, fun _ => htaken rfl⟩
  | error e s' =>
    rw [hr] at hp
    exact hp

theorem pure (a : α) : Orderly stop strict (pure a) := fun s _ => .of_ok rfl (.refl s)

theorem bind (hp : Orderly stop strict p) (hf : ∀ a, Orderly stop strict (f a)) :
    Orderly stop strict (p >>= f) := by
  intro s hs
  have h := hp s hs
  cases hr : p s with
  | error e s' =>
    unfold OrderlyFrom at h ⊢
    rw [hr] at h
    rw [bind_apply, hr]
    exact h
  | ok a s' =>
    unfold OrderlyFrom at h
    rw [hr] at h
    obtain ⟨fs, hfs, htaken⟩ := h
    exact .of_finds (bind_of_ok hr) hfs htaken (hf a s' (hfs.stop.trans hs))

theorem map {g : α → β} (hp : Orderly stop strict p) : Orderly stop strict (g <$> p) :=
  bind (f := fun a => Pure.pure (g a)) hp fun _ => pure _

theorem ite {c : Prop} [Decidable c] (hp : Orderly stop strict p) (hq : Orderly stop strict q) :
    Orderly stop strict (if c then p else q) := by
  split
  · exact hp
  · exact hq

theorem peek : Orderly stop strict peek := fun s _ => .of_ok (peek_apply s) (.refl s)

theorem take : Orderly stop strict take := fun s _ => .of_ok (take_apply s) (.next s)

theorem missingExpression : Orderly stop strict (missingExpression : Parser α) :=
  fun s _ => ⟨rfl, by simp, [], .refl s⟩

theorem skip (kind : Kind) : Orderly stop strict (skip kind) :=
  bind peek fun _ => ite (bind take fun _ => pure true) (pure false)

theorem expect (what : Missing) : Orderly stop strict (expect what) := by
  intro s _
  by_cases h : s.ahead.kind = what.kind
  · exact .of_ok (expect_of_eq h) (.next s)
  · unfold OrderlyFrom
    rw [expect_of_ne h]
    exact ⟨rfl, by simp, [], .refl s⟩

/-- A fault that is recovered from may be blamed on the end, which is never passed. -/
theorem recovering {p : Parser Stmt} (hp : Orderly stop false p) :
    Orderly stop false (recovering p) := by
  intro s hs
  have h := hp s hs
  unfold OrderlyFrom at h ⊢
  unfold Parser.recovering
  cases hr : p s with
  | ok st s' =>
    rw [hr] at h
    exact h
  | error e s' =>
    rw [hr] at h
    obtain ⟨he, hfault, fs, hfs⟩ := h
    have hdrop : (s'.record e).Finds { s'.record e with rest := dropToBoundary s'.rest } [] :=
      .of_rest (dropToBoundary_suffix _) rfl rfl
    exact ⟨_, (hfs.trans (.record he hfault)).trans hdrop, fun h => by cases h⟩

theorem insideFunction (hp : Orderly stop strict p) : Orderly stop strict (insideFunction p) := by
  intro s hs
  have h := hp { s with depth := s.depth + 1 } hs
  unfold OrderlyFrom at h ⊢
  unfold Parser.insideFunction
  cases hr : p { s with depth := s.depth + 1 } with
  | ok a s' =>
    rw [hr] at h
    obtain ⟨fs, hfs, htaken⟩ := h
    exact ⟨fs, ⟨hfs.rest, hfs.stop, hfs.errors, hfs.sound, hfs.blamed, hfs.left, hfs.ordered⟩,
      htaken⟩
  | error e s' =>
    rw [hr] at h
    obtain ⟨he, hfault, fs, hfs⟩ := h
    exact ⟨he, hfault, fs,
      ⟨hfs.rest, hfs.stop, hfs.errors, hfs.sound, hfs.blamed, hfs.left, hfs.ordered⟩⟩

end Orderly

/-! ## Taking a token first -/

/-- Whether a parser is orderly and takes a token if it succeeds. -/
structure Consumes (stop : Token) (p : Parser α) : Prop where
  orderly : Orderly stop true p
  takes : ∀ s : Reading, s.stop = stop → Takes s p

namespace Consumes

variable {p q : Parser α} {f : α → Parser β}

theorem bind (hp : Consumes stop p) (hf : ∀ a, Orderly stop true (f a)) :
    Consumes stop (p >>= f) := by
  refine ⟨.bind hp.orderly hf, fun s hs b s'' hb => ?_⟩
  have hfirst := hp.orderly s hs
  rw [bind_apply] at hb
  unfold OrderlyFrom at hfirst
  cases hr : p s with
  | error e s' =>
    rw [hr] at hb
    cases hb
  | ok a s' =>
    rw [hr] at hb hfirst
    dsimp only at hb
    obtain ⟨fs, hfs, -⟩ := hfirst
    have hthen := hf a s' (hfs.stop.trans hs)
    unfold OrderlyFrom at hthen
    rw [hb] at hthen
    obtain ⟨gs, hgs, -⟩ := hthen
    exact Nat.lt_of_le_of_lt hgs.rest.length_le (hp.takes s hs a s' hr)

theorem missingExpression : Consumes stop (missingExpression : Parser α) :=
  ⟨.missingExpression, fun _ _ _ _ h => by cases h⟩

/-- A fault at the token ahead is passed if a token is taken next. -/
theorem behindLimit {count : Nat} {fault : ParseFault} (hfault : fault ≠ .invalidAssignmentTarget)
    (hp : Consumes stop p) : Orderly stop true (limit count fault >>= fun _ => p) := by
  intro s hs
  by_cases hcount : count < arityLimit
  · exact .of_eq (bind_of_ok (limit_of_lt hcount)) (.refl s) (hp.orderly s hs)
  have hlimit : limit count fault s = _ := limit_of_le (Nat.not_lt.mp hcount)
  have hrecord := Reading.Finds.record (s := s) (e := ⟨s.ahead, fault⟩) rfl hfault
  have h := hp.orderly (s.record ⟨s.ahead, fault⟩) hs
  unfold OrderlyFrom at h ⊢
  rw [bind_of_ok hlimit]
  cases hr : p (s.record ⟨s.ahead, fault⟩) with
  | error e s' =>
    rw [hr] at h
    obtain ⟨he, hne, fs, hfs⟩ := h
    exact ⟨he, hne, _, hrecord.trans hfs⟩
  | ok a s' =>
    rw [hr] at h
    obtain ⟨fs, hfs, htaken⟩ := h
    refine ⟨_, hrecord.trans hfs, fun hstrict => List.forall_mem_cons.mpr ⟨?_, htaken hstrict⟩⟩
    exact hp.takes (s.record ⟨s.ahead, fault⟩) hs a s' hr

variable (hstop : stop.kind = .eof)
include hstop

theorem expect (what : Missing) : Consumes stop (expect what) := by
  refine ⟨.expect what, fun s hs a s' h => ?_⟩
  by_cases hk : s.ahead.kind = what.kind
  · rw [expect_of_eq hk] at h
    cases h
    refine s.length_next (hs ▸ hstop) ?_
    rw [hk]
    cases what <;> decide
  · rw [expect_of_ne hk] at h
    cases h

/-- A token that does not end the list is taken first, or something else is done that takes one. -/
theorem peek {f : Token → Parser β}
    (h : ∀ t, (∃ g : Token → Parser β, t.kind ≠ .eof ∧ f t = Parser.take >>= g ∧
      ∀ u, Orderly stop true (g u)) ∨ Consumes stop (f t)) : Consumes stop (peek >>= f) := by
  have horderly : ∀ t, Orderly stop true (f t) := by
    intro t
    rcases h t with ⟨g, -, hf, hg⟩ | ht
    · exact hf ▸ .bind .take hg
    · exact ht.orderly
  refine ⟨.bind .peek horderly, fun s hs => Takes.peek ?_⟩
  rcases h s.ahead with ⟨g, ha, hf, hg⟩ | ht
  · intro b s' hb
    rw [hf, bind_of_ok (take_apply s)] at hb
    have hthen := hg s.ahead s.next hs
    unfold OrderlyFrom at hthen
    rw [hb] at hthen
    obtain ⟨fs, hfs, -⟩ := hthen
    exact Nat.lt_of_le_of_lt hfs.rest.length_le (s.length_next (hs ▸ hstop) ha)
  · exact ht.takes s hs

end Consumes

/-! ## Expressions -/

section Expressions

variable {expression : Parser Expr} (he : Consumes stop expression)
include he

theorem orderly_arguments (n count : Nat) :
    Orderly stop true (arguments expression n count) := by
  induction n generalizing count with
  | zero => exact Consumes.behindLimit (by decide) (he.bind fun _ => .pure _)
  | succ n ih =>
    rw [arguments_succ]
    refine Consumes.behindLimit (by decide) (he.bind fun _ => .bind (.skip .comma) fun _ => ?_)
    exact .ite (.bind (ih _) fun _ => .pure _) (.pure _)

theorem orderly_argumentList (bound : Nat) : Orderly stop true (argumentList bound expression) :=
  .bind .peek fun _ => .ite (.pure _) (orderly_arguments he bound 0)

theorem orderly_calls (bound n : Nat) (callee : Expr) :
    Orderly stop true (calls bound expression n callee) := by
  induction n generalizing callee with
  | zero => exact .pure _
  | succ n ih =>
    rw [calls_succ]
    refine .bind (.skip .leftParen) fun _ => .ite ?_ (.pure _)
    exact .bind (orderly_argumentList he bound) fun _ => .bind (.expect _) fun _ => ih _

variable (hstop : stop.kind = .eof)
include hstop

theorem consumes_primary : Consumes stop (primary expression) := by
  unfold primary
  refine .peek hstop fun t => ?_
  cases hv : t.literal? with
  | some v =>
    have hk : t.kind ≠ .eof := ne_of_mem_of_not_mem (Grammar.kind_of_literal hv) (by decide)
    exact .inl ⟨_, hk, rfl, fun _ => .pure _⟩
  | none =>
    by_cases hx : t.kind = .identifier
    · simp only [hx]
      exact .inl ⟨_, by decide, rfl, fun _ => .pure _⟩
    by_cases hl : t.kind = .leftParen
    · simp only [hl]
      exact .inl ⟨_, by decide, rfl, fun _ => .bind he.orderly fun _ => .bind (.expect _) fun _ =>
        .pure _⟩
    · simp only
      exact .inr .missingExpression

theorem consumes_unary (bound n : Nat) : Consumes stop (unary bound expression n) := by
  induction n with
  | zero => exact .missingExpression
  | succ n ih =>
    rw [unary_succ]
    refine .peek hstop fun t => ?_
    by_cases hk : t.kind = .bang ∨ t.kind = .minus
    · rw [if_pos hk]
      refine .inl ⟨_, ?_, rfl, fun _ => .bind ih.orderly fun _ => .pure _⟩
      rcases hk with hk | hk <;> rw [hk] <;> decide
    · rw [if_neg hk]
      exact .inr ((consumes_primary he hstop).bind fun _ => orderly_calls he bound bound _)

end Expressions

theorem orderly_operations {operand : Parser Expr} (ho : Consumes stop operand) (level : Level)
    (n : Nat) (left : Expr) : Orderly stop true (operations level operand n left) := by
  induction n generalizing left with
  | zero => exact .pure _
  | succ n ih =>
    rw [operations_succ]
    refine .bind .peek fun _ => .ite ?_ (.pure _)
    exact .bind .take fun _ => .bind ho.orderly fun _ => ih _

theorem consumes_operators (bound : Nat) {operand : Parser Expr} (ho : Consumes stop operand)
    (levels : List Level) : Consumes stop (operators bound operand levels) := by
  induction levels with
  | nil => exact ho
  | cons level levels ih => exact ih.bind fun _ => orderly_operations ih level bound _

/-- Behind a sign of assignment come the faults of the value, and then that the value cannot be
assigned. -/
theorem orderlyFrom_assigned {n : Nat} (hs : s.stop.kind = .eof) (hsign : s.ahead.kind = .equal)
    (hvalue : OrderlyFrom true s.next (assignment n)) {g : Expr → Parser Expr}
    (hg : ∀ value s', ∃ e, g value s' = .ok e s' ∨
      g value s' = .ok e (s'.record ⟨s.ahead, .invalidAssignmentTarget⟩)) :
    OrderlyFrom true s (take >>= fun _ => assignment n >>= g) := by
  unfold OrderlyFrom at hvalue ⊢
  rw [bind_of_ok (take_apply s), bind_apply]
  cases hr : assignment n s.next with
  | error e s' =>
    rw [hr] at hvalue
    obtain ⟨he, hfault, fs, hfs⟩ := hvalue
    exact ⟨he, hfault, fs, (Reading.Finds.next s).trans hfs⟩
  | ok value s' =>
    rw [hr] at hvalue
    obtain ⟨fs, hfs, htaken⟩ := hvalue
    dsimp only
    obtain ⟨e, hok | hreport⟩ := hg value s'
    · rw [hok]
      exact ⟨fs, (Reading.Finds.next s).trans hfs, htaken⟩
    · rw [hreport]
      refine ⟨_, .recordValue hs hsign hr hfs (htaken rfl), fun _ => ?_⟩
      refine List.forall_mem_append.mpr ⟨htaken rfl, List.forall_mem_singleton.mpr ?_⟩
      have hne : s.ahead.kind ≠ .eof := by
        rw [hsign]
        decide
      exact Nat.lt_of_le_of_lt hfs.rest.length_le (s.length_next hs hne)

theorem consumes_assignment (hstop : stop.kind = .eof) (n : Nat) :
    Consumes stop (assignment n) := by
  induction n with
  | zero => exact .missingExpression
  | succ n ih =>
    unfold assignment
    have hunary := consumes_unary ih hstop (n + 1) (n + 1)
    refine (consumes_operators (n + 1) hunary Level.all).bind fun target s hs => ?_
    rw [← hs] at hstop
    refine .of_eq (bind_of_ok (peek_apply s)) (.refl s) ?_
    split
    · next hsign =>
      refine orderlyFrom_assigned hstop hsign (ih.orderly s.next hs) fun value s' => ?_
      split
      · exact ⟨_, .inl rfl⟩
      · exact ⟨_, .inr rfl⟩
    · exact .of_ok rfl (.refl s)

/-! ## Parts of statements -/

section Parts

variable (hstop : stop.kind = .eof)
include hstop

theorem orderly_assignment (n : Nat) : Orderly stop strict (assignment n) :=
  (consumes_assignment hstop n).orderly.mono

/-- An optional expression. -/
theorem orderly_optional {c : Prop} [Decidable c] (bound : Nat) :
    Orderly stop strict (if c then pure none else some <$> assignment bound) :=
  .ite (.pure _) (.map (orderly_assignment hstop bound))

theorem orderly_expressionStatement (bound : Nat) :
    Orderly stop strict (expressionStatement bound) :=
  .bind (orderly_assignment hstop bound) fun _ => .bind (.expect _) fun _ => .pure _

theorem orderly_variableDeclaration (bound : Nat) :
    Orderly stop strict (variableDeclaration bound) := by
  rw [variableDeclaration_eq]
  refine .bind (.expect _) fun _ => .bind (.skip .equal) fun _ => ?_
  refine .bind (.ite (.map (orderly_assignment hstop bound)) (.pure _)) fun _ => ?_
  exact .bind (.expect _) fun _ => .pure _

theorem orderly_initializer (bound : Nat) : Orderly stop strict (initializer bound) := by
  refine .bind .peek fun _ => ?_
  split
  · exact .bind .take fun _ => .pure _
  · exact .bind .take fun _ => .map (orderly_variableDeclaration hstop bound)
  · exact .map (orderly_expressionStatement hstop bound)

theorem orderly_parameters (n count : Nat) : Orderly stop true (parameters n count) := by
  have hname := Consumes.expect hstop .parameterName
  induction n generalizing count with
  | zero => exact Consumes.behindLimit (by decide) (hname.bind fun _ => .pure _)
  | succ n ih =>
    refine Consumes.behindLimit (by decide) (hname.bind fun _ => .bind (.skip .comma) fun _ => ?_)
    exact .ite (.bind (ih _) fun _ => .pure _) (.pure _)

theorem orderly_parameterList (bound : Nat) : Orderly stop strict (parameterList bound) :=
  .bind .peek fun _ => .ite (.pure _) (orderly_parameters hstop bound 0).mono

theorem orderly_print (bound : Nat) (keyword : Token) :
    Orderly stop strict (print bound keyword) :=
  .bind (orderly_assignment hstop bound) fun _ => .bind (.expect _) fun _ => .pure _

/-- The keyword is the token that was just taken. -/
theorem orderlyFrom_ret (bound : Nat) (hs : s.stop = stop) :
    OrderlyFrom false s (take >>= fun _ => ret bound s.ahead) := by
  have hthen : Orderly stop false (do
      let t ← peek
      (if t.kind = .semicolon then pure none else some <$> assignment bound) >>= fun value => do
        let _ ← expect .afterReturnValue
        return Stmt.ret s.ahead value) :=
    .bind .peek fun _ => .bind (orderly_optional hstop bound) fun _ =>
      .bind (.expect _) fun _ => .pure _
  let e : ParseError := ⟨s.ahead, .topLevelReturn⟩
  have hcheck : checkReturn s.ahead s.next =
      (if s.depth = 0 then report s.ahead .topLevelReturn else pure ()) s.next := rfl
  rw [ret_eq]
  by_cases hdepth : s.depth = 0
  · rw [if_pos hdepth] at hcheck
    have hok : checkReturn s.ahead s.next = .ok () (s.next.record e) := hcheck
    refine .of_finds ?_ (.recordTaken (e := e) rfl fun h => by cases h) (fun h => by cases h)
      (hthen (s.next.record e) hs)
    rw [bind_of_ok (take_apply s), bind_of_ok hok]
  · rw [if_neg hdepth] at hcheck
    have hok : checkReturn s.ahead s.next = .ok () s.next := hcheck
    refine .of_eq ?_ (.next s) (hthen s.next hs)
    rw [bind_of_ok (take_apply s), bind_of_ok hok]

end Parts

/-! ## Statements -/

section Statements

variable (hstop : stop.kind = .eof) {statement : Parser Stmt}
  (hst : Orderly stop false statement) {declaration : Parser (Option Stmt)}
  (hd : Orderly stop false declaration) (bound : Nat)

include hd in
theorem orderly_declarations (ends : Kind → Bool) (n : Nat) :
    Orderly stop false (declarations ends declaration n) := by
  induction n with
  | zero => exact .pure _
  | succ n ih =>
    rw [declarations_succ]
    refine .bind .peek fun _ => .ite (.pure _) ?_
    exact .bind hd fun _ => .bind ih fun _ => .pure _

include hd in
theorem orderly_block : Orderly stop false (block bound declaration) :=
  .bind (orderly_declarations hd _ bound) fun _ => .bind (.expect _) fun _ => .pure _

include hstop hd in
theorem orderly_functionDeclaration :
    Orderly stop false (functionDeclaration bound declaration) := by
  refine .bind (.expect _) fun _ => .bind (.expect _) fun _ => ?_
  refine .bind (orderly_parameterList hstop bound) fun _ => .bind (.expect _) fun _ => ?_
  exact .bind (.expect _) fun _ => .bind (.insideFunction (orderly_block hd bound)) fun _ =>
    .pure _

include hstop hst

theorem orderly_branch : Orderly stop false (branch bound statement) := by
  rw [branch_eq]
  refine .bind (.expect _) fun _ => .bind (orderly_assignment hstop bound) fun _ => ?_
  refine .bind (.expect _) fun _ => .bind hst fun _ => .bind (.skip .kwElse) fun _ => ?_
  exact .bind (.ite (.map hst) (.pure _)) fun _ => .pure _

theorem orderly_whileLoop : Orderly stop false (whileLoop bound statement) := by
  refine .bind (.expect _) fun _ => .bind (orderly_assignment hstop bound) fun _ => ?_
  exact .bind (.expect _) fun _ => .bind hst fun _ => .pure _

theorem orderly_forLoop : Orderly stop false (forLoop bound statement) := by
  rw [forLoop_eq]
  refine .bind (.expect _) fun _ => .bind (orderly_initializer hstop bound) fun _ => ?_
  refine .bind .peek fun _ => .bind (.ite (.pure _) (orderly_assignment hstop bound)) fun _ => ?_
  refine .bind (.expect _) fun _ => .bind .peek fun _ => ?_
  refine .bind (orderly_optional hstop bound) fun _ => .bind (.expect _) fun _ => ?_
  exact .bind hst fun _ => .pure _

include hd

theorem orderly_statementOf : Orderly stop false (statementOf bound statement declaration) := by
  intro s hs
  refine .of_eq (bind_of_ok (peek_apply s)) (.refl s) ?_
  split
  · exact (Orderly.take.bind fun _ => orderly_branch hstop hst bound) s hs
  · exact (Orderly.take.bind fun _ => orderly_print hstop bound _) s hs
  · exact orderlyFrom_ret hstop bound hs
  · exact (Orderly.take.bind fun _ => .bind (orderly_block hd bound) fun _ => .pure _) s hs
  · exact (Orderly.take.bind fun _ => orderly_whileLoop hstop hst bound) s hs
  · exact (Orderly.take.bind fun _ => orderly_forLoop hstop hst bound) s hs
  · exact orderly_expressionStatement hstop bound s hs

theorem orderly_declarationOf :
    Orderly stop false (declarationOf bound statement declaration) := by
  refine .bind .peek fun _ => ?_
  split
  · exact .bind .take fun _ => orderly_variableDeclaration hstop bound
  · exact .bind .take fun _ => orderly_functionDeclaration hstop hd bound
  · exact orderly_statementOf hstop hst hd bound

end Statements

theorem orderly_both (hstop : stop.kind = .eof) (n : Nat) :
    Orderly stop false (statement n) ∧ Orderly stop false (declaration n) := by
  induction n with
  | zero => exact ⟨.missingExpression, .recovering .missingExpression⟩
  | succ n ih =>
    exact ⟨orderly_statementOf hstop ih.1 ih.2 (n + 1),
      .recovering (orderly_declarationOf hstop ih.1 ih.2 (n + 1))⟩

end Parser

namespace Grammar

/-- The faults of a program with their extents. -/
theorem exists_findings (tokens : List Token) : ∃ fs : List Finding,
    (parse tokens).errors = fs.map Finding.error ∧ (∀ f ∈ fs, f.Sound (stop tokens)) ∧
      (∀ f ∈ fs, f.blamed <:+ body tokens) ∧ fs.Pairwise Finding.Ordered := by
  obtain ⟨ss, s', hrun, hparse⟩ := parse_eq tokens
  have h : Parser.OrderlyFrom false (start tokens) (program tokens) :=
    Parser.orderly_declarations (Parser.orderly_both (kind_stop tokens) _).2 _ _ _ rfl
  unfold Parser.OrderlyFrom at h
  rw [hrun] at h
  obtain ⟨fs, hfs, -⟩ := h
  rw [hparse]
  exact ⟨fs, hfs.errors, hfs.sound, hfs.blamed, hfs.ordered⟩

end Grammar
end Lox
