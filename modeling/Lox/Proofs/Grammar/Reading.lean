import Lox.Proofs.Grammar.Derivation

/-!
What a parser does to the tokens in front of it.

The equations say what the smallest parsers do.  The judgement `Reads s p D` bounds what any parser
may do from the state `s`: it only goes forward, and when it ends without having recorded a fault
then it took a phrase of `D`.
-/

namespace Lox

namespace Reading

/-- How reading may change the state: tokens are taken from the front, faults are added behind, and
the place relative to function bodies stays. -/
structure Later (s s' : Reading) : Prop where
  rest : s'.rest <:+ s.rest
  stop : s'.stop = s.stop
  depth : s'.depth = s.depth
  errors : s.errors <+: s'.errors

namespace Later

theorem refl (s : Reading) : Later s s :=
  ⟨List.suffix_refl _, rfl, rfl, List.prefix_refl _⟩

theorem trans {s t u : Reading} (h : Later s t) (k : Later t u) : Later s u :=
  ⟨k.rest.trans h.rest, k.stop.trans h.stop, k.depth.trans h.depth, h.errors.trans k.errors⟩

theorem eof {s s' : Reading} (h : Later s s') (hs : s.stop.kind = .eof) : s'.stop.kind = .eof := by
  rw [h.stop, hs]

/-- If no fault was added in the end, then none was added on the way. -/
theorem errors_eq_left {s t u : Reading} (h : Later s t) (k : Later t u)
    (he : u.errors = s.errors) : t.errors = s.errors := by
  have hk : t.errors <+: s.errors := he ▸ k.errors
  exact (h.errors.eq_of_length (Nat.le_antisymm h.errors.length_le hk.length_le)).symm

end Later

/-- Whether the place is inside a function body. -/
def inside (s : Reading) : Bool := s.depth != 0

theorem Later.inside_eq {s s' : Reading} (h : Later s s') : s'.inside = s.inside := by
  rw [inside, inside, h.depth]

/-- The state behind the token ahead. -/
def next (s : Reading) : Reading := { s with rest := s.rest.tail }

theorem later_next (s : Reading) : s.Later s.next :=
  ⟨List.tail_suffix _, rfl, rfl, List.prefix_refl _⟩

theorem later_record (s : Reading) (e : ParseError) : s.Later (s.record e) :=
  ⟨List.suffix_refl _, rfl, rfl, List.prefix_append _ _⟩

/-- The state with other tokens left. -/
def after (s : Reading) (rest : List Token) : Reading := { s with rest }

@[simp] theorem rest_after (s : Reading) (rest : List Token) : (s.after rest).rest = rest := rfl

@[simp] theorem after_after (s : Reading) (ts us : List Token) :
    (s.after ts).after us = s.after us := rfl

@[simp] theorem ahead_after_cons (s : Reading) (t : Token) (ts : List Token) :
    (s.after (t :: ts)).ahead = t := rfl

theorem ahead_of_rest (s : Reading) {t : Token} {ts : List Token} (h : s.rest = t :: ts) :
    s.ahead = t := by
  rw [ahead, h]
  rfl

theorem next_of_rest (s : Reading) {t : Token} {ts : List Token} (h : s.rest = t :: ts) :
    s.next = s.after ts := by
  rw [next, after, h]
  rfl

/-- A token that does not end the list is the first of those that are left. -/
theorem rest_eq_ahead_cons {s : Reading} (hs : s.stop.kind = .eof) (h : s.ahead.kind ≠ .eof) :
    s.rest = s.ahead :: s.next.rest := by
  unfold ahead at h ⊢
  cases hr : s.rest with
  | nil => rw [hr] at h; exact absurd hs h
  | cons t ts => simp [next, hr]

end Reading

namespace Parser

variable {α β : Type} {s s' s'' : Reading}

theorem bind_apply (p : Parser α) (f : α → Parser β) (s : Reading) :
    (p >>= f) s = match p s with
      | .ok a s => f a s
      | .error e s => .error e s := by
  show EStateM.bind p f s = _
  unfold EStateM.bind
  cases p s <;> rfl

theorem bind_of_ok {p : Parser α} {f : α → Parser β} {a : α} (h : p s = .ok a s') :
    (p >>= f) s = f a s' := by
  rw [bind_apply, h]

theorem pure_apply (a : α) (s : Reading) : (pure a : Parser α) s = .ok a s := rfl

theorem peek_apply (s : Reading) : peek s = .ok s.ahead s := rfl

theorem take_apply (s : Reading) : take s = .ok s.ahead s.next := rfl

theorem skip_of_eq {kind : Kind} (h : s.ahead.kind = kind) : skip kind s = .ok true s.next := by
  unfold skip
  rw [bind_of_ok (peek_apply s), if_pos h, bind_of_ok (take_apply s)]
  rfl

theorem skip_of_ne {kind : Kind} (h : s.ahead.kind ≠ kind) : skip kind s = .ok false s := by
  unfold skip
  rw [bind_of_ok (peek_apply s), if_neg h]
  rfl

theorem expect_of_eq {what : Missing} (h : s.ahead.kind = what.kind) :
    expect what s = .ok s.ahead s.next := by
  unfold expect
  rw [bind_of_ok (peek_apply s), if_pos h]
  rfl

theorem expect_of_ne {what : Missing} (h : s.ahead.kind ≠ what.kind) :
    expect what s = .error ⟨s.ahead, .missing what⟩ s := by
  unfold expect
  rw [bind_of_ok (peek_apply s), if_neg h]
  rfl

theorem map_of_ok {p : Parser α} {g : α → β} {a : α} (h : p s = .ok a s') :
    (g <$> p) s = .ok (g a) s' :=
  bind_of_ok (f := fun a => pure (g a)) h

theorem take_cons {t : Token} {rest : List Token} (h : s.rest = t :: rest) :
    take s = .ok t (s.after rest) := by
  rw [take_apply, s.ahead_of_rest h, s.next_of_rest h]

theorem skip_cons {kind : Kind} {t : Token} {rest : List Token} (h : s.rest = t :: rest)
    (hk : t.kind = kind) : skip kind s = .ok true (s.after rest) := by
  rw [skip_of_eq (by rw [s.ahead_of_rest h, hk]), s.next_of_rest h]

theorem expect_cons (what : Missing) {t : Token} {rest : List Token} (h : s.rest = t :: rest)
    (hk : t.kind = what.kind) : expect what s = .ok t (s.after rest) := by
  rw [expect_of_eq (by rw [s.ahead_of_rest h, hk]), s.ahead_of_rest h, s.next_of_rest h]

theorem limit_of_lt {count : Nat} {fault : ParseFault} (h : count < arityLimit) :
    limit count fault s = .ok () s := by
  unfold limit
  rw [if_neg (by omega)]
  rfl

/-- The parser succeeds with `a` and leaves `s'`.  A name for the equation, under which the parser
can be taken apart. -/
def Gives (s : Reading) (p : Parser α) (a : α) (s' : Reading) : Prop := p s = .ok a s'

/-- The two ways of `if` go on in one way. -/
theorem ite_bind (c : Prop) [Decidable c] (p q : Parser α) (f : α → Parser β) :
    (if c then p >>= f else q >>= f) = (if c then p else q) >>= f := by
  split <;> rfl

/-! Parsers with an optional part, with one continuation behind it. -/

theorem variableDeclaration_eq (bound : Nat) : variableDeclaration bound = (do
    let name ← expect .variableName
    let given ← skip .equal
    (if given then some <$> assignment bound else pure none) >>= fun initializer => do
    let _ ← expect .afterVariable
    return .declare name initializer) := by
  simp only [variableDeclaration, ite_bind]

theorem branch_eq (bound : Nat) (statement : Parser Stmt) : branch bound statement = (do
    let _ ← expect .beforeIfCondition
    let condition ← assignment bound
    let _ ← expect .afterIfCondition
    let whenTrue ← statement
    let given ← skip .kwElse
    (if given then some <$> statement else pure none) >>= fun whenFalse =>
    return .branch condition whenTrue whenFalse) := by
  simp only [branch, ite_bind]

theorem ret_eq (bound : Nat) (keyword : Token) : ret bound keyword = (do
    checkReturn keyword
    let t ← peek
    (if t.kind = .semicolon then pure none else some <$> assignment bound) >>= fun value => do
    let _ ← expect .afterReturnValue
    return .ret keyword value) := by
  simp only [ret, ite_bind]

theorem forLoop_eq (bound : Nat) (statement : Parser Stmt) : forLoop bound statement = (do
    let _ ← expect .beforeForClauses
    let initializer ← initializer bound
    let t ← peek
    (if t.kind = .semicolon then pure (.literal (.bool true)) else assignment bound) >>=
      fun condition => do
    let _ ← expect .afterLoopCondition
    let t ← peek
    (if t.kind = .rightParen then pure none else some <$> assignment bound) >>=
      fun increment => do
    let _ ← expect .afterForClauses
    return .forLoop initializer condition increment (← statement)) := by
  simp only [forLoop, ite_bind]

/-! One round of each loop. -/

theorem operations_succ (level : Level) (operand : Parser Expr) (n : Nat) (left : Expr) :
    operations level operand (n + 1) left = (do
      let t ← peek
      if level.operators.contains t.kind then
        let _ ← take
        let right ← operand
        operations level operand n (level.combine left t right)
      else
        pure left) := rfl

theorem arguments_succ (expression : Parser Expr) (n count : Nat) :
    arguments expression (n + 1) count = (do
      limit count .tooManyArguments
      let first ← expression
      if ← skip .comma then
        return first :: (← arguments expression n (count + 1))
      else
        return [first]) := rfl

theorem calls_succ (bound : Nat) (expression : Parser Expr) (n : Nat) (callee : Expr) :
    calls bound expression (n + 1) callee = (do
      if ← skip .leftParen then
        let given ← argumentList bound expression
        let paren ← expect .afterArguments
        calls bound expression n (.call callee paren given)
      else
        pure callee) := rfl

theorem unary_succ (bound : Nat) (expression : Parser Expr) (n : Nat) :
    unary bound expression (n + 1) = (do
      let t ← peek
      if t.kind = .bang ∨ t.kind = .minus then
        let _ ← take
        return .unary t (← unary bound expression n)
      else
        let callee ← primary expression
        calls bound expression bound callee) := rfl

theorem declarations_succ (ends : Kind → Bool) (declaration : Parser (Option Stmt)) (n : Nat) :
    declarations ends declaration (n + 1) = (do
      if ends (← peek).kind then
        pure []
      else
        let first? ← declaration
        let others ← declarations ends declaration n
        return first?.toList ++ others) := rfl

/-! ## Taking nothing but phrases -/

/-- The state that a parser leaves comes later, and if no fault was recorded on the way then the
tokens that were taken are a phrase. -/
def Reads (s : Reading) (p : Parser α) (D : List Token → α → Prop) : Prop :=
  match p s with
  | .ok a s' =>
    s.Later s' ∧ (s'.errors = s.errors → ∃ ts, s.rest = ts ++ s'.rest ∧ D ts a)
  | .error _ s' => s.Later s'

namespace Reads

variable {p q : Parser α} {f : α → Parser β} {D D' : List Token → α → Prop}
  {E : List Token → β → Prop} {a : α}

theorem mono (h : Reads s p D) (hD : ∀ ts a, D ts a → D' ts a) : Reads s p D' := by
  unfold Reads at h ⊢
  split
  · next a s' hp =>
    rw [hp] at h
    refine ⟨h.1, fun he => ?_⟩
    obtain ⟨ts, hr, hd⟩ := h.2 he
    exact ⟨ts, hr, hD ts a hd⟩
  · next e s' hp => rwa [hp] at h

theorem pure (h : D [] a) : Reads s (pure a) D :=
  ⟨.refl s, fun _ => ⟨[], rfl, h⟩⟩

theorem throw (e : ParseError) : Reads s (throw e : Parser α) D := Reading.Later.refl s

/-- What comes behind `p` is asked to make a phrase together with whatever `p` may have taken. -/
theorem bind (hp : Reads s p D)
    (hf : ∀ a s', s.Later s' → Reads s' (f a) (fun us b => ∀ ts, D ts a → E (ts ++ us) b)) :
    Reads s (p >>= f) E := by
  unfold Reads at hp ⊢
  rw [bind_apply]
  cases hr : p s with
  | error e s' =>
    rw [hr] at hp
    exact hp
  | ok a s' =>
    rw [hr] at hp
    obtain ⟨hl, hd⟩ := hp
    have h := hf a s' hl
    unfold Reads at h
    dsimp only
    split
    · next b s'' hb =>
      rw [hb] at h
      refine ⟨hl.trans h.1, fun he => ?_⟩
      have hclean := hl.errors_eq_left h.1 he
      obtain ⟨ts, hts, hD⟩ := hd hclean
      obtain ⟨us, hus, hE⟩ := h.2 (he.trans hclean.symm)
      exact ⟨ts ++ us, by rw [hts, hus, List.append_assoc], hE ts hD⟩
    · next e s'' hb =>
      rw [hb] at h
      exact hl.trans h

theorem map {g : α → β} (hp : Reads s p fun ts a => E ts (g a)) : Reads s (g <$> p) E := by
  refine bind (E := E) hp fun a s' _ => pure (a := g a) fun ts h => ?_
  rwa [List.append_nil]

theorem ite {c : Prop} [Decidable c] (hp : c → Reads s p D) (hq : ¬c → Reads s q D) :
    Reads s (if c then p else q) D := by
  split
  · next h => exact hp h
  · next h => exact hq h

/-- A parser reads as another one does that acts in the same way. -/
theorem of_eq (hpq : p s = q s) (h : Reads s q D) : Reads s p D := by
  unfold Reads at h ⊢
  rwa [hpq]

/-- Looking at the token ahead takes nothing. -/
theorem peek {f : Token → Parser β} (h : Reads s (f s.ahead) E) : Reads s (peek >>= f) E :=
  of_eq (bind_of_ok (peek_apply s)) h

/-- What comes behind the token ahead, when that is not the one that ends the list. -/
theorem of_next (hs : s.stop.kind = .eof) (ha : s.ahead.kind ≠ .eof)
    (hp : p s = q s.next) (h : Reads s.next q fun ts a => D (s.ahead :: ts) a) : Reads s p D := by
  unfold Reads at h ⊢
  rw [hp]
  split
  · next a s' hq =>
    rw [hq] at h
    refine ⟨s.later_next.trans h.1, fun he => ?_⟩
    obtain ⟨ts, hts, hD⟩ := h.2 he
    exact ⟨s.ahead :: ts, by rw [s.rest_eq_ahead_cons hs ha, hts, List.cons_append], hD⟩
  · next e s' hq =>
    rw [hq] at h
    exact s.later_next.trans h

theorem take {f : Token → Parser β} (hs : s.stop.kind = .eof) (ha : s.ahead.kind ≠ .eof)
    (h : Reads s.next (f s.ahead) fun us b => E (s.ahead :: us) b) : Reads s (take >>= f) E :=
  of_next hs ha (bind_of_ok (take_apply s)) h

theorem skip {kind : Kind} {f : Bool → Parser β} (hs : s.stop.kind = .eof) (hk : kind ≠ .eof)
    (ht : s.ahead.kind = kind → Reads s.next (f true) fun us b => E (s.ahead :: us) b)
    (hf : s.ahead.kind ≠ kind → Reads s (f false) E) : Reads s (skip kind >>= f) E := by
  by_cases h : s.ahead.kind = kind
  · exact of_next hs (h ▸ hk) (bind_of_ok (skip_of_eq h)) (ht h)
  · exact of_eq (bind_of_ok (skip_of_ne h)) (hf h)

theorem expect {what : Missing} {f : Token → Parser β} (hs : s.stop.kind = .eof)
    (h : s.ahead.kind = what.kind → Reads s.next (f s.ahead) fun us b => E (s.ahead :: us) b) :
    Reads s (expect what >>= f) E := by
  by_cases hk : s.ahead.kind = what.kind
  · have ha : s.ahead.kind ≠ .eof := by
      rw [hk]
      cases what <;> decide
    exact of_next hs ha (bind_of_ok (expect_of_eq hk)) (h hk)
  · refine of_eq ?_ (throw ⟨s.ahead, .missing what⟩)
    rw [bind_apply, expect_of_ne hk]
    rfl

/-- A recorded fault leaves nothing to show. -/
theorem report (t : Token) (fault : ParseFault) {D : List Token → Unit → Prop} :
    Reads s (report t fault) D := by
  refine ⟨s.later_record _, fun he => ?_⟩
  simp [Reading.record] at he

theorem missingExpression : Reads s (missingExpression : Parser α) D :=
  of_eq (bind_of_ok (peek_apply s)) (throw _)

theorem limit (count : Nat) (fault : ParseFault) :
    Reads s (limit count fault) fun ts _ => ts = [] ∧ count < arityLimit := by
  unfold Parser.limit
  refine ite (fun _ => peek (report _ _)) fun h => pure ⟨rfl, by omega⟩

end Reads

end Parser

end Lox
