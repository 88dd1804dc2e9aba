import Lox.Grammar.Walk
import Lox.Proofs.Grammar.Acceptance
import Lox.Proofs.Grammar.Progress

/-!
Walks follow readings.

What is left of the tokens behind a walker's index is what a reader would have in front of it.  A
walk ends wherever it starts in front of the first token that ends the list, and it does to the
walker what reading does to the reader.
-/

namespace Lox

open Grammar

namespace Walker

/-- The index of the first token that ends the list. -/
def stopIndex (s : Walker) : Nat := s.tokens.toList.findIdx fun t => t.kind == .eof

/-- Whether some token ends the list and the walker has not passed the first of them. -/
structure Stands (s : Walker) : Prop where
  ends : ∃ t ∈ s.tokens.toList, t.kind = .eof
  within : s.current ≤ s.stopIndex

/-- What a walk may do to a walker. -/
structure Later (s s' : Walker) : Prop where
  tokens : s'.tokens = s.tokens
  forward : s.current ≤ s'.current
  within : s'.current ≤ s'.stopIndex
  depth : s'.depth = s.depth

/-- What a reader has in front of it at the place of the walker. -/
def view (s : Walker) : Reading where
  rest := (body s.tokens.toList).drop s.current
  stop := stop s.tokens.toList
  depth := s.depth
  errors := s.errors

/-- The walker behind the token ahead. -/
def next (s : Walker) : Walker := { s with current := s.current + 1 }

variable {s s' s'' : Walker}

theorem stopIndex_eq (s : Walker) : s.stopIndex = (body s.tokens.toList).length := by
  unfold stopIndex body
  induction s.tokens.toList with
  | nil => rfl
  | cons t ts ih =>
    rw [List.findIdx_cons, List.takeWhile_cons]
    cases h : t.kind == .eof with
    | true => simp [bne, h]
    | false => simp [bne, h, ih]

theorem Later.refl (hs : s.Stands) : s.Later s :=
  ⟨rfl, Nat.le_refl _, hs.within, rfl⟩

theorem Later.trans (h : s.Later s') (k : s'.Later s'') : s.Later s'' :=
  ⟨k.tokens.trans h.tokens, Nat.le_trans h.forward k.forward, k.within, k.depth.trans h.depth⟩

theorem Later.stands (h : s.Later s') (hs : s.Stands) : s'.Stands :=
  ⟨h.tokens ▸ hs.ends, h.within⟩

theorem kind_stop_view (s : Walker) : s.view.stop.kind = .eof := kind_stop _

theorem length_view (s : Walker) : s.view.rest.length = s.stopIndex - s.current := by
  rw [view, List.length_drop, stopIndex_eq]

theorem Later.length_le (h : s.Later s') : s'.view.rest.length ≤ s.view.rest.length := by
  have hforward := h.forward
  rw [length_view, length_view, stopIndex, stopIndex, h.tokens]
  omega

theorem later_record (hs : s.Stands) (e : ParseError) : s.Later (s.record e) :=
  ⟨rfl, Nat.le_refl _, hs.within, rfl⟩

theorem getElem?_current (hs : s.Stands) : s.tokens[s.current]? = some s.view.ahead := by
  have hwithin := hs.within
  obtain ⟨more, hdrop⟩ := dropWhile_eq_stop_cons hs.ends
  have htokens : s.tokens.toList = body s.tokens.toList ++ stop s.tokens.toList :: more := by
    rw [← hdrop]
    exact List.takeWhile_append_dropWhile.symm
  rw [stopIndex_eq] at hwithin
  rw [← Array.getElem?_toList, htokens, view, Reading.ahead]
  rcases Nat.lt_or_eq_of_le hwithin with hlt | heq
  · rw [List.getElem?_append_left hlt, List.drop_eq_getElem_cons hlt,
      List.getElem?_eq_getElem hlt, List.headD_cons]
  · rw [heq, List.getElem?_append_right (Nat.le_refl _), Nat.sub_self, List.drop_length]
    rfl

theorem current_lt_size (hs : s.Stands) : s.current < s.tokens.size := by
  by_contra h
  have hnone := Array.getElem?_eq_none (Nat.not_lt.mp h)
  rw [getElem?_current hs] at hnone
  exact Option.some_ne_none _ hnone

theorem next_view (s : Walker) : s.next.view = s.view.next := by
  rw [next, view, Reading.next, view, List.tail_drop]

theorem ahead_of_length_le_zero (h : s.view.rest.length ≤ 0) : s.view.ahead = s.view.stop := by
  rw [Reading.ahead, List.length_eq_zero_iff.mp (Nat.le_zero.mp h), List.headD_nil]

/-- No token in front of the one that ends the list is of its kind. -/
theorem rest_eq_nil (ha : s.view.ahead.kind = .eof) : s.view.rest = [] := by
  cases hr : s.view.rest with
  | nil => rfl
  | cons t ts =>
    have hmem : t ∈ (body s.tokens.toList).drop s.current := by
      show t ∈ s.view.rest
      rw [hr]
      exact List.mem_cons_self
    rw [Reading.ahead_of_rest _ hr] at ha
    exact absurd ha (kind_of_mem_body (List.mem_of_mem_drop hmem))

theorem length_next (ha : s.view.ahead.kind ≠ .eof) :
    s.next.view.rest.length < s.view.rest.length := by
  rw [next_view]
  exact Reading.length_next s.kind_stop_view ha

theorem later_next (ha : s.view.ahead.kind ≠ .eof) : s.Later s.next := by
  refine ⟨rfl, Nat.le_succ _, ?_, rfl⟩
  have hlt := length_next ha
  rw [length_view, length_view] at hlt
  show s.current + 1 ≤ s.stopIndex
  omega

end Walker

namespace Walk

variable {α β : Type} {s s' : Walker}

theorem bind_apply (p : Walk α) (f : α → Walk β) (s : Walker) :
    (p >>= f) s = match p s with
      | some (.ok a, s') => f a s'
      | some (.error e, s') => some (.error e, s')
      | none => none := by
  show ExceptT.bind p f s = _
  unfold ExceptT.bind ExceptT.mk ExceptT.bindCont
  show Option.bind (p s) _ = _
  cases p s with
  | none => rfl
  | some result =>
    obtain ⟨a | e, s'⟩ := result <;> rfl

theorem bind_of_ok {p : Walk α} {f : α → Walk β} {a : α} (h : p s = some (.ok a, s')) :
    (p >>= f) s = f a s' := by
  rw [bind_apply, h]

theorem peek_apply (hs : s.Stands) : peek s = some (.ok s.view.ahead, s) := by
  have hmin : min s.current (s.tokens.size - 1) = s.current :=
    Nat.min_eq_left (Nat.le_sub_one_of_lt (Walker.current_lt_size hs))
  show (s.tokens[min s.current (s.tokens.size - 1)]?.map fun t => _) = _
  rw [hmin, Walker.getElem?_current hs]
  rfl

theorem exists_previous (hs : s.Stands) : ∃ t, previous s = some (.ok t, s) := by
  have hlt := Nat.lt_of_le_of_lt (Nat.sub_le s.current 1) (Walker.current_lt_size hs)
  refine ⟨s.tokens[s.current - 1], ?_⟩
  show (s.tokens[s.current - 1]?.map fun t => _) = _
  rw [Array.getElem?_eq_getElem hlt]
  rfl

theorem previous_next (hs : s.Stands) : previous s.next = some (.ok s.view.ahead, s.next) := by
  show (s.tokens[s.current + 1 - 1]?.map fun t => _) = _
  rw [Nat.add_sub_cancel, Walker.getElem?_current hs]
  rfl

theorem take_apply (hs : s.Stands) (ha : s.view.ahead.kind ≠ .eof) :
    take s = some (.ok s.view.ahead, s.next) := by
  unfold take
  rw [bind_of_ok (peek_apply hs), if_pos ha]
  exact previous_next hs

/-- The token that ends the list is never taken. -/
theorem take_stop (hs : s.Stands) (ha : s.view.ahead.kind = .eof) :
    ∃ t, take s = some (.ok t, s) := by
  obtain ⟨t, ht⟩ := exists_previous hs
  refine ⟨t, ?_⟩
  unfold take
  rw [bind_of_ok (peek_apply hs), if_neg (not_not.mpr ha)]
  exact ht

/-- The two ways of `if` go on in one way. -/
theorem ite_bind (c : Prop) [Decidable c] (p q : Walk α) (f : α → Walk β) :
    (if c then p >>= f else q >>= f) = (if c then p else q) >>= f := by
  split <;> rfl

variable {kind : Kind}

theorem skip_of_eq (hs : s.Stands) (ha : s.view.ahead.kind ≠ .eof)
    (h : s.view.ahead.kind = kind) : skip kind s = some (.ok true, s.next) := by
  unfold skip
  rw [bind_of_ok (peek_apply hs), if_pos h, bind_of_ok (take_apply hs ha)]
  rfl

theorem skip_of_ne (hs : s.Stands) (h : s.view.ahead.kind ≠ kind) :
    skip kind s = some (.ok false, s) := by
  unfold skip
  rw [bind_of_ok (peek_apply hs), if_neg h]
  rfl

/-! ## Walks and readings -/

/-- Two ends in the same result, where the walker sees what the reader has left. -/
inductive Ends (s : Walker) :
    Option (Except ParseError α × Walker) → EStateM.Result ParseError Reading α → Prop
  | ok {a : α} {s' : Walker} : s.Later s' → Ends s (some (.ok a, s')) (.ok a s'.view)
  | error {e : ParseError} {s' : Walker} :
      s.Later s' → Ends s (some (.error e, s')) (.error e s'.view)

theorem Ends.trans {x : Option (Except ParseError α × Walker)}
    {y : EStateM.Result ParseError Reading α} (h : s.Later s') (k : Ends s' x y) : Ends s x y := by
  cases k with
  | ok hl => exact .ok (h.trans hl)
  | error hl => exact .error (h.trans hl)

/-- Whether `p` follows the reader `q` wherever no more than `n` tokens are left and `P` holds. -/
def Tracks (P : Walker → Prop) (n : Nat) (p : Walk α) (q : Parser α) : Prop :=
  ∀ s : Walker, s.Stands → s.view.rest.length ≤ n → P s → Ends s (p s) (q s.view)

/-- No condition on the place of a walker. -/
def Anywhere : Walker → Prop := fun _ => True

/-- In front of the token. -/
def Ahead (t : Token) : Walker → Prop := fun s => s.view.ahead = t

/-- Behind the token. -/
def Behind (t : Token) : Walker → Prop := fun s => previous s = some (.ok t, s)

namespace Tracks

variable {P : Walker → Prop} {m n : Nat} {p p' : Walk α} {q q' : Parser α} {f : α → Walk β}
  {g : α → Parser β} {t : Token}

theorem mono (h : Tracks P n p q) (hmn : m ≤ n) : Tracks P m p q :=
  fun s hs hlen hP => h s hs (Nat.le_trans hlen hmn) hP

theorem anywhere (h : Tracks Anywhere n p q) : Tracks P n p q :=
  fun s hs hlen _ => h s hs hlen trivial

theorem pure (a : α) : Tracks P n (pure a) (pure a) :=
  fun _ hs _ _ => .ok (.refl hs)

theorem throw (e : ParseError) : Tracks P n (throw e : Walk α) (throw e : Parser α) :=
  fun _ hs _ _ => .error (.refl hs)

theorem bind (hp : Tracks P n p q) (hf : ∀ a, Tracks Anywhere n (f a) (g a)) :
    Tracks P n (p >>= f) (q >>= g) := by
  intro s hs hlen hP
  have h := hp s hs hlen hP
  rw [bind_apply, Parser.bind_apply]
  generalize p s = x at h ⊢
  generalize q s.view = y at h ⊢
  cases h with
  | ok hl => exact (hf _ _ (hl.stands hs) (Nat.le_trans hl.length_le hlen) trivial).trans hl
  | error hl => exact .error hl

/-- Behind what takes a token there is at least one token less. -/
theorem bindTakes (hp : Tracks P n p q) (htakes : ∀ s, P s → Parser.Takes s.view q)
    (hf : ∀ a m, m < n → Tracks Anywhere m (f a) (g a)) :
    Tracks P n (p >>= f) (q >>= g) := by
  intro s hs hlen hP
  have h := hp s hs hlen hP
  rw [bind_apply, Parser.bind_apply]
  generalize p s = x at h ⊢
  generalize hy : q s.view = y at h ⊢
  cases h with
  | ok hl =>
    have hlt := htakes s hP _ _ hy
    exact (hf _ _ (by omega) _ (hl.stands hs) (Nat.le_refl _) trivial).trans hl
  | error hl => exact .error hl

theorem map {γ : Type} {h : α → γ} (hp : Tracks P n p q) : Tracks P n (h <$> p) (h <$> q) :=
  bind (f := fun a => Pure.pure (h a)) (g := fun a => Pure.pure (h a)) hp fun a => pure (h a)

theorem ite {c : Prop} [Decidable c] (hp : c → Tracks P n p q) (hp' : ¬c → Tracks P n p' q') :
    Tracks P n (if c then p else p') (if c then q else q') := by
  split
  · next hc => exact hp hc
  · next hc => exact hp' hc

/-- Looking at the token ahead. -/
theorem peek {f : Token → Walk β} {g : Token → Parser β}
    (h : ∀ t, Tracks (Ahead t) n (f t) (g t)) :
    Tracks P n (peek >>= f) (Parser.peek >>= g) := by
  intro s hs hlen hP
  rw [bind_of_ok (peek_apply hs), Parser.bind_of_ok (Parser.peek_apply _)]
  exact h _ s hs hlen rfl

/-- Looking at the token ahead where it ends the list. -/
theorem peekStop {f : Token → Walk α} (h : ∀ t, t.kind = .eof → Tracks Anywhere 0 (f t) q) :
    Tracks P 0 (Walk.peek >>= f) q := by
  intro s hs hlen _
  rw [bind_of_ok (peek_apply hs)]
  refine h _ ?_ s hs hlen trivial
  rw [Walker.ahead_of_length_le_zero hlen, s.kind_stop_view]

/-- Taking the token ahead leaves one token less. -/
theorem take {f : Token → Walk β} {g : Token → Parser β} (ht : t.kind ≠ .eof)
    (h : ∀ m, m < n → Tracks (Behind t) m (f t) (g t)) :
    Tracks (Ahead t) n (take >>= f) (Parser.take >>= g) := by
  intro s hs hlen hP
  obtain rfl : s.view.ahead = t := hP
  have hl := Walker.later_next ht
  have hlt := Walker.length_next ht
  rw [bind_of_ok (take_apply hs ht), Parser.bind_of_ok (Parser.take_apply _), ← Walker.next_view]
  exact (h _ (by omega) _ (hl.stands hs) (Nat.le_refl _) (previous_next hs)).trans hl

/-- Looking back at the token that was taken. -/
theorem previous {f : Token → Walk β} {q : Parser β} (h : Tracks (Behind t) n (f t) q) :
    Tracks (Behind t) n (previous >>= f) q := by
  intro s hs hlen hP
  rw [bind_of_ok hP]
  exact h s hs hlen hP

theorem report (t : Token) (fault : ParseFault) :
    Tracks P n (report t fault) (Parser.report t fault) := by
  intro s hs _ _
  exact Ends.ok (a := ()) (s.later_record hs ⟨t, fault⟩)

theorem missingExpression :
    Tracks P n (missingExpression : Walk α) (Parser.missingExpression : Parser α) :=
  peek fun _ => throw _

theorem limit (count : Nat) (fault : ParseFault) :
    Tracks P n (limit count fault) (Parser.limit count fault) :=
  ite (fun _ => peek fun t => report t fault) fun _ => pure ()

theorem expect (what : Missing) : Tracks P n (expect what) (Parser.expect what) := by
  have hne : what.kind ≠ .eof := by cases what <;> decide
  refine peek fun t => ite (fun ht => ?_) fun _ => throw _
  rw [← bind_pure Walk.take, ← bind_pure Parser.take]
  exact take (ht ▸ hne) fun _ _ => pure t

variable {kind : Kind} (hk : kind ≠ .eof)
include hk

theorem skip {f : Bool → Walk β} {g : Bool → Parser β}
    (ht : ∀ m, m < n → Tracks Anywhere m (f true) (g true))
    (hf : Tracks Anywhere n (f false) (g false)) :
    Tracks P n (skip kind >>= f) (Parser.skip kind >>= g) := by
  intro s hs hlen _
  by_cases h : s.view.ahead.kind = kind
  · have hne : s.view.ahead.kind ≠ .eof := h ▸ hk
    have hl := Walker.later_next hne
    have hlt := Walker.length_next hne
    rw [bind_of_ok (skip_of_eq hs hne h), Parser.bind_of_ok (Parser.skip_of_eq h),
      ← Walker.next_view]
    exact (ht _ (by omega) _ (hl.stands hs) (Nat.le_refl _) trivial).trans hl
  · rw [bind_of_ok (skip_of_ne hs h), Parser.bind_of_ok (Parser.skip_of_ne h)]
    exact hf s hs hlen trivial

/-- An optional phrase behind a token of its own. -/
theorem skipOptional {γ : Type} {f : Option α → Walk γ}
    {g : Option α → Parser γ} (hp : Tracks Anywhere n p q)
    (hf : ∀ a, Tracks Anywhere n (f a) (g a)) :
    Tracks P n
      (Walk.skip kind >>= fun given => (if given then some <$> p else Pure.pure none) >>= f)
      (Parser.skip kind >>= fun given => (if given then some <$> q else Pure.pure none) >>= g) := by
  have hrest : ∀ (given : Bool) m, m ≤ n → Tracks Anywhere m
      ((if given then some <$> p else Pure.pure none) >>= f)
      ((if given then some <$> q else Pure.pure none) >>= g) := fun given m hm =>
    bind (ite (fun _ => map (hp.mono hm)) fun _ => pure _) fun a => (hf a).mono hm
  exact skip hk (fun m hm => hrest true m (Nat.le_of_lt hm)) (hrest false n (Nat.le_refl n))

/-- Where no token is left there is nothing to skip. -/
theorem skip_stop {f : Bool → Walk β} {q : Parser β} (hf : Tracks Anywhere 0 (f false) q) :
    Tracks P 0 (Walk.skip kind >>= f) q := by
  intro s hs hlen _
  have hne : s.view.ahead.kind ≠ kind := by
    rw [Walker.ahead_of_length_le_zero hlen, s.kind_stop_view]
    exact hk.symm
  rw [bind_of_ok (skip_of_ne hs hne)]
  exact hf s hs hlen trivial

end Tracks

/-! ## Where the tokens end -/

/-- Whether the walk misses an expression if only the token that ends the list is left. -/
def Fails (p : Walk α) : Prop :=
  ∀ s : Walker, s.Stands → s.view.ahead.kind = .eof →
    p s = some (.error ⟨s.view.ahead, .missingExpression⟩, s)

namespace Fails

variable {p : Walk α}

theorem tracks (h : Fails p) : Tracks Anywhere 0 p Parser.missingExpression := by
  intro s hs hlen _
  have hstop : s.view.ahead.kind = .eof := by
    rw [Walker.ahead_of_length_le_zero hlen, s.kind_stop_view]
  rw [h s hs hstop]
  exact .error (.refl hs)

theorem bind {f : α → Walk β} (h : Fails p) : Fails (p >>= f) := by
  intro s hs ha
  rw [bind_apply, h s hs ha]

theorem peek {f : Token → Walk β} (h : ∀ t, t.kind = .eof → Fails (f t)) :
    Fails (peek >>= f) := by
  intro s hs ha
  rw [bind_of_ok (peek_apply hs)]
  exact h _ ha s hs ha

theorem missingExpression : Fails (missingExpression : Walk α) := by
  intro s hs _
  unfold Walk.missingExpression
  rw [bind_of_ok (peek_apply hs)]
  rfl

end Fails

theorem fails_primary : Fails Rule.primary.walk := by
  rw [Rule.walk]
  refine .peek fun t ht => ?_
  have hv : t.literal? = none := literal_eq_none (by rw [ht]; decide)
  simp only [hv, ht]
  exact .missingExpression

theorem fails_unary : Fails Rule.unary.walk := by
  rw [Rule.walk]
  refine .peek fun t ht => ?_
  rw [ht, if_neg (by decide)]
  exact fails_primary.bind

theorem fails_operators (levels : List Level) : Fails (Rule.operators levels).walk := by
  induction levels with
  | nil =>
    rw [Rule.walk]
    exact fails_unary
  | cons level tighter ih =>
    rw [Rule.walk]
    exact ih.bind

theorem fails_assignment : Fails Rule.assignment.walk := by
  rw [Rule.walk]
  exact (fails_operators _).bind

theorem fails_expressionStatement : Fails Rule.expressionStatement.walk := by
  rw [Rule.walk]
  exact fails_assignment.bind

theorem fails_statement : Fails Rule.statement.walk := by
  rw [Rule.walk]
  refine .peek fun t ht => ?_
  simp only [ht]
  exact fails_expressionStatement

theorem fails_declarationOrFault : Fails Rule.declarationOrFault.walk := by
  rw [Rule.walk]
  refine .peek fun t ht => ?_
  simp only [ht]
  exact fails_statement

/-! ## Expressions -/

theorem ne_eof_of_literal {t : Token} {v : Value} (h : t.literal? = some v) : t.kind ≠ .eof := by
  intro heof
  have hnone : t.literal? = none := literal_eq_none (by rw [heof]; decide)
  rw [h] at hnone
  exact Option.some_ne_none _ hnone

section Expressions

variable {n : Nat} (he : Tracks Anywhere n Rule.assignment.walk (Parser.assignment n))
include he

theorem tracks_arguments {j k : Nat} (hkj : k ≤ j) (hk : k ≤ n) (count : Nat) :
    Tracks Anywhere k (Rule.arguments count).walk
      (Parser.arguments (Parser.assignment n) j count) := by
  induction j generalizing k count with
  | zero =>
    obtain rfl : k = 0 := Nat.le_zero.mp hkj
    rw [Rule.walk]
    refine .bind (.limit _ _) fun _ => .bind (he.mono hk) fun first => ?_
    exact .skip_stop (by decide) (.pure _)
  | succ j ih =>
    rw [Rule.walk, Parser.arguments_succ]
    refine .bind (.limit _ _) fun _ => .bind (he.mono hk) fun first => ?_
    refine .skip (by decide) (fun m hm => ?_) (.pure _)
    exact .bind (ih (by omega) (by omega) _) fun others => .pure _

theorem tracks_argumentList {k : Nat} (hk : k ≤ n) :
    Tracks Anywhere k Rule.argumentList.walk
      (Parser.argumentList (n + 1) (Parser.assignment n)) := by
  rw [Rule.walk]
  refine .peek fun t => .ite (fun _ => .pure _) fun _ => ?_
  exact (tracks_arguments he (by omega) hk 0).anywhere

theorem tracks_calls {j k : Nat} (hkj : k ≤ j) (hk : k ≤ n + 1) (callee : Expr) :
    Tracks Anywhere k (Rule.calls callee).walk
      (Parser.calls (n + 1) (Parser.assignment n) j callee) := by
  induction j generalizing k callee with
  | zero =>
    obtain rfl : k = 0 := Nat.le_zero.mp hkj
    rw [Rule.walk]
    exact .skip_stop (by decide) (.pure _)
  | succ j ih =>
    rw [Rule.walk, Parser.calls_succ]
    refine .skip (by decide) (fun m hm => ?_) (.pure _)
    refine .bind (tracks_argumentList he (by omega)) fun given => ?_
    exact .bind (.expect _) fun paren => ih (by omega) (by omega) _

theorem tracks_primary :
    Tracks Anywhere (n + 1) Rule.primary.walk (Parser.primary (Parser.assignment n)) := by
  rw [Rule.walk]
  unfold Parser.primary
  refine .peek fun t => ?_
  cases hv : t.literal? with
  | some v => exact .take (ne_eof_of_literal hv) fun _ _ => .pure _
  | none =>
    by_cases hx : t.kind = .identifier
    · simp only [hx]
      exact .take (by rw [hx]; decide) fun _ _ => .pure _
    by_cases hl : t.kind = .leftParen
    · simp only [hl]
      refine .take (by rw [hl]; decide) fun m hm => ?_
      exact .bind (he.mono (by omega)).anywhere fun e => .bind (.expect _) fun _ => .pure _
    · simp only
      exact .missingExpression

theorem tracks_unary {j k : Nat} (hkj : k ≤ j) (hk : k ≤ n + 1) :
    Tracks Anywhere k Rule.unary.walk (Parser.unary (n + 1) (Parser.assignment n) j) := by
  induction j generalizing k with
  | zero =>
    obtain rfl : k = 0 := Nat.le_zero.mp hkj
    exact fails_unary.tracks
  | succ j ih =>
    rw [Rule.walk, Parser.unary_succ]
    refine .peek fun t => .ite (fun ht => ?_) fun _ => ?_
    · have hne : t.kind ≠ .eof := by rcases ht with ht | ht <;> rw [ht] <;> decide
      refine .take hne fun m hm => ?_
      exact .bind (ih (by omega) (by omega)).anywhere fun e => .pure _
    · refine .bind ((tracks_primary he).mono hk).anywhere fun callee => ?_
      exact tracks_calls he hk hk callee

end Expressions

section Operators

variable {n : Nat} {operand : Parser Expr}

theorem tracks_operations {tighter : List Level} (level : Level)
    (ho : Tracks Anywhere n (Rule.operators tighter).walk operand) {j k : Nat} (hkj : k ≤ j)
    (hk : k ≤ n) (left : Expr) :
    Tracks Anywhere k (Rule.operations level tighter left).walk
      (Parser.operations level operand j left) := by
  induction j generalizing k left with
  | zero =>
    obtain rfl : k = 0 := Nat.le_zero.mp hkj
    rw [Rule.walk]
    refine .peekStop fun t ht => ?_
    have hnot : ¬level.operators.contains t.kind = true := by
      rw [ht]
      cases level <;> decide
    rw [if_neg hnot]
    exact .pure _
  | succ j ih =>
    rw [Rule.walk, Parser.operations_succ]
    refine .peek fun t => .ite (fun ht => ?_) fun _ => .pure _
    have hne : t.kind ≠ .eof :=
      Parser.ne_eof_of_mem_operators (List.contains_iff_mem.mp ht)
    refine .take hne fun m hm => .bind (ho.mono (by omega)).anywhere fun right => ?_
    exact ih (by omega) (by omega) _

theorem tracks_operators (ho : Tracks Anywhere n Rule.unary.walk operand) (levels : List Level) :
    Tracks Anywhere n (Rule.operators levels).walk (Parser.operators n operand levels) := by
  induction levels with
  | nil =>
    rw [Rule.walk]
    exact ho
  | cons level tighter ih =>
    rw [Rule.walk]
    exact .bind ih fun left => tracks_operations level ih (Nat.le_refl n) (Nat.le_refl n) left

end Operators

theorem tracks_assignment (n : Nat) :
    Tracks Anywhere n Rule.assignment.walk (Parser.assignment n) := by
  induction n with
  | zero => exact fails_assignment.tracks
  | succ n ih =>
    rw [Rule.walk]
    unfold Parser.assignment
    have hunary := tracks_unary ih (Nat.le_refl (n + 1)) (Nat.le_refl (n + 1))
    refine .bind (tracks_operators hunary Level.all) fun target => ?_
    refine .peek fun t => .ite (fun ht => ?_) fun _ => .pure _
    refine .take (by rw [ht]; decide) fun m hm => ?_
    refine .bind (ih.mono (by omega)).anywhere fun value => ?_
    cases target with
    | «variable» x => exact .pure _
    | literal _ | grouping _ | unary _ _ | binary _ _ _ | logical _ _ _ | assign _ _ | call _ _ _ =>
      exact .bind (.report t _) fun _ => .pure _

end Walk

end Lox
