import Lox.Proofs.Grammar.Walking

/-!
Every walk ends.

A reader of statements is given a bound, and the walk of the same rule follows it as long as no more
tokens are left than that.  As there are only so many tokens, some bound is enough, and the walk,
which has none, gives a result.
-/

namespace Lox

open Grammar

namespace Walk

variable {P : Walker → Prop} {n : Nat}

/-! ## Parts of statements -/

theorem tracks_expressionStatement (n : Nat) :
    Tracks Anywhere n Rule.expressionStatement.walk (Parser.expressionStatement n) := by
  rw [Rule.walk]
  exact .bind (tracks_assignment n) fun _ => .bind (.expect _) fun _ => .pure _

/-- An optional expression. -/
theorem tracks_optional {c : Prop} [Decidable c] (n : Nat) :
    Tracks P n (if c then pure none else some <$> Rule.assignment.walk)
      (if c then pure none else some <$> Parser.assignment n) :=
  .ite (fun _ => .pure _) fun _ => .map (tracks_assignment n).anywhere

theorem tracks_variableDeclaration (n : Nat) :
    Tracks Anywhere n Rule.variableDeclaration.walk (Parser.variableDeclaration n) := by
  rw [Rule.walk, Parser.variableDeclaration_eq]
  simp only [ite_bind]
  refine .bind (.expect _) fun name => .skipOptional (by decide) (tracks_assignment n) fun e => ?_
  exact .bind (.expect _) fun _ => .pure _

theorem tracks_parameters {j k : Nat} (hkj : k ≤ j) (count : Nat) :
    Tracks Anywhere k (Rule.parameters count).walk (Parser.parameters j count) := by
  induction j generalizing k count with
  | zero =>
    obtain rfl : k = 0 := Nat.le_zero.mp hkj
    rw [Rule.walk]
    refine .bind (.limit _ _) fun _ => .bind (.expect _) fun first => ?_
    exact .skip_stop (by decide) (.pure _)
  | succ j ih =>
    rw [Rule.walk]
    refine .bind (.limit _ _) fun _ => .bind (.expect _) fun first => ?_
    refine .skip (by decide) (fun m hm => ?_) (.pure _)
    exact .bind (ih (by omega) _) fun others => .pure _

theorem tracks_parameterList (n : Nat) :
    Tracks Anywhere n Rule.parameterList.walk (Parser.parameterList n) := by
  rw [Rule.walk]
  refine .peek fun _ => .ite (fun _ => .pure _) fun _ => ?_
  exact (tracks_parameters (Nat.le_refl n) 0).anywhere

theorem tracks_initializer (n : Nat) :
    Tracks Anywhere n Rule.initializer.walk (Parser.initializer n) := by
  rw [Rule.walk]
  unfold Parser.initializer
  refine .peek fun t => ?_
  by_cases hsemi : t.kind = .semicolon
  · simp only [hsemi]
    exact .take (by rw [hsemi]; decide) fun _ _ => .pure _
  by_cases hvar : t.kind = .kwVar
  · simp only [hvar]
    refine .take (by rw [hvar]; decide) fun m hm => .map ?_
    exact ((tracks_variableDeclaration n).mono (Nat.le_of_lt hm)).anywhere
  · simp only
    exact .map (tracks_expressionStatement n).anywhere

theorem tracks_print (n : Nat) (keyword : Token) :
    Tracks (Behind keyword) n Rule.print.walk (Parser.print n keyword) := by
  rw [Rule.walk]
  refine .previous <| .bind (tracks_assignment n).anywhere fun _ => ?_
  exact .bind (.expect _) fun _ => .pure _

theorem tracks_checkReturn (keyword : Token) :
    Tracks P n (checkReturn keyword) (Parser.checkReturn keyword) := by
  intro s hs hlen hP
  have hite : Tracks P n
      (if s.depth = 0 then report keyword .topLevelReturn else pure ())
      (if s.depth = 0 then Parser.report keyword .topLevelReturn else pure ()) :=
    .ite (fun _ => .report _ _) fun _ => .pure _
  exact hite s hs hlen hP

theorem tracks_ret (n : Nat) (keyword : Token) :
    Tracks (Behind keyword) n Rule.ret.walk (Parser.ret n keyword) := by
  rw [Rule.walk, Parser.ret_eq]
  simp only [ite_bind]
  refine .previous <| .bind (tracks_checkReturn keyword) fun _ => .peek fun t => ?_
  exact .bind (tracks_optional n) fun e => .bind (.expect _) fun _ => .pure _

/-! ## Statements -/

section Statements

variable {inner : Parser Stmt} (hst : Tracks Anywhere n Rule.statement.walk inner)
include hst

/-- Behind a keyword there is one token less than what bounds the expressions. -/
theorem tracks_branch : Tracks Anywhere n Rule.branch.walk (Parser.branch (n + 1) inner) := by
  rw [Rule.walk, Parser.branch_eq]
  simp only [ite_bind]
  have hc := (tracks_assignment (n + 1)).mono (Nat.le_succ n)
  refine .bind (.expect _) fun _ => .bind hc fun c => .bind (.expect _) fun _ => ?_
  exact .bind hst fun s => .skipOptional (by decide) hst fun t => .pure _

theorem tracks_whileLoop :
    Tracks Anywhere n Rule.whileLoop.walk (Parser.whileLoop (n + 1) inner) := by
  rw [Rule.walk]
  have hc := (tracks_assignment (n + 1)).mono (Nat.le_succ n)
  refine .bind (.expect _) fun _ => .bind hc fun c => .bind (.expect _) fun _ => ?_
  exact .bind hst fun s => .pure _

theorem tracks_forLoop : Tracks Anywhere n Rule.forLoop.walk (Parser.forLoop (n + 1) inner) := by
  rw [Rule.walk, Parser.forLoop_eq]
  simp only [ite_bind]
  have hi := (tracks_initializer (n + 1)).mono (Nat.le_succ n)
  have hc := (tracks_assignment (n + 1)).mono (Nat.le_succ n)
  refine .bind (.expect _) fun _ => .bind hi fun i => .peek fun t => ?_
  refine .bind (.ite (fun _ => .pure _) fun _ => hc.anywhere) fun c => ?_
  refine .bind (.expect _) fun _ => .peek fun t => ?_
  refine .bind ((tracks_optional (n + 1)).mono (Nat.le_succ n)) fun e => ?_
  exact .bind (.expect _) fun _ => .bind hst fun s => .pure _

end Statements

/-! ## Recovery -/

theorem resume_apply {s : Walker} {t : Token} (hs : s.Stands) (ht : Behind t s) :
    ∃ s', Rule.resume.walk s = some (.ok (), s') ∧ s.Later s' ∧
      s'.view = s.view.after (Parser.resume t s.view.rest) := by
  induction hn : s.view.rest.length using Nat.strongRecOn generalizing s t with
  | ind n ih =>
    rw [Rule.walk, bind_of_ok (peek_apply hs)]
    by_cases hstop : s.view.ahead.kind = .eof
    · have hrest := s.rest_eq_nil hstop
      rw [if_pos hstop]
      refine ⟨s, rfl, .refl hs, ?_⟩
      rw [hrest, Parser.resume, ← hrest]
      rfl
    have hrest := Reading.rest_eq_ahead_cons s.kind_stop_view hstop
    have hl := Walker.later_next hstop
    rw [if_neg hstop, bind_of_ok ht, hrest, Parser.resume]
    by_cases hsemi : t.kind = .semicolon
    · rw [if_pos hsemi, if_pos (by simp [hsemi]), ← hrest]
      exact ⟨s, rfl, .refl hs, rfl⟩
    rw [if_neg hsemi, bind_of_ok (peek_apply hs)]
    by_cases hkeyword : s.view.ahead.kind.startsStatement = true
    · rw [if_pos hkeyword, if_pos (by simp [hkeyword]), ← hrest]
      exact ⟨s, rfl, .refl hs, rfl⟩
    rw [if_neg hkeyword, if_neg (by simp [hsemi, hkeyword]), bind_of_ok (take_apply hs hstop)]
    obtain ⟨s', hrun, hl', hview⟩ := ih _ (hn ▸ Walker.length_next hstop) (hl.stands hs)
      (previous_next hs) rfl
    refine ⟨s', hrun, hl.trans hl', ?_⟩
    rw [hview, Walker.next_view]
    rfl

/-- The token ahead is always given up, unless it is the one that ends the list. -/
theorem synchronize_apply {s : Walker} (hs : s.Stands) :
    ∃ s', Rule.synchronize.walk s = some (.ok (), s') ∧ s.Later s' ∧
      s'.view = s.view.after (Parser.dropToBoundary s.view.rest) := by
  rw [Rule.walk]
  by_cases hstop : s.view.ahead.kind = .eof
  · obtain ⟨t, ht⟩ := take_stop hs hstop
    obtain ⟨u, hu⟩ := exists_previous hs
    rw [bind_of_ok ht]
    have h := resume_apply hs hu
    rwa [s.rest_eq_nil hstop] at h ⊢
  · have hl := Walker.later_next hstop
    obtain ⟨s', hrun, hl', hview⟩ := resume_apply (hl.stands hs) (previous_next hs)
    rw [bind_of_ok (take_apply hs hstop)]
    refine ⟨s', hrun, hl.trans hl', ?_⟩
    rw [hview, Walker.next_view, Reading.rest_eq_ahead_cons s.kind_stop_view hstop]
    rfl

theorem tracks_declaration {q : Parser Stmt}
    (h : Tracks Anywhere n Rule.declarationOrFault.walk q) :
    Tracks Anywhere n Rule.declaration.walk (Parser.recovering q) := by
  intro s hs hlen hP
  have hends := h s hs hlen hP
  rw [Rule.walk]
  unfold Parser.recovering
  show Ends s (Option.bind (Rule.declarationOrFault.walk s) _) _
  generalize Rule.declarationOrFault.walk s = x at hends ⊢
  generalize q s.view = y at hends ⊢
  cases hends with
  | ok hl => exact .ok hl
  | @error e s₁ hl =>
    have hrecord := s₁.later_record (hl.stands hs) e
    obtain ⟨s', hrun, hl', hview⟩ := synchronize_apply (hrecord.stands (hl.stands hs))
    show Ends s (Option.bind (Rule.synchronize.walk (s₁.record e)) _)
      (.ok none ((s₁.record e).view.after (Parser.dropToBoundary (s₁.record e).view.rest)))
    rw [hrun, ← hview]
    exact .ok (hl.trans (hrecord.trans hl'))

/-! ## Declarations -/

theorem tracks_functionBody {q : Parser (List Stmt)} (h : Tracks Anywhere n Rule.block.walk q) :
    Tracks Anywhere n Rule.functionBody.walk (Parser.insideFunction q) := by
  intro s hs hlen _
  have hends := h { s with depth := s.depth + 1 } ⟨hs.ends, hs.within⟩ hlen trivial
  -- Inside the body the depth is one more, and behind it that one is taken away again.
  have hback : ∀ s' : Walker, Walker.Later { s with depth := s.depth + 1 } s' →
      s.Later { s' with depth := s'.depth - 1 } ∧
      { s'.view with depth := s.view.depth } = Walker.view { s' with depth := s'.depth - 1 } := by
    intro s' hl
    have hdepth : s'.depth - 1 = s.depth := by
      rw [hl.depth, Nat.add_sub_cancel]
    refine ⟨⟨hl.tokens, hl.forward, hl.within, hdepth⟩, ?_⟩
    rw [hdepth]
    rfl
  rw [Rule.walk]
  unfold Parser.insideFunction
  show Ends s (Option.bind (Rule.block.walk { s with depth := s.depth + 1 }) _) _
  change Ends _ _ (q { s.view with depth := s.view.depth + 1 }) at hends
  generalize Rule.block.walk { s with depth := s.depth + 1 } = x at hends ⊢
  generalize q { s.view with depth := s.view.depth + 1 } = y at hends ⊢
  cases hends with
  | @ok a s' hl =>
    show Ends s (some (.ok a, { s' with depth := s'.depth - 1 })) _
    dsimp only
    rw [(hback s' hl).2]
    exact .ok (hback s' hl).1
  | @error e s' hl =>
    show Ends s (some (.error e, { s' with depth := s'.depth - 1 })) _
    dsimp only
    rw [(hback s' hl).2]
    exact .error (hback s' hl).1

section Declarations

variable {k : Nat} (hd : Tracks Anywhere n Rule.declaration.walk (Parser.declaration k))
include hd

/-- Each round takes a token, so there are no more rounds than tokens. -/
theorem tracks_declarations {ends : Kind → Bool} (hends : ends .eof = true) {j m : Nat}
    (hmj : m ≤ j) (hmn : m ≤ n) :
    Tracks Anywhere m (Rule.declarations ends).walk
      (Parser.declarations ends (Parser.declaration k) j) := by
  induction j generalizing m with
  | zero =>
    obtain rfl : m = 0 := Nat.le_zero.mp hmj
    rw [Rule.walk]
    refine .peekStop fun t ht => ?_
    rw [ht, if_pos hends]
    exact .pure _
  | succ j ih =>
    rw [Rule.walk, Parser.declarations_succ]
    refine .peek fun t => .ite (fun _ => .pure _) fun hnot => ?_
    have ht : t.kind ≠ .eof := fun heof => hnot (heof ▸ hends)
    refine .bindTakes (hd.mono hmn).anywhere (fun s hs => ?_) fun first? l hl => ?_
    · refine Parser.takes_declaration k s.kind_stop_view fun hnil => ht ?_
      obtain rfl : s.view.ahead = t := hs
      rw [Reading.ahead, hnil, List.headD_nil, s.kind_stop_view]
    · exact .bind (ih (by omega) (by omega)) fun others => .pure _

theorem tracks_block {m : Nat} (hm : m ≤ n) :
    Tracks Anywhere m Rule.block.walk (Parser.block (n + 1) (Parser.declaration k)) := by
  rw [Rule.walk]
  exact .bind (tracks_declarations hd rfl (by omega) hm) fun _ => .bind (.expect _) fun _ => .pure _

theorem tracks_functionDeclaration :
    Tracks Anywhere n Rule.functionDeclaration.walk
      (Parser.functionDeclaration (n + 1) (Parser.declaration k)) := by
  rw [Rule.walk]
  refine .bind (.expect _) fun name => .bind (.expect _) fun _ => ?_
  refine .bind ((tracks_parameterList (n + 1)).mono (Nat.le_succ n)) fun xs => ?_
  refine .bind (.expect _) fun _ => .bind (.expect _) fun _ => ?_
  exact .bind (tracks_functionBody (tracks_block hd (Nat.le_refl n))) fun body => .pure _

variable {inner : Parser Stmt} (hst : Tracks Anywhere n Rule.statement.walk inner)
include hst

theorem tracks_statement :
    Tracks Anywhere (n + 1) Rule.statement.walk
      (Parser.statementOf (n + 1) inner (Parser.declaration k)) := by
  rw [Rule.walk]
  unfold Parser.statementOf
  refine .peek fun t => ?_
  by_cases hif : t.kind = .kwIf
  · simp only [hif]
    refine .take (by rw [hif]; decide) fun m hm => ?_
    exact ((tracks_branch hst).mono (by omega)).anywhere
  by_cases hprint : t.kind = .kwPrint
  · simp only [hprint]
    exact .take (by rw [hprint]; decide) fun m hm => (tracks_print (n + 1) t).mono (by omega)
  by_cases hret : t.kind = .kwReturn
  · simp only [hret]
    exact .take (by rw [hret]; decide) fun m hm => (tracks_ret (n + 1) t).mono (by omega)
  by_cases hblock : t.kind = .leftBrace
  · simp only [hblock]
    refine .take (by rw [hblock]; decide) fun m hm => ?_
    exact .bind (tracks_block hd (by omega)).anywhere fun body => .pure _
  by_cases hwhile : t.kind = .kwWhile
  · simp only [hwhile]
    refine .take (by rw [hwhile]; decide) fun m hm => ?_
    exact ((tracks_whileLoop hst).mono (by omega)).anywhere
  by_cases hfor : t.kind = .kwFor
  · simp only [hfor]
    refine .take (by rw [hfor]; decide) fun m hm => ?_
    exact ((tracks_forLoop hst).mono (by omega)).anywhere
  · simp only
    exact (tracks_expressionStatement (n + 1)).anywhere

theorem tracks_declarationOrFault :
    Tracks Anywhere (n + 1) Rule.declarationOrFault.walk
      (Parser.declarationOf (n + 1) inner (Parser.declaration k)) := by
  rw [Rule.walk]
  unfold Parser.declarationOf
  refine .peek fun t => ?_
  by_cases hvar : t.kind = .kwVar
  · simp only [hvar]
    refine .take (by rw [hvar]; decide) fun m hm => ?_
    exact ((tracks_variableDeclaration (n + 1)).mono (by omega)).anywhere
  by_cases hfun : t.kind = .kwFun
  · simp only [hfun]
    refine .take (by rw [hfun]; decide) fun m hm => ?_
    exact ((tracks_functionDeclaration hd).mono (by omega)).anywhere
  · simp only
    exact (tracks_statement hd hst).anywhere

end Declarations

theorem tracks_both (n : Nat) :
    Tracks Anywhere n Rule.statement.walk (Parser.statement n) ∧
      Tracks Anywhere n Rule.declaration.walk (Parser.declaration n) := by
  induction n with
  | zero => exact ⟨fails_statement.tracks, tracks_declaration fails_declarationOrFault.tracks⟩
  | succ n ih =>
    exact ⟨tracks_statement ih.2 ih.1, tracks_declaration (tracks_declarationOrFault ih.2 ih.1)⟩

/-! ## Programs -/

theorem stands_ofTokens {tokens : List Token} (hend : ∃ t ∈ tokens, t.kind = .eof) :
    (Walker.ofTokens tokens).Stands :=
  ⟨hend, Nat.zero_le _⟩

theorem parse_eq {tokens : List Token} (hend : ∃ t ∈ tokens, t.kind = .eof) :
    Walk.parse tokens = some (Lox.parse tokens) := by
  have htracks : Tracks Anywhere (body tokens).length (Rule.declarations (· == .eof)).walk _ :=
    tracks_declarations (tracks_both _).2 rfl (Nat.le_refl _) (Nat.le_refl _)
  have hends := htracks (.ofTokens tokens) (stands_ofTokens hend) (Nat.le_refl _) trivial
  obtain ⟨ss, s, hrun, hparse⟩ := Grammar.parse_eq tokens
  change Ends _ _ (program tokens (start tokens)) at hends
  rw [hrun] at hends
  rw [hparse]
  unfold Walk.parse ExceptT.run StateT.run
  generalize (Rule.declarations (· == .eof)).walk (.ofTokens tokens) = x at hends ⊢
  cases hends with
  | ok hl => rfl

/-- Whether the rule stops at the end of the tokens.  Only a list of declarations is told where to
end, and the kind that ends the tokens has to be among the kinds that end it. -/
def Rule.Stops {α : Type} : Rule α → Prop
  | declarations ends => ends .eof = true
  | _ => True

/-- Every routine of the parser. -/
inductive Routine : {α : Type} → Walk α → Prop
  | peek : Routine peek
  | previous : Routine previous
  | take : Routine take
  | skip (kind : Kind) : Routine (skip kind)
  | expect (what : Missing) : Routine (expect what)
  | report (t : Token) (fault : ParseFault) : Routine (report t fault)
  | limit (count : Nat) (fault : ParseFault) : Routine (limit count fault)
  | missingExpression {α : Type} : Routine (missingExpression : Walk α)
  | checkReturn (keyword : Token) : Routine (checkReturn keyword)
  | rule {α : Type} {r : Rule α} : r.Stops → Routine r.walk

/-- Whether the walk ends from the place and goes forward at most to the end of the list. -/
def Returns (s : Walker) {α : Type} (p : Walk α) : Prop :=
  ∃ result s', p s = some (result, s') ∧ s.Later s'

theorem Ends.returns {α : Type} {s : Walker} {p : Walk α} {y : EStateM.Result ParseError Reading α}
    (h : Ends s (p s) y) : Returns s p := by
  generalize hx : p s = x at h
  cases h with
  | ok hl => exact ⟨_, _, hx, hl⟩
  | error hl => exact ⟨_, _, hx, hl⟩

theorem Tracks.returns {α : Type} {s : Walker} {p : Walk α} {q : Parser α}
    (h : Tracks P s.view.rest.length p q) (hs : s.Stands) (hP : P s) : Returns s p :=
  (h s hs (Nat.le_refl _) hP).returns

theorem exists_take {s : Walker} (hs : s.Stands) :
    ∃ t s', take s = some (.ok t, s') ∧ s.Later s' := by
  by_cases hstop : s.view.ahead.kind = .eof
  · obtain ⟨t, ht⟩ := take_stop hs hstop
    exact ⟨t, s, ht, .refl hs⟩
  · exact ⟨_, _, take_apply hs hstop, Walker.later_next hstop⟩

theorem returns_skip {s : Walker} (hs : s.Stands) (kind : Kind) : Returns s (skip kind) := by
  by_cases h : s.view.ahead.kind = kind
  · obtain ⟨t, s', ht, hl⟩ := exists_take hs
    refine ⟨.ok true, s', ?_, hl⟩
    unfold skip
    rw [bind_of_ok (peek_apply hs), if_pos h, bind_of_ok ht]
    rfl
  · exact ⟨_, _, skip_of_ne hs h, .refl hs⟩

theorem Rule.returns {α : Type} {r : Rule α} (h : r.Stops) {s : Walker} (hs : s.Stands) :
    Returns s r.walk := by
  obtain ⟨t, ht⟩ := exists_previous hs
  have hassignment := tracks_assignment s.view.rest.length
  have hunary := tracks_unary hassignment (Nat.le_succ _) (Nat.le_succ _)
  obtain ⟨hstatement, hdeclaration⟩ := tracks_both s.view.rest.length
  cases r with
  | assignment => exact hassignment.returns hs trivial
  | operators levels => exact (tracks_operators hunary levels).returns hs trivial
  | operations level tighter left =>
    exact (tracks_operations level (tracks_operators hunary tighter) (Nat.le_refl _)
      (Nat.le_refl _) left).returns hs trivial
  | unary => exact hunary.returns hs trivial
  | calls callee =>
    exact (tracks_calls hassignment (Nat.le_refl _) (Nat.le_succ _) callee).returns hs trivial
  | argumentList => exact (tracks_argumentList hassignment (Nat.le_refl _)).returns hs trivial
  | arguments count =>
    exact (tracks_arguments hassignment (Nat.le_refl _) (Nat.le_refl _) count).returns hs trivial
  | primary => exact ((tracks_primary hassignment).mono (Nat.le_succ _)).returns hs trivial
  | expressionStatement => exact (tracks_expressionStatement _).returns hs trivial
  | variableDeclaration => exact (tracks_variableDeclaration _).returns hs trivial
  | parameterList => exact (tracks_parameterList _).returns hs trivial
  | parameters count => exact (tracks_parameters (Nat.le_refl _) count).returns hs trivial
  | initializer => exact (tracks_initializer _).returns hs trivial
  | statement => exact hstatement.returns hs trivial
  | print => exact (tracks_print _ t).returns hs ht
  | ret => exact (tracks_ret _ t).returns hs ht
  | branch => exact (tracks_branch hstatement).returns hs trivial
  | whileLoop => exact (tracks_whileLoop hstatement).returns hs trivial
  | forLoop => exact (tracks_forLoop hstatement).returns hs trivial
  | block => exact (tracks_block hdeclaration (Nat.le_refl _)).returns hs trivial
  | declarations ends =>
    exact (tracks_declarations hdeclaration h (Nat.le_refl _) (Nat.le_refl _)).returns hs trivial
  | declaration => exact hdeclaration.returns hs trivial
  | declarationOrFault =>
    exact ((tracks_declarationOrFault hdeclaration hstatement).mono (Nat.le_succ _)).returns hs
      trivial
  | functionDeclaration => exact (tracks_functionDeclaration hdeclaration).returns hs trivial
  | functionBody =>
    exact (tracks_functionBody (tracks_block hdeclaration (Nat.le_refl _))).returns hs trivial
  | synchronize =>
    obtain ⟨s', hrun, hl, -⟩ := synchronize_apply hs
    exact ⟨_, s', hrun, hl⟩
  | resume =>
    obtain ⟨s', hrun, hl, -⟩ := resume_apply hs ht
    exact ⟨_, s', hrun, hl⟩

theorem Routine.returns {α : Type} {p : Walk α} (h : Routine p) {s : Walker} (hs : s.Stands) :
    Returns s p := by
  cases h with
  | peek => exact ⟨_, _, peek_apply hs, .refl hs⟩
  | previous =>
    obtain ⟨t, ht⟩ := exists_previous hs
    exact ⟨_, _, ht, .refl hs⟩
  | take =>
    obtain ⟨t, s', ht, hl⟩ := exists_take hs
    exact ⟨_, s', ht, hl⟩
  | skip kind => exact returns_skip hs kind
  | expect what => exact (Tracks.expect what).returns (P := Anywhere) hs trivial
  | report t fault => exact (Tracks.report t fault).returns (P := Anywhere) hs trivial
  | limit count fault => exact (Tracks.limit count fault).returns (P := Anywhere) hs trivial
  | missingExpression => exact Tracks.missingExpression.returns (P := Anywhere) hs trivial
  | checkReturn keyword => exact (tracks_checkReturn keyword).returns (P := Anywhere) hs trivial
  | rule hstops => exact Rule.returns hstops hs

/-- A declaration never throws, and it goes forward if it can. -/
theorem declaration_forward {s : Walker} (hs : s.Stands) (hlt : s.current < s.stopIndex) :
    ∃ first? s', Rule.declaration.walk s = some (.ok first?, s') ∧ s.current < s'.current := by
  have hrest : s.view.rest ≠ [] := by
    rw [← List.length_pos_iff, Walker.length_view]
    omega
  have htakes := Parser.takes_declaration s.view.rest.length s.kind_stop_view hrest
  have hends := (tracks_both s.view.rest.length).2 s hs (Nat.le_refl _) trivial
  obtain ⟨first?, r, hread⟩ := Parser.declaration_returns s.view.rest.length s.view
  have hshorter := htakes _ _ hread
  rw [hread] at hends
  generalize hx : Rule.declaration.walk s = x at hends
  cases hends with
  | @ok _ s' hl =>
    refine ⟨first?, s', rfl, ?_⟩
    rw [Walker.length_view, Walker.length_view, Walker.stopIndex, hl.tokens] at hshorter
    rw [Walker.stopIndex] at hlt
    have hshorter : s.stopIndex - s'.current < s.stopIndex - s.current := hshorter
    omega

end Walk

/-- Parsing ends, with every index within the tokens: whatever routine of the parser starts in front
of the first token that ends the list, or there, gives a result, goes forward, and does not pass
that token.  A declaration that starts in front of it goes forward by at least one token, whether it
succeeds or a fault in it is recovered from.  So a program is read whatever the tokens are, and
what stands behind the first token that ends the list has no part in it. -/
theorem parsing_ends :
    (∀ {α : Type} {p : Walk α}, Walk.Routine p → ∀ s : Walker, s.Stands →
      ∃ result s', p s = some (result, s') ∧ s.Later s') ∧
    (∀ s : Walker, s.Stands → s.current < s.stopIndex →
      ∃ first? s', Walk.Rule.declaration.walk s = some (.ok first?, s') ∧ s.current < s'.current) ∧
    (∀ tokens : List Token, (∃ t ∈ tokens, t.kind = .eof) →
      (Walker.ofTokens tokens).Stands ∧ Walk.parse tokens = some (parse tokens)) ∧
    ∀ (ts others : List Token) (e e' : Token), (∀ t ∈ ts, t.kind ≠ .eof) → e.kind = .eof →
      e'.kind = .eof → Walk.parse (ts ++ [e] ++ others ++ [e']) = Walk.parse (ts ++ [e]) := by
  refine ⟨fun h s hs => h.returns hs, fun s hs hlt => Walk.declaration_forward hs hlt,
    fun tokens hend => ⟨Walk.stands_ofTokens hend, Walk.parse_eq hend⟩, ?_⟩
  intro ts others e e' hts he _
  have hmem : e ∈ ts ++ [e] := List.mem_append_right _ (List.mem_singleton_self e)
  have hshort := Walk.parse_eq ⟨e, hmem, he⟩
  have hlong := Walk.parse_eq
    ⟨e, List.mem_append_left [e'] (List.mem_append_left others hmem), he⟩
  rw [hlong, hshort, List.append_assoc, List.append_assoc, List.singleton_append,
    Grammar.parse_append hts he]

/-- A statement cannot start with `class`, and yet recovery may stop there, so it has to go past the
first token in any case. -/
theorem parsing_ends_class :
    let keyword : Token := ⟨.bare .kwClass, "class", 1, 1⟩
    let stop : Token := ⟨.bare .eof, "", 1, 6⟩
    let s := Walker.ofTokens [keyword, stop, keyword, stop]
    s.Stands ∧ s.current < s.stopIndex ∧
      (∃ result s', Walk.Rule.assignment.walk s = some (result, s') ∧ s.Later s') ∧
      (∃ first? s', Walk.Rule.declaration.walk s = some (.ok first?, s') ∧ s.current < s'.current) ∧
      Walk.parse [keyword, stop, keyword, stop] = Walk.parse [keyword, stop] := by
  intro keyword stop s
  obtain ⟨hroutines, hdeclarations, hprograms, hbehind⟩ := parsing_ends
  have hs : s.Stands := (hprograms _ ⟨stop, by simp, rfl⟩).1
  have hlt : s.current < s.stopIndex := by decide
  have hstops : Walk.Rule.assignment.Stops := trivial
  have hkeyword : ∀ t ∈ [keyword], t.kind ≠ .eof := by
    intro t ht
    rw [List.mem_singleton.mp ht]
    decide
  exact ⟨hs, hlt, hroutines (.rule hstops) s hs, hdeclarations s hs hlt,
    hbehind [keyword] [keyword] stop stop hkeyword rfl rfl⟩

end Lox
