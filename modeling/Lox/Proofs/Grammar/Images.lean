import Lox.Proofs.Grammar.Acceptance
import Lox.Proofs.Grammar.Relabeling

/-!
Reading relabeled tokens.

Reading looks at what a token is and never at its spelling or its place.  So from relabeled tokens
the relabeled trees are read, and the faults that are recorded on the way are blamed on the
relabeled tokens, through recovery and all.
-/

namespace Lox

variable {r : Relabeling}

def ParseError.relabel (r : Relabeling) (e : ParseError) : ParseError :=
  { e with token := r.token e.token }

/-- The state of reading relabeled tokens. -/
def Reading.relabel (r : Relabeling) (s : Reading) : Reading where
  rest := s.rest.map r.token
  stop := r.token s.stop
  depth := s.depth
  errors := s.errors.map (·.relabel r)

namespace Reading

theorem ahead_relabel (r : Relabeling) (s : Reading) :
    (s.relabel r).ahead = r.token s.ahead := by
  unfold ahead relabel
  cases s.rest <;> rfl

theorem next_relabel (r : Relabeling) (s : Reading) :
    (s.relabel r).next = s.next.relabel r := by
  unfold next relabel
  simp only [List.map_tail]

theorem record_relabel (r : Relabeling) (s : Reading) (e : ParseError) :
    (s.relabel r).record (e.relabel r) = (s.record e).relabel r := by
  unfold record relabel
  simp only [List.map_append, List.map_singleton]

end Reading

namespace Parser

variable {α β γ δ : Type} {f : α → β} {g : γ → δ}

/-- What a parser ends with on relabeled tokens, if `f` relabels its results. -/
def relabelResult (r : Relabeling) (f : α → β) :
    EStateM.Result ParseError Reading α → EStateM.Result ParseError Reading β
  | .ok a s => .ok (f a) (s.relabel r)
  | .error e s => .error (e.relabel r) (s.relabel r)

/-- Whether `q` does on relabeled tokens what `p` does. -/
def Image (r : Relabeling) (f : α → β) (p : Parser α) (q : Parser β) : Prop :=
  ∀ s, q (s.relabel r) = relabelResult r f (p s)

namespace Image

variable {p : Parser α} {q : Parser β} {k : α → Parser γ} {l : β → Parser δ}

theorem pure {a : α} {b : β} (h : b = f a) : Image r f (pure a) (pure b) := by
  subst h
  exact fun _ => rfl

theorem bind (hp : Image r f p q) (hk : ∀ a, Image r g (k a) (l (f a))) :
    Image r g (p >>= k) (q >>= l) := by
  intro s
  rw [bind_apply, bind_apply, hp s]
  cases p s with
  | ok a s' => exact hk a s'
  | error e s' => rfl

theorem map {h : α → γ} {h' : β → δ} (hp : Image r f p q) (hh : ∀ a, h' (f a) = g (h a)) :
    Image r g (h <$> p) (h' <$> q) :=
  bind (k := fun a => Pure.pure (h a)) (l := fun b => Pure.pure (h' b)) hp fun a => pure (hh a)

theorem ite {c d : Prop} [Decidable c] [Decidable d] (hcd : d ↔ c) {p' : Parser α} {q' : Parser β}
    (hp : Image r f p q) (hp' : Image r f p' q') :
    Image r f (if c then p else p') (if d then q else q') := by
  by_cases hc : c
  · rw [if_pos hc, if_pos (hcd.mpr hc)]
    exact hp
  · rw [if_neg hc, if_neg (mt hcd.mp hc)]
    exact hp'

theorem peek : Image r r.token peek peek := fun s => by
  rw [peek_apply, peek_apply, Reading.ahead_relabel]
  rfl

theorem take : Image r r.token take take := fun s => by
  rw [take_apply, take_apply, Reading.ahead_relabel, Reading.next_relabel]
  rfl

theorem report (t : Token) (fault : ParseFault) :
    Image r id (report t fault) (report (r.token t) fault) := fun s =>
  congrArg (EStateM.Result.ok ()) (Reading.record_relabel r s ⟨t, fault⟩)

theorem missingExpression :
    Image r f (missingExpression : Parser α) (missingExpression : Parser β) :=
  bind peek fun _ _ => rfl

variable (hr : r.KeepsForms)
include hr

theorem kind (t : Token) : (r.token t).kind = t.kind := Grammar.kind_image hr t

theorem skip (kind : Kind) : Image r id (skip kind) (skip kind) :=
  bind peek fun t => ite (by rw [Image.kind hr]) (bind take fun _ => pure rfl) (pure rfl)

theorem expect (what : Missing) : Image r r.token (expect what) (expect what) :=
  bind peek fun t => ite (by rw [Image.kind hr]) take fun _ => rfl

omit hr in
theorem limit (count : Nat) (fault : ParseFault) :
    Image r id (limit count fault) (limit count fault) :=
  ite Iff.rfl (bind peek fun t => report t fault) (pure rfl)

end Image

variable (hr : r.KeepsForms)
include hr

/-! ## Expressions -/

section Expressions

variable {expression : Parser Expr} (he : Image r (Expr.relabel r) expression expression)
include he

theorem image_arguments (n count : Nat) :
    Image r (Expr.relabelAll r) (arguments expression n count) (arguments expression n count) := by
  induction n generalizing count with
  | zero => exact .bind (.limit count _) fun _ => .bind he fun e => .pure rfl
  | succ n ih =>
    rw [arguments_succ]
    refine .bind (.limit count _) fun _ => .bind he fun e => .bind (.skip hr .comma) fun given => ?_
    exact .ite Iff.rfl (.bind (ih (count + 1)) fun es => .pure rfl) (.pure rfl)

theorem image_argumentList (bound : Nat) :
    Image r (Expr.relabelAll r) (argumentList bound expression) (argumentList bound expression) :=
  .bind .peek fun t => .ite (by rw [Image.kind hr]) (.pure rfl) (image_arguments hr he bound 0)

theorem image_calls (bound n : Nat) (callee : Expr) :
    Image r (Expr.relabel r) (calls bound expression n callee)
      (calls bound expression n (callee.relabel r)) := by
  induction n generalizing callee with
  | zero => exact .pure rfl
  | succ n ih =>
    rw [calls_succ, calls_succ]
    refine .bind (.skip hr .leftParen) fun given => .ite Iff.rfl ?_ (.pure rfl)
    refine .bind (image_argumentList hr he bound) fun es => ?_
    exact .bind (.expect hr .afterArguments) fun paren => ih (.call callee paren es)

theorem image_primary :
    Image r (Expr.relabel r) (primary expression) (primary expression) := by
  unfold primary
  refine .bind .peek fun t => ?_
  rw [Grammar.literal_image hr, Image.kind hr]
  cases hv : t.literal? with
  | some v =>
    have hliteral : v.relabel r = v := Grammar.relabel_of_literal hv
    exact .bind .take fun _ => .pure (congrArg Expr.literal hliteral.symm)
  | none =>
    dsimp only
    split
    · exact .bind .take fun _ => .pure rfl
    · refine .bind .take fun _ => .bind he fun e => ?_
      exact .bind (.expect hr .afterGrouping) fun _ => .pure rfl
    · exact .missingExpression

theorem image_unary (bound n : Nat) :
    Image r (Expr.relabel r) (unary bound expression n) (unary bound expression n) := by
  induction n with
  | zero => exact .missingExpression
  | succ n ih =>
    rw [unary_succ]
    refine .bind .peek fun t => .ite (by rw [Image.kind hr]) ?_ ?_
    · exact .bind .take fun _ => .bind ih fun e => .pure rfl
    · exact .bind (image_primary hr he) fun callee => image_calls hr he bound bound callee

end Expressions

theorem image_operations {operand : Parser Expr}
    (ho : Image r (Expr.relabel r) operand operand) (level : Level) (n : Nat) (left : Expr) :
    Image r (Expr.relabel r) (operations level operand n left)
      (operations level operand n (left.relabel r)) := by
  induction n generalizing left with
  | zero => exact .pure rfl
  | succ n ih =>
    rw [operations_succ, operations_succ]
    refine .bind .peek fun t => .ite (by rw [Image.kind hr]) ?_ (.pure rfl)
    refine .bind .take fun _ => .bind ho fun right => ?_
    rw [← Grammar.relabel_combine]
    exact ih (level.combine left t right)

theorem image_operators (bound : Nat) {operand : Parser Expr}
    (ho : Image r (Expr.relabel r) operand operand) (levels : List Level) :
    Image r (Expr.relabel r) (operators bound operand levels)
      (operators bound operand levels) := by
  induction levels with
  | nil => exact ho
  | cons level levels ih =>
    exact .bind ih fun left => image_operations hr ih level bound left

theorem image_assignment (n : Nat) : Image r (Expr.relabel r) (assignment n) (assignment n) := by
  induction n with
  | zero => exact .missingExpression
  | succ n ih =>
    unfold assignment
    refine .bind (image_operators hr (n + 1) (image_unary hr ih (n + 1) (n + 1)) Level.all)
      fun target => .bind .peek fun t => .ite (by rw [Image.kind hr]) ?_ (.pure rfl)
    refine .bind .take fun _ => .bind ih fun value => ?_
    cases target with
    | «variable» x => exact .pure rfl
    | literal _ | grouping _ | unary _ _ | binary _ _ _ | logical _ _ _ | assign _ _ | call _ _ _ =>
      exact .bind (.report t .invalidAssignmentTarget) fun _ => .pure rfl

/-! ## Parts of statements -/

theorem image_expressionStatement (bound : Nat) :
    Image r (Stmt.relabel r) (expressionStatement bound) (expressionStatement bound) :=
  .bind (image_assignment hr bound) fun _ => .bind (.expect hr .afterExpression) fun _ => .pure rfl

/-- An optional expression behind a test that comes out the same. -/
theorem image_optional (bound : Nat) {c d : Prop} [Decidable c] [Decidable d] (hcd : d ↔ c) :
    Image r (Expr.relabelOptional r) (if c then pure none else some <$> assignment bound)
      (if d then pure none else some <$> assignment bound) :=
  .ite hcd (.pure rfl) (.map (image_assignment hr bound) fun _ => rfl)

theorem image_variableDeclaration (bound : Nat) :
    Image r (Stmt.relabel r) (variableDeclaration bound) (variableDeclaration bound) := by
  rw [variableDeclaration_eq]
  refine .bind (.expect hr .variableName) fun name => .bind (.skip hr .equal) fun given => ?_
  refine .bind (f := Expr.relabelOptional r) (.ite Iff.rfl ?_ (.pure rfl)) fun e => ?_
  · exact .map (image_assignment hr bound) fun _ => rfl
  · exact .bind (.expect hr .afterVariable) fun _ => .pure rfl

theorem image_parameters (n count : Nat) :
    Image r (List.map r.token) (parameters n count) (parameters n count) := by
  induction n generalizing count with
  | zero =>
    exact .bind (.limit count _) fun _ => .bind (.expect hr .parameterName) fun _ => .pure rfl
  | succ n ih =>
    refine .bind (.limit count _) fun _ => .bind (.expect hr .parameterName) fun x => ?_
    refine .bind (.skip hr .comma) fun given => .ite Iff.rfl ?_ (.pure rfl)
    exact .bind (ih (count + 1)) fun xs => .pure rfl

theorem image_parameterList (bound : Nat) :
    Image r (List.map r.token) (parameterList bound) (parameterList bound) :=
  .bind .peek fun t => .ite (by rw [Image.kind hr]) (.pure rfl) (image_parameters hr bound 0)

theorem image_initializer (bound : Nat) :
    Image r (Stmt.relabelOptional r) (initializer bound) (initializer bound) := by
  refine .bind .peek fun t => ?_
  rw [Image.kind hr]
  split
  · exact .bind .take fun _ => .pure rfl
  · exact .bind .take fun _ => .map (image_variableDeclaration hr bound) fun _ => rfl
  · exact .map (image_expressionStatement hr bound) fun _ => rfl

theorem image_print (bound : Nat) (keyword : Token) :
    Image r (Stmt.relabel r) (print bound keyword) (print bound (r.token keyword)) :=
  .bind (image_assignment hr bound) fun _ =>
    .bind (.expect hr .afterPrintedValue) fun _ => .pure rfl

omit hr in
theorem image_checkReturn (keyword : Token) :
    Image r id (checkReturn keyword) (checkReturn (r.token keyword)) := by
  have hget : Image r (Reading.relabel r) get get := fun s => rfl
  exact .bind hget fun s => .ite Iff.rfl (.report keyword .topLevelReturn) (.pure rfl)

theorem image_ret (bound : Nat) (keyword : Token) :
    Image r (Stmt.relabel r) (ret bound keyword) (ret bound (r.token keyword)) := by
  rw [ret_eq, ret_eq]
  refine .bind (image_checkReturn keyword) fun _ => .bind .peek fun t => ?_
  refine .bind (image_optional hr bound (by rw [Image.kind hr])) fun e => ?_
  exact .bind (.expect hr .afterReturnValue) fun _ => .pure rfl

/-! ## Statements -/

section Statements

variable {statement : Parser Stmt} (hs : Image r (Stmt.relabel r) statement statement)
include hs

theorem image_branch (bound : Nat) :
    Image r (Stmt.relabel r) (branch bound statement) (branch bound statement) := by
  rw [branch_eq]
  refine .bind (.expect hr .beforeIfCondition) fun _ => ?_
  refine .bind (image_assignment hr bound) fun c => .bind (.expect hr .afterIfCondition) fun _ => ?_
  refine .bind hs fun s => .bind (.skip hr .kwElse) fun given => ?_
  refine .bind (f := Stmt.relabelOptional r) (.ite Iff.rfl ?_ (.pure rfl)) fun t => .pure rfl
  exact .map hs fun _ => rfl

theorem image_whileLoop (bound : Nat) :
    Image r (Stmt.relabel r) (whileLoop bound statement) (whileLoop bound statement) := by
  refine .bind (.expect hr .beforeWhileCondition) fun _ => ?_
  refine .bind (image_assignment hr bound) fun c => ?_
  exact .bind (.expect hr .afterWhileCondition) fun _ => .bind hs fun s => .pure rfl

theorem image_forLoop (bound : Nat) :
    Image r (Stmt.relabel r) (forLoop bound statement) (forLoop bound statement) := by
  rw [forLoop_eq]
  refine .bind (.expect hr .beforeForClauses) fun _ => ?_
  refine .bind (image_initializer hr bound) fun i => ?_
  refine .bind .peek fun t => ?_
  refine .bind (.ite (by rw [Image.kind hr]) (.pure rfl) (image_assignment hr bound)) fun c => ?_
  refine .bind (.expect hr .afterLoopCondition) fun _ => .bind .peek fun t => ?_
  refine .bind (image_optional hr bound (by rw [Image.kind hr])) fun e => ?_
  refine .bind (.expect hr .afterForClauses) fun _ => .bind hs fun s => .pure ?_
  exact (Grammar.relabel_forLoop i c e s).symm

end Statements

/-! ## Declarations, with recovery -/

omit hr in
theorem relabelAll_append (ss ss' : List Stmt) :
    Stmt.relabelAll r (ss ++ ss') = Stmt.relabelAll r ss ++ Stmt.relabelAll r ss' := by
  simp only [Stmt.relabelAll_eq, List.map_append]

theorem resume_map (previous : Token) (ts : List Token) :
    resume (r.token previous) (ts.map r.token) = (resume previous ts).map r.token := by
  induction ts generalizing previous with
  | nil => rfl
  | cons t ts ih =>
    simp only [List.map_cons, resume, Image.kind hr, ih]
    split <;> rfl

theorem dropToBoundary_map (ts : List Token) :
    dropToBoundary (ts.map r.token) = (dropToBoundary ts).map r.token := by
  cases ts with
  | nil => rfl
  | cons t ts => exact resume_map hr t ts

theorem image_recovering {p : Parser Stmt} (hp : Image r (Stmt.relabel r) p p) :
    Image r (Stmt.relabelOptional r) (recovering p) (recovering p) := by
  intro s
  unfold recovering
  rw [hp s]
  cases p s with
  | ok statement s' => rfl
  | error e s' =>
    simp only [relabelResult, Reading.record_relabel]
    refine congrArg (EStateM.Result.ok none) ?_
    simp only [Reading.relabel, Reading.record, dropToBoundary_map hr]

omit hr in
theorem image_insideFunction {α β : Type} {f : α → β} {p : Parser α} {q : Parser β}
    (hp : Image r f p q) : Image r f (insideFunction p) (insideFunction q) := by
  intro s
  have h := hp { s with depth := s.depth + 1 }
  unfold insideFunction
  change q { s.relabel r with depth := (s.relabel r).depth + 1 } = _ at h
  rw [h]
  cases p { s with depth := s.depth + 1 } <;> rfl

section Declarations

variable {declaration : Parser (Option Stmt)}
  (hd : Image r (Stmt.relabelOptional r) declaration declaration)
include hd

theorem image_declarations (ends : Kind → Bool) (n : Nat) :
    Image r (Stmt.relabelAll r) (declarations ends declaration n)
      (declarations ends declaration n) := by
  induction n with
  | zero => exact .pure rfl
  | succ n ih =>
    rw [declarations_succ]
    refine .bind .peek fun t => .ite (by rw [Image.kind hr]) (.pure rfl) ?_
    refine .bind hd fun first? => .bind ih fun others => .pure ?_
    rw [relabelAll_append]
    cases first? <;> rfl

theorem image_block (bound : Nat) :
    Image r (Stmt.relabelAll r) (block bound declaration) (block bound declaration) :=
  .bind (image_declarations hr hd _ bound) fun _ =>
    .bind (.expect hr .afterBlock) fun _ => .pure rfl

theorem image_functionDeclaration (bound : Nat) :
    Image r (Stmt.relabel r) (functionDeclaration bound declaration)
      (functionDeclaration bound declaration) := by
  refine .bind (.expect hr .functionName) fun name => ?_
  refine .bind (.expect hr .beforeParameters) fun _ => ?_
  refine .bind (image_parameterList hr bound) fun xs => ?_
  refine .bind (.expect hr .afterParameters) fun _ => ?_
  refine .bind (.expect hr .beforeFunctionBody) fun _ => ?_
  exact .bind (image_insideFunction (image_block hr hd bound)) fun body => .pure rfl

variable {statement : Parser Stmt} (hs : Image r (Stmt.relabel r) statement statement)
include hs

theorem image_statementOf (bound : Nat) :
    Image r (Stmt.relabel r) (statementOf bound statement declaration)
      (statementOf bound statement declaration) := by
  refine .bind .peek fun t => ?_
  rw [Image.kind hr]
  split
  · exact .bind .take fun _ => image_branch hr hs bound
  · exact .bind .take fun _ => image_print hr bound t
  · exact .bind .take fun _ => image_ret hr bound t
  · exact .bind .take fun _ => .bind (image_block hr hd bound) fun body => .pure rfl
  · exact .bind .take fun _ => image_whileLoop hr hs bound
  · exact .bind .take fun _ => image_forLoop hr hs bound
  · exact image_expressionStatement hr bound

theorem image_declarationOf (bound : Nat) :
    Image r (Stmt.relabel r) (declarationOf bound statement declaration)
      (declarationOf bound statement declaration) := by
  refine .bind .peek fun t => ?_
  rw [Image.kind hr]
  split
  · exact .bind .take fun _ => image_variableDeclaration hr bound
  · exact .bind .take fun _ => image_functionDeclaration hr hd bound
  · exact image_statementOf hr hd hs bound

end Declarations

theorem image_statement_declaration (n : Nat) :
    Image r (Stmt.relabel r) (statement n) (statement n) ∧
      Image r (Stmt.relabelOptional r) (declaration n) (declaration n) := by
  induction n with
  | zero => exact ⟨.missingExpression, image_recovering hr .missingExpression⟩
  | succ n ih =>
    exact ⟨image_statementOf hr ih.2 ih.1 (n + 1),
      image_recovering hr (image_declarationOf hr ih.2 ih.1 (n + 1))⟩

end Parser

/-- The program that was read, made of other tokens. -/
def Parse.relabel (r : Relabeling) (p : Parse) : Parse where
  statements := Stmt.relabelAll r p.statements
  errors := p.errors.map (·.relabel r)

namespace Grammar

theorem ends_comp_token {r : Relabeling} (hr : r.KeepsForms) :
    (fun t => t.kind != .eof) ∘ r.token = fun t : Token => t.kind != .eof := by
  funext t
  rw [Function.comp_apply, kind_image hr]

theorem body_map {r : Relabeling} (hr : r.KeepsForms) (ts : List Token) :
    body (ts.map r.token) = (body ts).map r.token := by
  rw [body, List.takeWhile_map, ends_comp_token hr, body]

/-- Some token has to end the list: the one that stands in for it is never relabeled. -/
theorem stop_map {r : Relabeling} (hr : r.KeepsForms) {ts : List Token}
    (hend : ∃ t ∈ ts, t.kind = .eof) : stop (ts.map r.token) = r.token (stop ts) := by
  obtain ⟨more, hdrop⟩ := dropWhile_eq_stop_cons hend
  rw [stop, List.dropWhile_map, ends_comp_token hr, hdrop]
  rfl

/-- From relabeled tokens the relabeled program is read, with the same faults at the relabeled
tokens. -/
theorem parse_map {r : Relabeling} (hr : r.KeepsForms) {ts : List Token}
    (hend : ∃ t ∈ ts, t.kind = .eof) : parse (ts.map r.token) = (parse ts).relabel r := by
  obtain ⟨ss, s, hrun, hparse⟩ := parse_eq ts
  obtain ⟨ss', s', hrun', hparse'⟩ := parse_eq (ts.map r.token)
  have hstart : start (ts.map r.token) = (start ts).relabel r := by
    rw [start, body_map hr, stop_map hr hend]
    rfl
  have himage := Parser.image_declarations hr
    (Parser.image_statement_declaration hr (body ts).length).2 (· == .eof) (body ts).length
    (start ts)
  rw [← hstart] at himage
  unfold program at hrun hrun'
  rw [body_map hr, List.length_map, himage, hrun] at hrun'
  cases hrun'
  rw [hparse, hparse']
  rfl

end Grammar

/-- Whatever becomes of the spelling and the places of tokens, reading them gives the same trees
with the new tokens in the old places, and the same faults in the same order, each of them blamed on
the new token. -/
theorem forms_decide_parsing {g : Token → Token} (hg : ∀ t, (g t).form = t.form) (ts : List Token)
    {stop : Token} (hstop : stop.kind = .eof) :
    let before := parse (ts ++ [stop])
    let after := parse ((ts ++ [stop]).map g)
    after.statements = Stmt.relabelAll ⟨g, fun s => s⟩ before.statements ∧
      after.errors.map (fun e => (e.token, e.fault.message)) =
        before.errors.map fun e => (g e.token, e.fault.message) := by
  intro before after
  have hkeeps : Relabeling.KeepsForms ⟨g, fun s => s⟩ := hg
  have hafter : after = before.relabel ⟨g, fun s => s⟩ :=
    Grammar.parse_map hkeeps ⟨stop, List.mem_append_right _ List.mem_cons_self, hstop⟩
  rw [hafter]
  refine ⟨rfl, ?_⟩
  rw [Parse.relabel, List.map_map]
  rfl

/-- A grouping that lacks its end is blamed on the token that stands there instead, and what follows
is read, whatever the tokens are called and wherever they stand. -/
theorem forms_decide_parsing_recovering :
    let g (t : Token) : Token := { t with lexeme := "?", line := t.column, column := 0 }
    let name : Token := ⟨.bare .identifier, "x", 1, 8⟩
    let semicolon : Token := ⟨.bare .semicolon, ";", 1, 9⟩
    let stop : Token := ⟨.bare .eof, "", 1, 12⟩
    let ts := [⟨.bare .kwPrint, "print", 1, 1⟩, ⟨.bare .leftParen, "(", 1, 7⟩, name, semicolon,
      name, semicolon]
    let before := parse (ts ++ [stop])
    let after := parse ((ts ++ [stop]).map g)
    ((∀ t, (g t).form = t.form) ∧ stop.kind = .eof) ∧
      (before.statements = [.expression (.variable name)] ∧
        before.errors = [⟨semicolon, .missing .afterGrouping⟩]) ∧
      after.statements = Stmt.relabelAll ⟨g, fun s => s⟩ before.statements ∧
      after.errors.map (fun e => (e.token, e.fault.message)) =
        before.errors.map fun e => (g e.token, e.fault.message) := by
  intro g name semicolon stop ts before after
  have hg : ∀ t, (g t).form = t.form := fun _ => rfl
  have hstop : stop.kind = .eof := rfl
  exact ⟨⟨hg, hstop⟩, ⟨rfl, rfl⟩, forms_decide_parsing hg ts hstop⟩

end Lox
