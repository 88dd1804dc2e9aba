import Lox.Proofs.Grammar.Acceptance

/-!
Every `return` outside of functions is reported.

Reading counts how many function bodies it is inside of, and a `return` is reported where that
count is zero.  Here the count is followed through all of reading, with faults and without: it is
zero between any two declarations of a program, so each `return` that ends up in a tree and is not
part of a function has a report of its own.
-/

namespace Lox

mutual

/-- The keywords of the `return` statements that are not part of a function. -/
def Stmt.returns : Stmt → List Token
  | .block ss => Stmt.returnsOfAll ss
  | .branch _ s t => s.returns ++ Stmt.returnsOfOptional t
  | .loop _ s => s.returns
  | .ret keyword _ => [keyword]
  | .print _ _ | .expression _ | .declare _ _ | .function _ => []

def Stmt.returnsOfAll : List Stmt → List Token
  | [] => []
  | s :: ss => s.returns ++ Stmt.returnsOfAll ss

def Stmt.returnsOfOptional : Option Stmt → List Token
  | none => []
  | some s => s.returns

end

theorem Stmt.returns_forLoop (i : Option Stmt) (c : Expr) (n : Option Expr) (s : Stmt) :
    (Stmt.forLoop i c n s).returns = Stmt.returnsOfOptional i ++ s.returns := by
  cases i <;> cases n <;>
    simp [Stmt.forLoop, Stmt.returns, Stmt.returnsOfAll, Stmt.returnsOfOptional]

theorem Stmt.returnsOfAll_append (ss ts : List Stmt) :
    Stmt.returnsOfAll (ss ++ ts) = Stmt.returnsOfAll ss ++ Stmt.returnsOfAll ts := by
  induction ss with
  | nil => rfl
  | cons s ss ih => simp [Stmt.returnsOfAll, ih]

theorem Stmt.returnsOfAll_toList (o : Option Stmt) :
    Stmt.returnsOfAll o.toList = Stmt.returnsOfOptional o := by
  cases o <;> simp [Stmt.returnsOfAll, Stmt.returnsOfOptional]

namespace Reading

/-- The `return` keywords that were reported, in the order of the reports. -/
def reported (s : Reading) : List Token :=
  (s.errors.filter (·.fault = .topLevelReturn)).map ParseError.token

theorem Later.reported {s s' : Reading} (h : s.Later s') : s.reported.Sublist s'.reported :=
  (h.errors.sublist.filter _).map _

/-- Whether no function body is around the place. -/
structure Outside (s : Reading) : Prop where
  stop : s.stop.kind = .eof
  depth : s.depth = 0

theorem Outside.later {s s' : Reading} (hs : s.Outside) (h : s.Later s') : s'.Outside :=
  ⟨h.eof hs.stop, h.depth.trans hs.depth⟩

theorem Outside.next {s : Reading} (hs : s.Outside) : s.next.Outside := hs.later s.later_next

end Reading

namespace Parser

open Grammar

variable {α β : Type} {s : Reading} {xs : List Token}

/-! ## Following the reports -/

/-- If the keywords `xs` were reported before, then those that come with the result are reported
afterwards. -/
def Tracks (s : Reading) (xs : List Token) (p : Parser α) (ys : α → List Token) : Prop :=
  match p s with
  | .ok a s' => s.Later s' ∧ (xs.Sublist s.reported → (ys a).Sublist s'.reported)
  | .error _ s' => s.Later s'

namespace Tracks

variable {p q : Parser α} {f : α → Parser β} {ys : α → List Token} {zs : β → List Token}

theorem pure {a : α} (h : ys a = xs) : Tracks s xs (pure a) ys :=
  ⟨.refl s, fun hxs => by rwa [h]⟩

theorem bind (hp : Tracks s xs p ys) (hf : ∀ a s', s.Later s' → Tracks s' (ys a) (f a) zs) :
    Tracks s xs (p >>= f) zs := by
  unfold Tracks at hp ⊢
  rw [bind_apply]
  cases hr : p s with
  | error e s' =>
    rw [hr] at hp
    exact hp
  | ok a s' =>
    rw [hr] at hp
    have h := hf a s' hp.1
    unfold Tracks at h
    dsimp only
    cases hb : f a s' with
    | ok b s'' =>
      rw [hb] at h
      exact ⟨hp.1.trans h.1, fun hxs => h.2 (hp.2 hxs)⟩
    | error e s'' =>
      rw [hb] at h
      exact hp.1.trans h

theorem map {g : α → β} (hp : Tracks s xs p fun a => zs (g a)) : Tracks s xs (g <$> p) zs :=
  bind (f := fun a => Pure.pure (g a)) hp fun _ _ _ => pure rfl

theorem ite {c : Prop} [Decidable c] (hp : Tracks s xs p ys) (hq : Tracks s xs q ys) :
    Tracks s xs (if c then p else q) ys := by
  split
  · exact hp
  · exact hq

theorem of_eq (hpq : p s = q s) (h : Tracks s xs q ys) : Tracks s xs p ys := by
  unfold Tracks at h ⊢
  rwa [hpq]

theorem peek {f : Token → Parser β} (h : Tracks s xs (f s.ahead) zs) :
    Tracks s xs (peek >>= f) zs :=
  of_eq (bind_of_ok (peek_apply s)) h

/-- What is reported stays reported, so a parser whose results hold no keywords loses none. -/
theorem of_reads {D : List Token → α → Prop} (h : Reads s p D) : Tracks s xs p fun _ => xs := by
  unfold Reads at h
  unfold Tracks
  cases hp : p s with
  | ok a s' =>
    rw [hp] at h
    exact ⟨h.1, fun hxs => hxs.trans h.1.reported⟩
  | error e s' => rwa [hp] at h

theorem of_next (hp : p s = q s.next) (h : Tracks s.next xs q ys) : Tracks s xs p ys := by
  unfold Tracks at h ⊢
  rw [hp]
  cases hq : q s.next with
  | ok a s' =>
    rw [hq] at h
    exact ⟨s.later_next.trans h.1, h.2⟩
  | error e s' =>
    rw [hq] at h
    exact s.later_next.trans h

theorem take {f : Token → Parser β} (h : Tracks s.next xs (f s.ahead) zs) :
    Tracks s xs (take >>= f) zs :=
  of_next (bind_of_ok (take_apply s)) h

theorem skip {kind : Kind} {f : Bool → Parser β} (ht : Tracks s.next xs (f true) zs)
    (hf : Tracks s xs (f false) zs) : Tracks s xs (skip kind >>= f) zs := by
  by_cases h : s.ahead.kind = kind
  · exact of_next (bind_of_ok (skip_of_eq h)) ht
  · exact of_eq (bind_of_ok (skip_of_ne h)) hf

theorem expect {what : Missing} {f : Token → Parser β} (h : Tracks s.next xs (f s.ahead) zs) :
    Tracks s xs (expect what >>= f) zs := by
  by_cases hk : s.ahead.kind = what.kind
  · exact of_next (bind_of_ok (expect_of_eq hk)) h
  · unfold Tracks
    rw [bind_apply, expect_of_ne hk]
    exact .refl s

end Tracks

/-! ## Statements -/

/-- What is asked of the parser for statements. -/
def TracksStatement (p : Parser Stmt) : Prop :=
  ∀ s : Reading, s.Outside → ∀ xs, Tracks s xs p fun st => xs ++ st.returns

/-- What is asked of the parser for declarations. -/
def TracksDeclaration (p : Parser (Option Stmt)) : Prop :=
  ∀ s : Reading, s.Outside → ∀ xs, Tracks s xs p fun o => xs ++ Stmt.returnsOfOptional o

theorem tracks_expressionStatement (bound : Nat) : TracksStatement (expressionStatement bound) := by
  intro s hs xs
  unfold expressionStatement
  refine .bind (.of_reads (reads_assignment bound hs.stop)) fun e s₁ h₁ => .expect (.pure ?_)
  simp [Stmt.returns]

theorem tracks_variableDeclaration (bound : Nat) :
    TracksStatement (variableDeclaration bound) := by
  intro s hs xs
  rw [variableDeclaration_eq]
  refine .expect (.skip ?_ ?_)
  · rw [if_pos rfl]
    have hvalue : Tracks s.next.next xs (some <$> assignment bound) fun _ => xs :=
      .map (.of_reads (reads_assignment bound hs.next.next.stop))
    refine .bind hvalue fun i s₁ h₁ => .expect (.pure ?_)
    simp [Stmt.returns]
  · refine .expect (.pure ?_)
    simp [Stmt.returns]

theorem tracks_initializer (bound : Nat) (hs : s.Outside) :
    Tracks s xs (initializer bound) fun i => xs ++ Stmt.returnsOfOptional i := by
  unfold initializer
  refine .peek ?_
  split
  · exact .take (.pure (List.append_nil xs))
  · exact .take (.map (tracks_variableDeclaration bound _ hs.next xs))
  · exact .map (tracks_expressionStatement bound s hs xs)

/-- No keyword in the body of a function is looked for. -/
theorem tracks_functionDeclaration {declaration : Parser (Option Stmt)}
    (hd : SoundDeclaration declaration) (bound : Nat) :
    TracksStatement (functionDeclaration bound declaration) := by
  intro s hs xs
  unfold functionDeclaration
  refine .expect (.expect ?_)
  have hs₂ := hs.next.next
  refine .bind (.of_reads (reads_parameterList bound hs₂.stop)) fun ps s₃ h₃ => .expect (.expect ?_)
  have hs₅ := (hs₂.later h₃).next.next
  refine .bind (.of_reads (reads_insideFunction (reads_block hd bound hs₅.stop)))
    fun body s₆ h₆ => .pure ?_
  simp [Stmt.returns]

theorem tracks_print (bound : Nat) (keyword : Token) : TracksStatement (print bound keyword) := by
  intro s hs xs
  unfold print
  refine .bind (.of_reads (reads_assignment bound hs.stop)) fun e s₁ h₁ => .expect (.pure ?_)
  simp [Stmt.returns]

theorem tracks_checkReturn (keyword : Token) (hs : s.Outside) :
    Tracks s xs (checkReturn keyword) fun _ => xs ++ [keyword] := by
  have h : checkReturn keyword s = .ok () (s.record ⟨keyword, .topLevelReturn⟩) := by
    show (if s.depth = 0 then report keyword .topLevelReturn else pure () : Parser Unit) s = _
    rw [if_pos hs.depth]
    rfl
  unfold Tracks
  rw [h]
  refine ⟨s.later_record _, fun hxs => ?_⟩
  have hnew : (s.record ⟨keyword, .topLevelReturn⟩).reported = s.reported ++ [keyword] := by
    simp [Reading.reported, Reading.record]
  rw [hnew]
  exact hxs.append_right _

theorem tracks_ret (bound : Nat) (keyword : Token) : TracksStatement (ret bound keyword) := by
  intro s hs xs
  rw [ret_eq]
  refine .bind (tracks_checkReturn keyword hs) fun _ s₁ h₁ => .peek ?_
  refine .bind (.of_reads (reads_optional bound (hs.later h₁).stop)) fun e s₂ h₂ => .expect ?_
  exact .pure rfl

section Parts

variable {statement : Parser Stmt} (hst : TracksStatement statement)
  {declaration : Parser (Option Stmt)} (hd : TracksDeclaration declaration) (bound : Nat)

include hst

theorem tracks_branch : TracksStatement (branch bound statement) := by
  intro s hs xs
  rw [branch_eq]
  refine .expect (.bind (.of_reads (reads_assignment bound hs.next.stop)) fun c s₂ h₂ => .expect ?_)
  have hs₃ := (hs.next.later h₂).next
  refine .bind (hst _ hs₃ xs) fun whenTrue s₄ h₄ => .skip ?_ ?_
  · rw [if_pos rfl]
    have helse : Tracks s₄.next (xs ++ whenTrue.returns) (some <$> statement) fun o =>
        (xs ++ whenTrue.returns) ++ Stmt.returnsOfOptional o :=
      .map (hst _ (hs₃.later h₄).next _)
    refine .bind helse fun whenFalse s₆ h₆ => .pure ?_
    simp [Stmt.returns]
  · refine .pure ?_
    simp [Stmt.returns, Stmt.returnsOfOptional]

theorem tracks_whileLoop : TracksStatement (whileLoop bound statement) := by
  intro s hs xs
  unfold whileLoop
  refine .expect (.bind (.of_reads (reads_assignment bound hs.next.stop)) fun c s₂ h₂ => .expect ?_)
  refine .bind (hst _ (hs.next.later h₂).next xs) fun body s₄ h₄ => .pure ?_
  simp [Stmt.returns]

theorem tracks_forLoop : TracksStatement (forLoop bound statement) := by
  intro s hs xs
  rw [forLoop_eq]
  refine .expect (.bind (tracks_initializer bound hs.next) fun i s₂ h₂ => .peek ?_)
  have hs₂ := hs.next.later h₂
  refine .bind (.of_reads (reads_condition bound hs₂.stop)) fun c s₃ h₃ => .expect (.peek ?_)
  have hs₄ := (hs₂.later h₃).next
  refine .bind (.of_reads (reads_optional bound hs₄.stop)) fun n s₅ h₅ => .expect ?_
  refine .bind (hst _ (hs₄.later h₅).next _) fun body s₆ h₆ => .pure ?_
  rw [Stmt.returns_forLoop, List.append_assoc]

omit hst
include hd

theorem tracks_declarations (ends : Kind → Bool) (n : Nat) (hs : s.Outside) :
    Tracks s xs (declarations ends declaration n) fun ss => xs ++ Stmt.returnsOfAll ss := by
  induction n generalizing s xs with
  | zero => exact .pure (List.append_nil xs)
  | succ n ih =>
    rw [declarations_succ]
    refine .peek (.ite (.pure (List.append_nil xs)) ?_)
    refine .bind (hd s hs xs) fun first? s₁ h₁ => ?_
    refine .bind (ih (hs.later h₁)) fun others s₂ h₂ => .pure ?_
    rw [Stmt.returnsOfAll_append, Stmt.returnsOfAll_toList, List.append_assoc]

theorem tracks_block (hs : s.Outside) :
    Tracks s xs (block bound declaration) fun ss => xs ++ Stmt.returnsOfAll ss := by
  unfold block
  exact .bind (tracks_declarations hd _ bound hs) fun body s₁ h₁ => .expect (.pure rfl)

include hst

theorem tracks_statementOf : TracksStatement (statementOf bound statement declaration) := by
  intro s hs xs
  unfold statementOf
  refine .peek ?_
  split
  · exact .take (tracks_branch hst bound _ hs.next xs)
  · exact .take (tracks_print bound _ _ hs.next xs)
  · exact .take (tracks_ret bound _ _ hs.next xs)
  · refine .take (.bind (tracks_block hd bound hs.next) fun body s₂ h₂ => .pure ?_)
    simp [Stmt.returns]
  · exact .take (tracks_whileLoop hst bound _ hs.next xs)
  · exact .take (tracks_forLoop hst bound _ hs.next xs)
  · exact tracks_expressionStatement bound s hs xs

theorem tracks_declarationOf (hsound : SoundDeclaration declaration) :
    TracksStatement (declarationOf bound statement declaration) := by
  intro s hs xs
  unfold declarationOf
  refine .peek ?_
  split
  · exact .take (tracks_variableDeclaration bound _ hs.next xs)
  · exact .take (tracks_functionDeclaration hsound bound _ hs.next xs)
  · exact tracks_statementOf hst hd bound s hs xs

end Parts

/-- A declaration that is given up has no keywords, and recovery comes behind it. -/
theorem tracks_recovering {p : Parser Stmt} (hp : TracksStatement p) :
    TracksDeclaration (recovering p) := by
  intro s hs xs
  have h := hp s hs xs
  unfold Tracks at h ⊢
  unfold recovering
  cases hrun : p s with
  | ok st s' =>
    rw [hrun] at h
    exact h
  | error e s' =>
    rw [hrun] at h
    have hrec := h.trans (s'.later_record e)
    have hlater : s.Later { s'.record e with rest := dropToBoundary s'.rest } :=
      ⟨(dropToBoundary_suffix _).trans hrec.rest, hrec.stop, hrec.depth, hrec.errors⟩
    refine ⟨hlater, fun hxs => ?_⟩
    show (xs ++ []).Sublist _
    rw [List.append_nil]
    exact hxs.trans hlater.reported

theorem tracks_missingExpression : TracksStatement missingExpression :=
  fun s _ _ => .of_eq (bind_of_ok (peek_apply s)) (Reading.Later.refl s)

mutual

theorem tracks_statement : ∀ n, TracksStatement (statement n)
  | 0 => by
    unfold statement
    exact tracks_missingExpression
  | n + 1 => by
    unfold statement
    exact tracks_statementOf (tracks_statement n) (tracks_declaration n) (n + 1)

theorem tracks_declaration : ∀ n, TracksDeclaration (declaration n)
  | 0 => by
    unfold declaration
    exact tracks_recovering tracks_missingExpression
  | n + 1 => by
    unfold declaration
    exact tracks_recovering (tracks_declarationOf (tracks_statement n) (tracks_declaration n)
      (n + 1) (sound_declaration n))

end

end Parser

namespace Grammar

/-- The state behind the first declarations of a program, `count` of them unless it has fewer. -/
def behind (tokens : List Token) (count : Nat) : Reading :=
  match Parser.declarations (· == .eof) (Parser.declaration (body tokens).length) count
      (start tokens) with
  | .ok _ s => s
  | .error _ s => s

theorem later_behind (tokens : List Token) (count : Nat) :
    (start tokens).Later (behind tokens count) := by
  have h : Parser.Reads (start tokens)
      (Parser.declarations (· == .eof) (Parser.declaration (body tokens).length) count)
      (Declarations anyIf (start tokens).inside) :=
    Parser.reads_declarations (Parser.sound_declaration (body tokens).length) count
      (kind_stop tokens)
  unfold Parser.Reads at h
  unfold behind
  split
  · next hrun =>
    rw [hrun] at h
    exact h.1
  · next hrun => rwa [hrun] at h

/-- Between two declarations of a program no function body is around. -/
theorem outside_behind (tokens : List Token) (count : Nat) : (behind tokens count).Outside :=
  Reading.Outside.later ⟨kind_stop tokens, rfl⟩ (later_behind tokens count)

theorem returns_of_parse (tokens : List Token) :
    (Stmt.returnsOfAll (parse tokens).statements).Sublist
      (((parse tokens).errors.filter (·.fault = .topLevelReturn)).map ParseError.token) := by
  obtain ⟨ss, s', hrun, hparse⟩ := parse_eq tokens
  have h : Parser.Tracks (start tokens) [] (program tokens) Stmt.returnsOfAll :=
    Parser.tracks_declarations (Parser.tracks_declaration _) _ _ ⟨kind_stop tokens, rfl⟩
  unfold Parser.Tracks at h
  rw [hrun] at h
  rw [hparse]
  exact h.2 (List.nil_sublist _)

end Grammar
end Lox
