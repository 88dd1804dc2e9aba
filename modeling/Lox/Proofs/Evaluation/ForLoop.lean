import Mathlib
import Lox.Proofs.Grammar.Soundness
import Lox.Proofs.Sessions.Closed

/-!
The meaning of loops with a head of three clauses.

Such a loop has a tree of simpler statements.  Here it is also executed by its clauses, without a
tree: the initializer once in a scope around the loop, then round after round the condition, the
body and the increment.  The tree runs body and increment of every round in one more scope, which
binds nothing since a body is no declaration, so the two ways agree but for these scopes.
-/

namespace Lox

/-- The clauses and the body of a loop. -/
structure ForStatement where
  initializer : Option Stmt
  condition : Option Expr
  increment : Option Expr
  body : Stmt

namespace ForStatement

variable (f : ForStatement)

def tree : Stmt :=
  .forLoop f.initializer (f.condition.getD (.literal (.bool true))) f.increment f.body

/-- What the tree repeats. -/
def repeated : Stmt :=
  match f.increment with
  | none => f.body
  | some e => .block [f.body, .expression e]

/-- The value that decides whether there is another round.  A condition that is absent is true. -/
def test (l : Layer) : Action Value :=
  match f.condition with
  | none => pure (.bool true)
  | some e => l.evaluate e

/-- What is behind the body. -/
def advance (l : Layer) : Action Flow :=
  match f.increment with
  | none => pure .normal
  | some e => do
    let _ ← l.evaluate e
    return .normal

/-- The site of the body, given that of the loop. -/
def bodySite (site : Site) : Site :=
  match f.increment with
  | none => 0 :: site
  | some _ => 0 :: 0 :: site

/-- How many levels deeper than the condition the body is in the tree. -/
def depth : Nat :=
  match f.increment with
  | none => 0
  | some _ => 1

/-- One round: the body, and behind it the increment unless the body returns. -/
def round (host : Host) (fuel : Nat) (site : Site) : Action Flow := do
  match ← execute host (fuel - f.depth) (f.bodySite site) f.body with
  | .normal => f.advance (layer host (fuel - 2))
  | .returned v => return .returned v

/-- Rounds while the condition holds. -/
def rounds (host : Host) (fuel : Nat) (site : Site) : Nat → Action Flow
  | 0 => throw .outOfFuel
  | n + 1 => do
    let v ← f.test (layer host fuel)
    if v.truth then
      match ← f.round host fuel site with
      | .normal => rounds host fuel site n
      | .returned v => return .returned v
    else
      return .normal

/-- The loop behind its initializer. -/
def loop (host : Host) (site : Site) : Nat → Action Flow
  | 0 => throw .outOfFuel
  | n + 1 => f.rounds host n site n

/-- Executes a loop by its clauses.  Each of them gets the fuel that is left for it in the tree. -/
def run (host : Host) (site : Site) : Nat → Action Flow
  | 0 => throw .outOfFuel
  | n + 1 =>
    match f.initializer with
    | none => f.loop host site (n + 1)
    | some s => do
      let scope ← Action.openScope (← get).current
      Action.inScope scope do
        match ← execute host n (0 :: site) s with
        | .normal => f.loop host (1 :: site) n
        | .returned v => return .returned v

/-- Whether a row of tokens is a loop with these clauses. -/
inductive Written (inside : Bool) : List Token → ForStatement → Prop
  | mk {a : Grammar.Ending} {keyword left semicolon right : Token} {is cs ns us : List Token}
      {f : ForStatement} : keyword.kind = .kwFor → left.kind = .leftParen →
      Grammar.Initializer is f.initializer → Grammar.Optional cs f.condition →
      semicolon.kind = .semicolon → Grammar.Optional ns f.increment → right.kind = .rightParen →
      Grammar.Statement Grammar.anyIf inside a us f.body →
      Written inside (keyword :: left :: is ++ cs ++ semicolon :: ns ++ right :: us) f

end ForStatement

/-! ## What is read -/

namespace Grammar

variable {inside : Bool} {a : Ending} {ts : List Token} {s : Stmt}

theorem Statement.undeclaring {Before : Ending → Prop} : ∀ {inside : Bool} {a : Ending}
    {ts : List Token} {s : Stmt}, Statement Before inside a ts s → s.Undeclaring
  | _, _, _, _, .branch _ _ _ _ h => .branch h.undeclaring fun u hu => by cases hu
  | _, _, _, _, .branchElse _ _ _ _ h _ _ h' =>
    .branch h.undeclaring fun _ hu => Option.mem_some.mp hu ▸ h'.undeclaring
  | _, _, _, _, .loop _ _ _ _ h => .loop h.undeclaring
  | _, _, _, _, .forLoop (i := i) (n := n) _ _ _ _ _ _ _ h => by
    cases i with
    | some i => exact .block
    | none =>
      cases n with
      | none => exact .loop h.undeclaring
      | some e => exact .loop .block
  | _, _, _, _, .print _ _ _ => .print
  | _, _, _, _, .ret _ _ _ => .ret
  | _, _, _, _, .block _ _ _ => .block
  | _, _, _, _, .expression h => by
    cases h
    exact .expression

/-- Only a loop with three clauses starts with `for`. -/
theorem Statement.for_inv (h : Statement anyIf inside a ts s) (hfor : StartsWith [.kwFor] ts) :
    ∃ f : ForStatement, f.Written inside ts ∧ s = f.tree := by
  obtain ⟨t, us, rfl, hk⟩ := hfor
  rw [List.mem_singleton] at hk
  have other : ∀ {kind : Kind}, t.kind = kind → kind ≠ .kwFor → False :=
    fun h hne => hne (h.symm.trans hk)
  cases h with
  | expression h =>
    obtain ⟨u, vs, he, hu⟩ := h.starts
    cases he
    rw [hk] at hu
    exact absurd hu (by decide)
  | print h _ _ => exact (other h nofun).elim
  | ret h _ _ => exact (other h nofun).elim
  | block h _ _ => exact (other h nofun).elim
  | branch h _ _ _ _ => exact (other h nofun).elim
  | branchElse h _ _ _ _ _ _ _ => exact (other h nofun).elim
  | loop h _ _ _ _ => exact (other h nofun).elim
  | forLoop hfor hl hi hc hsemi hn hr hs =>
    exact ⟨⟨_, _, _, _⟩, .mk hfor hl hi hc hsemi hn hr hs, rfl⟩

end Grammar

/-! ## What is executed -/

/-- Clauses as they are read: no scope is mentioned, and the body declares nothing. -/
structure ForStatement.Plain (f : ForStatement) : Prop where
  initializer : Stmt.scopesOptional f.initializer = []
  condition : Expr.scopesOptional f.condition = []
  increment : Expr.scopesOptional f.increment = []
  body : f.body.scopes = []
  undeclaring : f.body.Undeclaring

theorem ForStatement.Written.plain {inside : Bool} {ts : List Token} {f : ForStatement}
    (h : f.Written inside ts) : f.Plain := by
  cases h with
  | mk _ _ hi hc _ hn _ hs =>
    have known : ∀ ts : List Token, ∀ t ∈ ts, (fun _ : Token => True) t := fun _ _ _ => trivial
    refine ⟨?_, ?_, ?_, ?_, hs.undeclaring⟩
    · have hfits := hi.fits (known _)
      generalize f.initializer = i at hfits
      cases i with
      | none => rfl
      | some s => exact (hfits s rfl).scopes
    · exact Expr.scopesOptional_eq_nil (hc.fits (known _))
    · exact Expr.scopesOptional_eq_nil (hn.fits (known _))
    · exact (hs.fits (known _)).scopes

/-- A statement on its own is a row of statements. -/
theorem Layer.sequence_singleton (l : Layer) (outer : Site) (first : Nat) (s : Stmt) :
    l.sequence outer first [s] = l.execute (first :: outer) s := by
  funext m
  rw [sequence, Action.bind_apply]
  cases l.execute (first :: outer) s m with
  | error halt m' => rfl
  | ok flow m' => cases flow <;> rfl

namespace ForStatement

variable {f : ForStatement} (hf : f.Plain) {host : Host} (hhost : host.Pure) {old : Nat}
  {w : Folding old} (site : Site)
include hf hhost

theorem acts_test (n : Nat) : w.Acts .reading Folding.Alike
    ((layer host (n + 1)).evaluate (f.condition.getD (.literal (.bool true))))
    (f.test (layer host (n + 1))) := by
  have hl := (Comparison.folding old).alike_layer hhost.alike (n + 1)
  have hc := hf.condition
  unfold test
  generalize f.condition = c at hc
  cases c with
  | none => exact .pure (.plain rfl)
  | some e => exact hl.evaluate ⟨rfl, .of_nil hc⟩

theorem acts_body (n : Nat) (site : Site) :
    w.Acts .reading (Comparison.folding old).FlowParts ((layer host n).execute site f.body)
      (execute host n site f.body) :=
  ((Comparison.folding old).alike_layer hhost.alike n).execute site
    (.reading (.of_nil hf.body) hf.undeclaring)

theorem acts_advance {e : Expr} (he : f.increment = some e) (n : Nat) (site : Site) :
    w.Acts .reading (Comparison.folding old).FlowParts
      ((layer host n).execute site (.expression e)) (f.advance (layer host (n - 1))) := by
  have hn := hf.increment
  rw [he] at hn
  unfold advance
  rw [he]
  cases n with
  | zero => exact .bind (R := fun _ _ _ => True) (.throw .outOfFuel) fun _ _ _ _ _ => .pure .normal
  | succ n =>
    have hl := (Comparison.folding old).alike_layer hhost.alike n
    exact .bind (hl.evaluate ⟨rfl, .of_nil hn⟩) fun _ _ _ _ _ => .pure .normal

/-- Body and increment make a round, in a passage as well as without it. -/
theorem acts_wrapped {e : Expr} (he : f.increment = some e) (n : Nat) :
    w.Acts .reading (Comparison.folding old).FlowParts
      ((layer host n).sequence (0 :: site) 0 [f.body, .expression e])
      (f.round host (n + 1) site) := by
  unfold round
  rw [show f.depth = 1 by rw [depth, he],
    show f.bodySite site = 0 :: 0 :: site by rw [bodySite, he]]
  refine .bind (acts_body hf hhost n (0 :: 0 :: site)) fun w' a b _ hab => ?_
  cases hab with
  | normal =>
    dsimp only
    rw [Layer.sequence_singleton]
    exact acts_advance hf hhost he n (1 :: 0 :: site)
  | returned hv => exact .pure (.returned hv)

theorem acts_round (n : Nat) : w.Acts .reading (Comparison.folding old).FlowParts
    ((layer host (n + 1)).execute (0 :: site) f.repeated) (f.round host (n + 1) site) := by
  cases he : f.increment with
  | some e =>
    rw [show f.repeated = .block [f.body, .expression e] by rw [repeated, he]]
    exact .passage fun w' _ => acts_wrapped hf hhost site he n
  | none =>
    unfold round
    rw [show f.repeated = f.body by rw [repeated, he], show f.depth = 0 by rw [depth, he],
      show f.bodySite site = 0 :: site by rw [bodySite, he]]
    have hbody := acts_body (w := w) hf hhost (n + 1) (0 :: site)
    rw [← bind_pure ((layer host (n + 1)).execute (0 :: site) f.body)]
    refine .bind hbody fun w' a b _ hab => ?_
    cases hab with
    | normal =>
      unfold advance
      rw [he]
      exact .pure .normal
    | returned hv => exact .pure (.returned hv)

theorem acts_rounds (n k : Nat) : w.Acts .reading (Comparison.folding old).FlowParts
    ((layer host (n + 1)).repeatWhile site (f.condition.getD (.literal (.bool true))) f.repeated k)
    (f.rounds host (n + 1) site k) := by
  induction k generalizing w with
  | zero => exact .throw .outOfFuel
  | succ k ih =>
    refine .bind (acts_test hf hhost n) fun w₁ v v' _ hv => ?_
    rw [show v'.truth = v.truth by rw [hv.image.1, Value.truth_relabel]]
    split
    · refine .bind (acts_round hf hhost site n) fun w₂ a b _ hab => ?_
      cases hab with
      | normal => exact ih
      | returned hv => exact .pure (.returned hv)
    · exact .pure .normal

theorem acts_loop (fuel : Nat) : w.Acts .reading (Comparison.folding old).FlowParts
    (execute host fuel site (.loop (f.condition.getD (.literal (.bool true))) f.repeated))
    (f.loop host site fuel) := by
  cases fuel with
  | zero => exact .throw .outOfFuel
  | succ n =>
    cases n with
    | zero => exact .throw .outOfFuel
    | succ n => exact acts_rounds hf hhost site n (n + 1)

theorem acts_tree (fuel : Nat) : w.Acts .reading (Comparison.folding old).FlowParts
    (execute host fuel site f.tree) (f.run host site fuel) := by
  cases fuel with
  | zero => exact .throw .outOfFuel
  | succ n =>
    unfold run
    have hi := hf.initializer
    cases he : f.initializer with
    | none =>
      have htree : f.tree =
          .loop (f.condition.getD (.literal (.bool true))) f.repeated := by
        rw [tree, he]
        rfl
      rw [htree]
      exact acts_loop hf hhost site (n + 1)
    | some s =>
      have htree : f.tree =
          .block [s, .loop (f.condition.getD (.literal (.bool true))) f.repeated] := by
        rw [tree, he]
        rfl
      rw [htree]
      rw [he] at hi
      have hl := (Comparison.folding old).alike_layer hhost.alike n
      refine .bind (Comparison.folding old).current fun w₁ m m' h₁ hm => ?_
      refine .bind (.openScope hm) fun w₂ i j h₂ hij => .inScope hij ?_
      refine .bind (hl.execute (0 :: site) (.declaring (.of_nil hi))) fun w₃ a b _ hab => ?_
      cases hab with
      | normal =>
        dsimp only
        rw [Layer.sequence_singleton]
        exact .of_reading Place.declaring_ne (acts_loop hf hhost (1 :: site) n)
      | returned hv => exact .pure (.returned hv)

end ForStatement

/-- A loop with a head of three clauses is read as a tree that does what the clauses say.  Both ways
end alike, whatever the fuel, with the same output and the same values everywhere, except that the
tree leaves passages behind.  The scope around body and increment never binds a name. -/
theorem forLoop_meaning {host : Host} (hhost : host.Pure) {bound : Nat} {s s' : Reading}
    {st : Stmt} (hs : s.stop.kind = .eof) (hfor : s.ahead.kind = .kwFor)
    (hrun : Parser.statement bound s = .ok st s') (hclean : s'.errors = s.errors) :
    ∃ (f : ForStatement) (ts : List Token), s.rest = ts ++ s'.rest ∧ f.Written s.inside ts ∧
      st = f.tree ∧ ∀ m : Machine, m.Closed → ∀ site fuel,
        (∃ w : Folding m.store.size,
          w.Ends w.Flows m m (execute host fuel site st m) (f.run host site fuel m)) ∧
        ∀ e ∈ f.increment, ∀ x,
          ((execute host fuel (0 :: site) (.block [f.body, .expression e])).after m).store.local?
            m.store.size x = none := by
  have hreads := Parser.sound_statement bound s hs
  unfold Parser.Reads at hreads
  rw [hrun] at hreads
  obtain ⟨ts, hrest, a, hst⟩ := hreads.2 hclean
  have hstarts : Grammar.StartsWith [.kwFor] ts := by
    obtain ⟨t, us, rfl, -⟩ := hst.starts
    refine ⟨t, us, rfl, ?_⟩
    rw [s.ahead_of_rest hrest] at hfor
    rw [hfor]
    exact List.mem_singleton_self _
  obtain ⟨f, hwritten, rfl⟩ := hst.for_inv hstarts
  have hf := hwritten.plain
  refine ⟨f, ts, hrest, hwritten, rfl, fun m hm site fuel => ⟨?_, fun e he x => ?_⟩⟩
  · obtain ⟨w, -, hends⟩ := ForStatement.acts_tree hf hhost site fuel m m (hm.matches_self .reading)
    exact ⟨w, hends.flows⟩
  · cases fuel with
    | zero =>
      show m.store.local? m.store.size x = none
      rw [Store.local?, Store.scopes_of_le (Nat.le_refl _)]
      rfl
    | succ n =>
      exact Folding.Acts.unbound_passage (hm.matches_self .reading)
        (ForStatement.acts_wrapped hf hhost site he n) x

/-- Whether a statement is read without faults and nothing is left behind it. -/
def Parser.readsAll (bound : Nat) (s : Reading) : Bool :=
  match statement bound s with
  | .ok _ s' => s'.rest.isEmpty && s'.errors.isEmpty
  | .error _ _ => false

/-- The start of reading a loop that prints once. -/
def printOnce : Reading :=
  ⟨(scan "for(var x=true;x;x=nil)print x;").tokens.dropLast, default, 0, []⟩

theorem forLoop_meaning_once :
    let m := ((Session.start none).run (.withClock 0) 20 "var y=1;").2.machine
    ∃ (f : ForStatement) (ts : List Token), printOnce.rest = ts ∧ f.Written false ts ∧
      ∃ w : Folding m.store.size,
        w.Ends w.Flows m m (execute (.withClock 0) 9 [0] f.tree m)
          (f.run (.withClock 0) [0] 9 m) := by
  have hread : Parser.readsAll 20 printOnce = true := by cbv
  unfold Parser.readsAll at hread
  cases hrun : Parser.statement 20 printOnce with
  | error e s' =>
    rw [hrun] at hread
    cases hread
  | ok st s' =>
    rw [hrun] at hread
    obtain ⟨hrest, herrors⟩ := Bool.and_eq_true_iff.mp hread
    obtain ⟨f, ts, hts, hwritten, rfl, h⟩ := forLoop_meaning (Host.pure_withClock 0) rfl
      (show printOnce.ahead.kind = .kwFor by cbv) hrun (List.isEmpty_iff.mp herrors)
    rw [List.isEmpty_iff.mp hrest, List.append_nil] at hts
    have hafter := Session.After.run 0 20 "var y=1;" (@Session.After.start none)
    exact ⟨f, ts, hts, hwritten, (h _ hafter.closed [0] 9).1⟩

end Lox
