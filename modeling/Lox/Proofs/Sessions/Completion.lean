import Mathlib
import Lox.Main
import Lox.Proofs.Evaluation.Returns
import Lox.Proofs.Grammar.Programs
import Lox.Proofs.Grammar.TopLevel

/-!
Programs are executed to their end.

A `return` would end a program early.  Sources in which one is outside of functions are rejected, so
the program of a source that is not rejected goes on from each of its statements to the next one.
-/

namespace Lox

/-- Executes statements in order, whatever they end with. -/
def Layer.each (l : Layer) (outer : Site) : Nat → List Stmt → Action Unit
  | _, [] => pure ()
  | first, s :: rest => do
    let _ ← l.execute (first :: outer) s
    l.each outer (first + 1) rest

namespace Layer

variable {l : Layer}

/-- Statements that end by themselves are all executed. -/
theorem sequence_eq_each (outer : Site) (first : Nat) {ss : List Stmt}
    (hss : ∀ s ∈ ss, ∀ site, Action.Falls (l.execute site s)) :
    (do let _ ← l.sequence outer first ss) = l.each outer first ss := by
  induction ss generalizing first with
  | nil => rfl
  | cons s ss ih =>
    obtain ⟨hs, hss⟩ := List.forall_mem_cons.mp hss
    funext m
    rw [sequence, each, ← ih (first + 1) hss]
    simp only [Action.bind_apply]
    cases hrun : l.execute (first :: outer) s m with
    | error halt m' => rfl
    | ok flow m' => rw [hs _ m flow m' hrun]

end Layer

namespace Grammar

/-- A keyword is reported with its own fault as often as it comes in the trees. -/
theorem reports_of_parse (tokens : List Token) :
    ((Stmt.returnsOfAll (parse tokens).statements).map fun t =>
      (t, ParseFault.topLevelReturn.message)).Sublist
      ((parse tokens).errors.map fun e => (e.token, e.fault.message)) := by
  have h := (returns_of_parse tokens).map fun t => (t, ParseFault.topLevelReturn.message)
  have hfault : ∀ e ∈ (parse tokens).errors.filter (·.fault = .topLevelReturn),
      (e.token, ParseFault.topLevelReturn.message) = (e.token, e.fault.message) := by
    intro e he
    have hf : e.fault = .topLevelReturn := by simpa using (List.mem_filter.mp he).2
    rw [hf]
  rw [List.map_map, Function.comp_def, List.map_congr_left hfault] at h
  exact h.trans (List.filter_sublist.map _)

end Grammar

/-- The statements of a source without faults end by themselves. -/
theorem Program.falls {source : String} (h : (ofSource source).diagnostics = []) (host : Host)
    (fuel : Nat) : ∀ s ∈ (ofSource source).statements, ∀ site,
      Action.Falls ((layer host fuel).execute site s) := by
  intro s hs site
  exact falls_execute host fuel site ((Program.derives h).returnless rfl s hs)

/-- Every `return` outside of functions is reported at its own keyword, since no function body is
around any declaration of a program, whether that is read or given up.  So a program without
faults never returns and is executed up to its end or the first halt. -/
theorem return_stays_inside :
    (∀ tokens : List Token,
      ((Stmt.returnsOfAll (parse tokens).statements).map fun t =>
        (t, "Can't return from top-level code.")).Sublist
        ((parse tokens).errors.map fun e => (e.token, e.fault.message)) ∧
      ∀ count, (Grammar.behind tokens count).depth = 0 ∧ ∀ bound,
        match Parser.declarationOf (bound + 1) (Parser.statement bound) (Parser.declaration bound)
          (Grammar.behind tokens count) with
        | .ok _ s => s.depth = 0
        | .error _ s => s.depth = 0) ∧
    ∀ source : String, (Program.ofSource source).diagnostics = [] →
      (∀ s ∈ (Program.ofSource source).statements, ∀ host fuel site m flow m',
        (layer host fuel).execute site s m = .ok flow m' → flow = .normal) ∧
      ∀ (session : Session) (host : Host) (fuel first : Nat),
        session.interpret host fuel first (Program.ofSource source).statements =
          session.perform
            ((layer host fuel).each [] first (Program.ofSource source).statements) := by
  refine ⟨fun tokens => ⟨Grammar.reports_of_parse tokens, fun count => ?_⟩,
    fun source h => ⟨?_, ?_⟩⟩
  · have hbehind := Grammar.outside_behind tokens count
    refine ⟨hbehind.depth, fun bound => ?_⟩
    have hreads := Parser.reads_declarationOf (Parser.sound_statement bound) (bound + 1)
      (Parser.sound_declaration bound) hbehind.stop
    unfold Parser.Reads at hreads
    split
    · next hrun =>
      rw [hrun] at hreads
      exact hreads.1.depth.trans hbehind.depth
    · next hrun =>
      rw [hrun] at hreads
      exact hreads.depth.trans hbehind.depth
  · intro s hs host fuel site
    exact Program.falls h host fuel s hs site
  · intro session host fuel first
    unfold Session.interpret
    rw [Layer.sequence_eq_each [] first (Program.falls h host fuel)]

/-- A function that returns makes no program return. -/
theorem return_stays_inside_call :
    let source := "fun f()\x7breturn;\x7df();"
    (Program.ofSource source).diagnostics = [] ∧
    (Session.start none).interpret (.withClock 0) 20 0 (Program.ofSource source).statements =
      (Session.start none).perform
        ((layer (.withClock 0) 20).each [] 0 (Program.ofSource source).statements) := by
  have h : (Program.ofSource "fun f()\x7breturn;\x7df();").diagnostics = [] := by cbv
  exact ⟨h, (return_stays_inside.2 _ h).2 _ _ _ _⟩

end Lox
