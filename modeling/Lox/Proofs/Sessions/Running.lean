import Lox.Main
import Lox.Proofs.Evaluation.Returns
import Lox.Proofs.Relabeling.Evaluation

/-!
Running programs in sessions.

A source without faults is run by executing its statements.  Statements that stand behind others are
executed as if they came from a source of their own, and relabeled statements in a session that
mirrors another one give the relabeled report.
-/

namespace Lox

/-- A session after some sources.  The text that was printed may be taken away between them. -/
inductive Session.After (breakage : Option Breakage) : List String → Session → Prop
  | start : After breakage [] (.start breakage)
  | run {sources : List String} {s : Session} (seconds : Float) (fuel : Nat) (source : String) :
      After breakage sources s →
      After breakage (sources ++ [source]) (s.run (.withClock seconds) fuel source).2
  | drain {sources : List String} {s : Session} : After breakage sources s →
      After breakage sources s.drain.2

/-! ## Executing statements -/

namespace Session

variable {s t : Session} {host : Host} {fuel : Nat} {ss us : List Stmt} {source : String}

/-- What a run does with the statements of a source without faults. -/
def execute (s : Session) (host : Host) (fuel : Nat) (ss : List Stmt) : Report × Session :=
  match (layer host fuel).sequence [] s.loaded ss s.machine with
  | .ok _ m => (⟨.completed, []⟩, ⟨m, s.loaded + ss.length⟩)
  | .error (.fault e) m => (⟨.failed, [e.diagnostic]⟩, ⟨m, s.loaded + ss.length⟩)
  | .error .outOfFuel m => (⟨.outOfFuel, []⟩, ⟨m, s.loaded + ss.length⟩)

theorem run_of_clean (s : Session) (host : Host) (fuel : Nat)
    (h : (Program.ofSource source).diagnostics = []) :
    s.run host fuel source = s.execute host fuel (Program.ofSource source).statements := by
  unfold run interpret perform execute
  dsimp only [load]
  rw [h, List.isEmpty_nil, if_pos rfl, Action.bind_apply]
  cases (layer host fuel).sequence [] s.loaded (Program.ofSource source).statements s.machine with
  | ok flow m => rfl
  | error halt m => cases halt <;> rfl

theorem run_of_faulty (s : Session) (host : Host) (fuel : Nat)
    (h : (Program.ofSource source).diagnostics ≠ []) :
    s.run host fuel source = (⟨.rejected, (Program.ofSource source).diagnostics⟩, s) := by
  unfold run
  dsimp only
  rw [if_neg (mt List.isEmpty_iff.mp h)]

theorem machine_execute (s : Session) (host : Host) (fuel : Nat) (ss : List Stmt) :
    (s.execute host fuel ss).2.machine =
      ((layer host fuel).sequence [] s.loaded ss).after s.machine := by
  unfold execute Action.after
  cases (layer host fuel).sequence [] s.loaded ss s.machine with
  | ok flow m => rfl
  | error halt m => cases halt <;> rfl

end Session

namespace Session

variable {s t : Session} {host : Host} {fuel : Nat} {ss us : List Stmt}

end Session

/-! ## Sessions that mirror one another -/

def Diagnostic.relabel (r : Relabeling) : Diagnostic → Diagnostic
  | .runtime t message => .runtime (r.token t) message
  | d => d

def Report.relabel (r : Relabeling) (report : Report) : Report :=
  { report with diagnostics := report.diagnostics.map (·.relabel r) }

/-- Whether the second session is what a relabeling makes of the first one. -/
structure Session.Mirrors (r : Relabeling) (s t : Session) : Prop where
  machine : s.machine.Mirrors True r everywhere t.machine
  loaded : t.loaded = s.loaded

def Session.relabel (r : Relabeling) (s : Session) : Session :=
  { s with machine := { s.machine with store := s.machine.store.relabel r } }

section

variable {r q : Relabeling} {host : Host}

theorem RuntimeError.diagnostic_relabel (hr : r.Faithful everywhere) (e : RuntimeError) :
    (e.relabel r).diagnostic = e.diagnostic.relabel r := by
  obtain ⟨t, fault⟩ := e
  have hmessage :
      (RuntimeError.mk (r.token t) fault).message = (RuntimeError.mk t fault).message := by
    unfold message
    cases fault <;> first | rfl | simp only [hr.lexeme]
  exact congrArg (Diagnostic.runtime (r.token t)) hmessage

/-- The relabeled program reports the relabeled diagnostic, and the sessions go on to mirror one
another. -/
theorem Session.execute_mirrors (hr : r.Faithful everywhere) (hh : host.Respects r everywhere)
    {s t : Session} (h : s.Mirrors r t) (fuel : Nat) (ss : List Stmt) :
    (t.execute host fuel (Stmt.relabelAll r ss)).1 = (s.execute host fuel ss).1.relabel r ∧
      (s.execute host fuel ss).2.Mirrors r (t.execute host fuel (Stmt.relabelAll r ss)).2 := by
  have hends := Layer.tandem_sequence (respects_layer hr hh fuel) [] s.loaded ss
    (fun _ _ => trivial) s.machine t.machine h.machine
  have hlength : (Stmt.relabelAll r ss).length = ss.length := by
    rw [Stmt.relabelAll_eq, List.length_map]
  unfold execute
  rw [h.loaded, hlength]
  generalize (layer host fuel).sequence [] s.loaded ss s.machine = x at hends ⊢
  generalize (layer host fuel).sequence [] s.loaded (Stmt.relabelAll r ss) t.machine = y at hends ⊢
  cases hends with
  | ok _ hadv => exact ⟨rfl, hadv.mirrors h.machine, rfl⟩
  | @error halt _ _ hadv =>
    cases halt with
    | outOfFuel => exact ⟨rfl, hadv.mirrors h.machine, rfl⟩
    | fault e =>
      refine ⟨?_, hadv.mirrors h.machine, rfl⟩
      show (⟨.failed, [(e.relabel r).diagnostic]⟩ : Report) = _
      rw [RuntimeError.diagnostic_relabel hr]
      rfl

end

end Lox
