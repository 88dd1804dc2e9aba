import Mathlib
import Lox.Main
import Lox.Proofs.Grammar.Programs
import Lox.Proofs.Sessions.Running

/-!
Running a program in pieces.

Two sources that run one after the other do what they do as one source with a newline in between.
The tokens of the second one then stand further down, and functions keep them, so a session holds
trees whose lines differ.  To tell which tokens those are, both runs are compared with a third one,
whose tokens carry a mark: the lines of the second source are odd there, and all others are even.
-/

namespace Lox

/-! ## Marked lines -/

namespace Relabeling

/-- Changes the lines of tokens. -/
def lines (f : Nat → Nat) : Relabeling := ⟨fun t => { t with line := f t.line }, fun s => s⟩

def even : Relabeling := lines (2 * ·)

def odd : Relabeling := lines (2 * · + 1)

/-- Takes the marks away and moves the tokens with odd lines down. -/
def unmark (k : Nat) : Relabeling := lines fun l => l / 2 + k * (l % 2)

theorem faithful_lines (f : Nat → Nat) : (lines f).Faithful everywhere :=
  ⟨fun _ => rfl, fun _ => rfl, fun _ _ _ _ h => h⟩

theorem faithful_unmark (k : Nat) : (unmark k).Faithful everywhere := faithful_lines _

theorem unmark_even (k : Nat) : (unmark k).Undoes even where
  token t := by
    have hline : 2 * t.line / 2 + k * (2 * t.line % 2) = t.line := by
      rw [Nat.mul_mod_right, Nat.mul_zero, Nat.add_zero, Nat.mul_div_cancel_left _ Nat.two_pos]
    exact congrArg (fun l => { t with line := l }) hline
  scope _ := rfl
  scope' _ := rfl

end Relabeling

theorem Host.respects_withClock (seconds : Float) (r : Relabeling) (L : ScopeId → Prop) :
    (Host.withClock seconds).Respects r L := by
  rintro entry vs ws _
  unfold Host.withClock
  split
  · exact ⟨rfl, .nil⟩
  · exact ⟨rfl, .nil⟩

/-! ## What later runs show -/

/-- What a run shows: how it ended, its messages, and all the text so far. -/
structure Shown where
  outcome : Outcome
  messages : List String
  text : String

namespace Session

/-- What sources show that run one after the other. -/
def shown (s : Session) (host : Host) (fuel : Nat) : List String → List Shown
  | [] => []
  | source :: rest =>
    let (report, s') := s.run host fuel source
    ⟨report.outcome, report.diagnostics.map Diagnostic.message, s'.machine.sink.text⟩ ::
      s'.shown host fuel rest

/-- Whether two sessions differ in how far down some tokens stand, and in nothing else. -/
def Alike (k : Nat) (s t : Session) : Prop :=
  ∃ u : Session, u.Mirrors (.unmark 0) s ∧ u.Mirrors (.unmark k) t

end Session

theorem Report.messages_relabel (r : Relabeling) (report : Report) :
    (report.relabel r).diagnostics.map Diagnostic.message =
      report.diagnostics.map Diagnostic.message := by
  rw [relabel, List.map_map]
  refine List.map_congr_left fun d _ => ?_
  cases d <;> rfl

namespace Session

open Relabeling

variable {s t : Session} {k : Nat} (seconds : Float) (fuel : Nat)

/-- Statements whose tokens are not to be moved. -/
theorem execute_even (h : s.Mirrors (unmark k) t) (ss : List Stmt) :
    let marked := s.execute (.withClock seconds) fuel (Stmt.relabelAll even ss)
    let plain := t.execute (.withClock seconds) fuel ss
    plain.1 = marked.1.relabel (unmark k) ∧ marked.2.Mirrors (unmark k) plain.2 := by
  have hrun := execute_mirrors (faithful_unmark k) (Host.respects_withClock seconds _ _) h fuel
    (Stmt.relabelAll even ss)
  rwa [Stmt.relabelAll_undo (unmark_even k)] at hrun

/-- A source does the same in two sessions that are alike, and leaves them alike. -/
theorem Alike.run (h : s.Alike k t) (source : String) :
    let one := s.run (.withClock seconds) fuel source
    let two := t.run (.withClock seconds) fuel source
    one.1.outcome = two.1.outcome ∧
      one.1.diagnostics.map Diagnostic.message = two.1.diagnostics.map Diagnostic.message ∧
      one.2.Alike k two.2 := by
  obtain ⟨u, hs, ht⟩ := h
  by_cases hclean : (Program.ofSource source).diagnostics = []
  · rw [run_of_clean _ _ _ hclean, run_of_clean _ _ _ hclean]
    have hone := execute_even seconds fuel hs (Program.ofSource source).statements
    have htwo := execute_even seconds fuel ht (Program.ofSource source).statements
    dsimp only at hone htwo ⊢
    refine ⟨?_, ?_, _, hone.2, htwo.2⟩
    · rw [hone.1, htwo.1]
      rfl
    · rw [hone.1, htwo.1, Report.messages_relabel, Report.messages_relabel]
  · rw [run_of_faulty _ _ _ hclean, run_of_faulty _ _ _ hclean]
    exact ⟨rfl, rfl, u, hs, ht⟩

theorem Alike.sink (h : s.Alike k t) : s.machine.sink = t.machine.sink := by
  obtain ⟨u, hs, ht⟩ := h
  rw [hs.machine.sink, ht.machine.sink]

theorem Alike.shown (h : s.Alike k t) (later : List String) :
    s.shown (.withClock seconds) fuel later = t.shown (.withClock seconds) fuel later := by
  induction later generalizing s t with
  | nil => rfl
  | cons source rest ih =>
    obtain ⟨houtcome, hmessages, halike⟩ := h.run seconds fuel source
    unfold Session.shown
    dsimp only
    rw [houtcome, hmessages, halike.sink, ih halike]

end Session

/-! ## Where a blamed token comes from -/

namespace Relabeling

end Relabeling

namespace Session

open Relabeling Grammar

variable (s : Session) (seconds : Float) (fuel : Nat) (as bs : List Stmt)

/-- A run of two programs with marked tokens. -/
def marked : Report × Session :=
  let first := (s.relabel even).execute (.withClock seconds) fuel (Stmt.relabelAll even as)
  first.2.execute (.withClock seconds) fuel (Stmt.relabelAll odd bs)

end Session

end Lox
