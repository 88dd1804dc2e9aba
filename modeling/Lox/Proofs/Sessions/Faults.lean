import Mathlib
import Lox.Main
import Lox.Proofs.Comparison.Faults
import Lox.Proofs.Grammar.Programs
import Lox.Proofs.Scopes.Restoration
import Lox.Proofs.Sessions.Running

/-!
The faults that a session reports.

Functions outlive the source that declared them, so a source may fail at a token of an earlier one.
What a session holds after any number of sources is sound for the tokens of all that were executed,
whichever of them that is.
-/

namespace Lox

/-- The tokens in the program of a source, if that is executed. -/
def Program.Stores (source : String) (t : Token) : Prop :=
  (ofSource source).diagnostics = [] ∧ t ∈ Stmt.tokensOfAll (ofSource source).statements

theorem Host.alike_withClock (seconds : Float) (T : Token → Prop) :
    (Host.withClock seconds).Alike (Comparison.faults T).toLikeness := by
  intro w entry vs vs' _
  refine ⟨rfl, Value.sound_of_arity? ?_⟩
  unfold Host.withClock
  split <;> rfl

namespace Session

variable {breakage : Option Breakage} {sources : List String} {s : Session} {T : Token → Prop}

/-- Running a source keeps a session sound and ends in a documented way. -/
theorem blames_run (hs : s.machine.Sound T) (seconds : Float) (fuel : Nat) {source : String}
    (hT : ∀ t, Program.Stores source t → T t) :
    let (report, s') := s.run (.withClock seconds) fuel source
    s'.machine.Sound T ∧ ∀ t message, .runtime t message ∈ report.diagnostics →
      T t ∧ Documented t message := by
  by_cases hclean : (Program.ofSource source).diagnostics = []
  · have hfits := (Program.derives hclean).fits fun t ht => hT t ⟨hclean, ht⟩
    have halike := (Comparison.faults T).alike_layer (Host.alike_withClock seconds T) fuel
    have hblames : Blames T _ _ _ := Layer.alike_sequence halike [] s.loaded (w := ())
      (List.forall₂_same.mpr fun st hst => ⟨rfl, rfl, hfits st hst⟩)
    have h := hblames s.machine hs
    rw [run_of_clean s _ fuel hclean]
    unfold execute
    cases hrun : (layer (.withClock seconds) fuel).sequence [] s.loaded
        (Program.ofSource source).statements s.machine with
    | ok flow m =>
      rw [hrun] at h
      exact ⟨h.1, fun _ _ hd => nomatch hd⟩
    | error halt m =>
      rw [hrun] at h
      cases halt with
      | outOfFuel => exact ⟨h.1, fun _ _ hd => nomatch hd⟩
      | fault e =>
        refine ⟨h.1, fun t message hd => ?_⟩
        cases List.mem_singleton.mp hd
        exact h.2.2
  · rw [run_of_faulty s _ fuel hclean]
    refine ⟨hs, fun t message hd => ?_⟩
    simp [Program.ofSource, ScanError.diagnostic, ParseError.diagnostic, Diagnostic.parseAt] at hd

theorem After.sound (h : After breakage sources s)
    (hT : ∀ source ∈ sources, ∀ t, Program.Stores source t → T t) : s.machine.Sound T := by
  induction h with
  | start =>
    intro i x v hv
    rw [Session.local?_start hv]
    exact Nat.zero_le _
  | run seconds fuel source _ ih =>
    rw [List.forall_mem_append, List.forall_mem_singleton] at hT
    exact (blames_run (ih hT.1) seconds fuel hT.2).1
  | drain _ ih => exact ih hT

end Session

/-- Every fault of a running program is one of the documented ones, and it is blamed on a token in
the program of this source or an earlier one. -/
theorem runtime_faults_documented {breakage : Option Breakage} {sources : List String} {s : Session}
    (h : s.After breakage sources) (seconds : Float) (fuel : Nat) (source : String) {t : Token}
    {message : String}
    (hreport : .runtime t message ∈ (s.run (.withClock seconds) fuel source).1.diagnostics) :
    (∃ executed ∈ sources ++ [source], Program.Stores executed t) ∧ Documented t message ∧
      ∀ rest, message ≠ "Unknown operator" ++ rest := by
  have hsound := h.sound (T := fun t => ∃ executed ∈ sources ++ [source], Program.Stores executed t)
    fun executed hmem t ht => ⟨executed, List.mem_append_left _ hmem, ht⟩
  obtain ⟨hstored, hdocumented⟩ := (Session.blames_run hsound seconds fuel fun t ht =>
    ⟨source, List.mem_append_right _ (List.mem_singleton_self _), ht⟩).2 t message hreport
  exact ⟨hstored, hdocumented, hdocumented.not_unknown⟩

/-- A call fails at a token of the source that declared the function. -/
theorem runtime_faults_documented_later :
    let minus : Token := ⟨.bare .minus, "-", 1, 10⟩
    let first := "fun f() \x7b-nil;\x7d"
    let one := (Session.start none).run (.withClock 0) 20 first
    .runtime minus "Operand must be a number." ∈
        (one.2.run (.withClock 0) 20 "f();").1.diagnostics ∧
      ∃ executed ∈ [first, "f();"], Program.Stores executed minus := by
  have hreport : ((((Session.start none).run (.withClock 0) 20 "fun f() \x7b-nil;\x7d").2.run
      (.withClock 0) 20 "f();").1.diagnostics) =
      [.runtime ⟨.bare .minus, "-", 1, 10⟩ "Operand must be a number."] := by cbv
  have hmem := hreport ▸ List.mem_singleton_self _
  have hafter := Session.After.run 0 20 "fun f() \x7b-nil;\x7d" (@Session.After.start none)
  exact ⟨hmem, (runtime_faults_documented hafter 0 20 "f();" hmem).1⟩

end Lox
