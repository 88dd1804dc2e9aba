import Mathlib
import Lox.Collector
import Lox.Main
import Lox.Proofs.Sessions.Running

/-!
What a run reports, and what a rejected run leaves behind.

A run with a collector does what a run without one does, and its report goes behind whatever the
collector held.  A source that is rejected leaves nothing else behind, so the runs around it show
the same without it.
-/

namespace Lox
namespace Collector

theorem entries_reportAll (c : Collector) (ds : List Diagnostic) :
    (c.reportAll ds).entries = c.entries ++ ds := by
  induction ds generalizing c with
  | nil => exact (List.append_nil _).symm
  | cons d ds ih =>
    show ((c.report d).reportAll ds).entries = _
    rw [ih, report, List.append_assoc, List.singleton_append]

theorem since_size {c after : Collector} {ds : List Diagnostic}
    (h : after.entries = c.entries ++ ds) : after.since c.size = ds := by
  rw [since, size, h, List.drop_left]

end Collector

/-! ## One run -/

namespace Program

theorem readInto_eq (c : Collector) (source : String) :
    (readInto c source).1 = (ofSource source).statements ∧
      (readInto c source).2.entries = c.entries ++ (ofSource source).diagnostics := by
  constructor
  · rfl
  · show ((c.reportAll _).reportAll _).entries = c.entries ++ (_ ++ _)
    rw [Collector.entries_reportAll, Collector.entries_reportAll, List.append_assoc]

/-- Every fault of a text is found without running it. -/
theorem static_of_mem {source : String} {d : Diagnostic} (h : d ∈ (ofSource source).diagnostics) :
    d.isStatic = true := by
  rcases List.mem_append.mp h with h | h
  · obtain ⟨e, -, rfl⟩ := List.mem_map.mp h
    rfl
  · obtain ⟨e, -, rfl⟩ := List.mem_map.mp h
    rfl

theorem any_isStatic (source : String) :
    (ofSource source).diagnostics.any Diagnostic.isStatic =
      !(ofSource source).diagnostics.isEmpty := by
  cases h : (ofSource source).diagnostics with
  | nil => rfl
  | cons d ds =>
    have hd : d.isStatic = true := static_of_mem (h ▸ List.mem_cons_self)
    rw [List.any_cons, hd]
    rfl

end Program

namespace Session

variable (s : Session) (host : Host) (fuel : Nat) (c : Collector) (source : String)

theorem runInto_of_clean (h : (Program.ofSource source).diagnostics = []) :
    s.runInto host fuel c source =
      let (report, s') := s.execute host fuel (Program.ofSource source).statements
      (report.outcome, ⟨c.entries ++ report.diagnostics⟩, s') := by
  obtain ⟨hstatements, hentries⟩ := Program.readInto_eq c source
  have hsince := Collector.since_size hentries
  rw [h, List.append_nil] at hentries
  have hafter : (Program.readInto c source).2 = c := congrArg Collector.mk hentries
  unfold runInto interpret perform execute
  dsimp only [load]
  rw [hsince, h, hstatements, hafter, Action.bind_apply, if_neg (by decide)]
  cases (layer host fuel).sequence [] s.loaded (Program.ofSource source).statements s.machine with
  | ok flow m =>
    dsimp only
    rw [List.append_nil]
    rfl
  | error halt m =>
    cases halt with
    | fault e => rfl
    | outOfFuel =>
      dsimp only
      rw [List.append_nil]

theorem runInto_of_faulty (h : (Program.ofSource source).diagnostics ≠ []) :
    s.runInto host fuel c source =
      (.rejected, ⟨c.entries ++ (Program.ofSource source).diagnostics⟩, s) := by
  obtain ⟨-, hentries⟩ := Program.readInto_eq c source
  have hsince := Collector.since_size hentries
  have hstatic : (Program.ofSource source).diagnostics.any Diagnostic.isStatic = true := by
    rw [Program.any_isStatic, List.isEmpty_eq_false_iff.mpr h]
    rfl
  have hafter := congrArg Collector.mk hentries
  unfold runInto
  dsimp only
  rw [hsince, if_pos hstatic]
  exact congrArg (fun after => (Outcome.rejected, after, s)) hafter

/-- The collector has no say in a run, and the report of the run goes behind what it held. -/
theorem runInto_eq : s.runInto host fuel c source =
    ((s.run host fuel source).1.outcome,
      ⟨c.entries ++ (s.run host fuel source).1.diagnostics⟩, (s.run host fuel source).2) := by
  by_cases h : (Program.ofSource source).diagnostics = []
  · rw [s.runInto_of_clean host fuel c source h, s.run_of_clean host fuel h]
  · rw [s.runInto_of_faulty host fuel c source h, s.run_of_faulty host fuel h]

/-- How a run ends, and what it reports then. -/
theorem run_cases :
    (s.run host fuel source).1.outcome = .rejected ∧
        (s.run host fuel source).1.diagnostics = (Program.ofSource source).diagnostics ∧
        (Program.ofSource source).diagnostics ≠ [] ∧ (s.run host fuel source).2 = s ∨
      (s.run host fuel source).1.outcome = .failed ∧ (Program.ofSource source).diagnostics = [] ∧
        (∃ t message, (s.run host fuel source).1.diagnostics = [.runtime t message]) ∨
      ((s.run host fuel source).1.outcome = .completed ∨
          (s.run host fuel source).1.outcome = .outOfFuel) ∧
        (Program.ofSource source).diagnostics = [] ∧
        (s.run host fuel source).1.diagnostics = [] := by
  by_cases hclean : (Program.ofSource source).diagnostics = []
  · rw [run_of_clean s host fuel hclean]
    unfold execute
    cases (layer host fuel).sequence [] s.loaded (Program.ofSource source).statements
        s.machine with
    | ok flow m => exact .inr (.inr ⟨.inl rfl, hclean, rfl⟩)
    | error halt m =>
      cases halt with
      | fault e => exact .inr (.inl ⟨rfl, hclean, e.token, e.message, rfl⟩)
      | outOfFuel => exact .inr (.inr ⟨.inr rfl, hclean, rfl⟩)
  · rw [run_of_faulty s host fuel hclean]
    exact .inl ⟨rfl, rfl, hclean, rfl⟩

/-! ## Many runs -/

/-- What the first source shows, and the session behind it. -/
theorem turns_cons (rest : List String) : s.turns host fuel c (source :: rest) =
    ⟨(s.drain.2.run host fuel source).1.outcome, (s.drain.2.run host fuel source).1.diagnostics,
        (s.drain.2.run host fuel source).2.machine.sink.text⟩ ::
      (s.drain.2.run host fuel source).2.turns host fuel
        ⟨c.entries ++ (s.drain.2.run host fuel source).1.diagnostics⟩ rest := by
  rw [turns, runInto_eq]
  dsimp only
  rw [Collector.since_size rfl]

/-- What was reported before has no influence. -/
theorem turns_collector (c' : Collector) (sources : List String) :
    s.turns host fuel c sources = s.turns host fuel c' sources := by
  induction sources generalizing s c c' with
  | nil => rfl
  | cons source rest ih =>
    rw [turns_cons, turns_cons]
    exact congrArg (List.cons _) (ih _ _ _)

/-- Neither has what was printed before. -/
theorem turns_drain (sources : List String) :
    s.drain.2.turns host fuel c sources = s.turns host fuel c sources := by
  cases sources with
  | nil => rfl
  | cons source rest =>
    rw [turns_cons, turns_cons]
    rfl

/-- The turns of the sources that are kept. -/
def keptTurns (marked : List (String × Bool)) : List Turn :=
  (((s.turns host fuel c (marked.map Prod.fst)).zip (marked.map Prod.snd)).filter Prod.snd).map
    Prod.fst

/-- Sources that are rejected when it is their turn may as well not be run. -/
theorem turns_filter {marked : List (String × Bool)}
    (h : ∀ p ∈ (s.turns host fuel c (marked.map Prod.fst)).zip (marked.map Prod.snd),
      p.2 = false → p.1.outcome = .rejected) :
    s.turns host fuel c ((marked.filter Prod.snd).map Prod.fst) =
      s.keptTurns host fuel c marked := by
  induction marked generalizing s c with
  | nil => rfl
  | cons mark marked ih =>
    obtain ⟨source, kept⟩ := mark
    unfold keptTurns
    rw [List.map_cons, List.map_cons, turns_cons, List.zip_cons_cons] at h ⊢
    obtain ⟨hfirst, hrest⟩ := List.forall_mem_cons.mp h
    have hturns := ih _ _ hrest
    unfold keptTurns at hturns
    cases kept with
    | true =>
      rw [List.filter_cons_of_pos rfl, List.filter_cons_of_pos rfl, List.map_cons, List.map_cons,
        turns_cons, hturns]
    | false =>
      rw [List.filter_cons_of_neg Bool.false_ne_true, List.filter_cons_of_neg Bool.false_ne_true,
        ← hturns]
      -- The source was rejected, so the session behind it is the one in front of it.
      have hsame : (s.drain.2.run host fuel source).2 = s.drain.2 := by
        rcases s.drain.2.run_cases host fuel source with hcase | hcase | hcase
        · exact hcase.2.2.2
        · rw [hcase.1] at hfirst
          exact nomatch hfirst rfl
        · have houtcome := hfirst rfl
          rcases hcase.1 with hcase | hcase <;> rw [hcase] at houtcome <;> exact nomatch houtcome
      rw [hsame, turns_drain]
      exact turns_collector _ _ _ _ _ _

end Session

/-- A run adds its report to the collector and decides by it how it ended.  What is rejected leaves
the session as it was, so runs that are rejected can be left out of any row of runs: the others end
in the same way, report the same and print the same. -/
theorem run_reports (host : Host) (fuel : Nat) (s : Session) (c : Collector) :
    (∀ source : String, ∃ failures : List Diagnostic,
      let spelling := (scan source).errors.map ScanError.diagnostic
      let grammar := (parse (scan source).tokens).errors.map ParseError.diagnostic
      let added := spelling ++ grammar ++ failures
      let (outcome, after, s') := s.runInto host fuel c source
      after.entries = c.entries ++ added ∧
      (failures = [] ∨ spelling ++ grammar = [] ∧ ∃ t message, failures = [.runtime t message]) ∧
      (outcome = .rejected ↔ ∃ d ∈ added, d.isStatic = true) ∧
      (outcome = .failed ↔ ∃ t message, added = [.runtime t message]) ∧
      (outcome = .completed ∨ outcome = .outOfFuel ↔ added = []) ∧
      (outcome = .rejected → s' = s)) ∧
    ∀ marked : List (String × Bool),
      (∀ p ∈ (s.turns host fuel c (marked.map Prod.fst)).zip (marked.map Prod.snd),
        p.2 = false → p.1.outcome = .rejected) →
      s.turns host fuel c ((marked.filter Prod.snd).map Prod.fst) =
        s.keptTurns host fuel c marked := by
  refine ⟨fun source => ?_, fun marked => s.turns_filter host fuel c⟩
  have hstatic : ∀ d ∈ (Program.ofSource source).diagnostics, d.isStatic = true :=
    fun d => Program.static_of_mem
  have htexts : (scan source).errors.map ScanError.diagnostic ++
      (parse (scan source).tokens).errors.map ParseError.diagnostic =
        (Program.ofSource source).diagnostics := rfl
  rw [s.runInto_eq host fuel c source]
  dsimp only
  rw [htexts]
  rcases s.run_cases host fuel source with
    ⟨houtcome, hreport, hne, hsame⟩ | ⟨houtcome, hclean, t, message, hreport⟩ |
    ⟨houtcome, hclean, hreport⟩
  · refine ⟨[], ?_⟩
    rw [List.append_nil, houtcome, hreport]
    obtain ⟨d, hd⟩ := List.exists_mem_of_ne_nil _ hne
    have hruntime : ¬∃ t message, (Program.ofSource source).diagnostics = [.runtime t message] := by
      intro ⟨t, message, h⟩
      have := hstatic (.runtime t message) (h ▸ List.mem_singleton_self _)
      exact nomatch this
    exact ⟨rfl, .inl rfl, ⟨fun _ => ⟨d, hd, hstatic d hd⟩, fun _ => rfl⟩,
      ⟨nofun, fun h => absurd h hruntime⟩, ⟨nofun, fun h => absurd h hne⟩, fun _ => hsame⟩
  · refine ⟨[.runtime t message], ?_⟩
    rw [houtcome, hreport, hclean, List.nil_append]
    have hnone : ¬∃ d ∈ [Diagnostic.runtime t message], d.isStatic = true := by
      intro ⟨d, hd, h⟩
      rw [List.mem_singleton.mp hd] at h
      exact nomatch h
    exact ⟨rfl, .inr ⟨rfl, t, message, rfl⟩, ⟨nofun, fun h => absurd h hnone⟩,
      ⟨fun _ => ⟨t, message, rfl⟩, fun _ => rfl⟩, ⟨nofun, nofun⟩, nofun⟩
  · refine ⟨[], ?_⟩
    rw [hreport, hclean, List.append_nil, List.append_nil]
    have hrejected : (s.run host fuel source).1.outcome ≠ .rejected := by
      rcases houtcome with h | h <;> rw [h] <;> exact nofun
    have hfailed : (s.run host fuel source).1.outcome ≠ .failed := by
      rcases houtcome with h | h <;> rw [h] <;> exact nofun
    refine ⟨(List.append_nil _).symm, .inl rfl, ⟨fun h => absurd h hrejected, nofun⟩,
      ⟨fun h => absurd h hfailed, nofun⟩, ⟨fun _ => rfl, fun _ => houtcome⟩, ?_⟩
    exact fun h => absurd h hrejected

/-- A rejected source between two others, on a collector that is not empty. -/
theorem run_reports_between :
    let s := Session.start none
    let c := Collector.empty.report (.scan 1 1 "Unexpected character.")
    let marked := [("var x = true;", true), ("print x; )", false), ("print x;", true)]
    (∀ p ∈ (s.turns (.withClock 0) 20 c (marked.map Prod.fst)).zip (marked.map Prod.snd),
      p.2 = false → p.1.outcome = .rejected) ∧
    s.turns (.withClock 0) 20 c ["var x = true;", "print x;"] =
      s.keptTurns (.withClock 0) 20 c marked := by
  intro s c marked
  have hall : ((s.turns (.withClock 0) 20 c (marked.map Prod.fst)).zip
      (marked.map Prod.snd)).all (fun p => p.2 || p.1.outcome == .rejected) = true := by cbv
  have h : ∀ p ∈ (s.turns (.withClock 0) 20 c (marked.map Prod.fst)).zip (marked.map Prod.snd),
      p.2 = false → p.1.outcome = .rejected := by
    intro p hp hdeleted
    have hp := List.all_eq_true.mp hall p hp
    rw [hdeleted, Bool.false_or] at hp
    exact eq_of_beq hp
  exact ⟨h, (run_reports (.withClock 0) 20 s c).2 marked h⟩

end Lox
