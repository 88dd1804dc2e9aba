import Mathlib
import Lox.Proofs.Printing.Truncation
import Lox.Proofs.Sessions.Reporting

/-!
Scripts on the command line.

Running a script and listing it read the text in the same way, so they reject the same scripts with
the same report.  A script that is not rejected is listed whole, and run as far as it goes.
-/

namespace Lox

/-- Texts, each on a line of its own. -/
def onLines (texts : List String) : String := String.join (texts.map (· ++ "\n"))

theorem foldr_lines {α : Type} (text : α → String) (as : List α) :
    as.foldr (fun a rest => text a ++ "\n" ++ rest) "" = onLines (as.map text) := by
  induction as with
  | nil => rfl
  | cons a as ih =>
    rw [List.foldr_cons, ih, List.map_cons, onLines, onLines, List.map_cons, String.join_cons]

theorem listing_eq (ds : List Diagnostic) : listing ds = onLines (ds.map Diagnostic.text) :=
  foldr_lines Diagnostic.text ds

theorem onLines_singleton (text : String) : onLines [text] = text ++ "\n" := by
  rw [onLines, List.map_singleton, String.join_cons, String.join_nil, String.append_empty]

/-! ## Runs by the end of their statements -/

/-- What a run reports whose statements ended in this way. -/
def Report.ofEnd : Except Halt Unit → Report
  | .ok () => ⟨.completed, []⟩
  | .error (.fault e) => ⟨.failed, [e.diagnostic]⟩
  | .error .outOfFuel => ⟨.outOfFuel, []⟩

namespace Session

variable {s : Session} {host : Host} {fuel : Nat} {source : String}

theorem run_of_interpret (s : Session) (host : Host) (fuel : Nat)
    (h : (Program.ofSource source).diagnostics = []) :
    (s.run host fuel source).1 = .ofEnd
        (s.interpret host fuel s.loaded (Program.ofSource source).statements).1 ∧
      (s.run host fuel source).2.machine =
        (s.interpret host fuel s.loaded (Program.ofSource source).statements).2.machine := by
  rw [run_of_clean s host fuel h]
  unfold execute interpret perform
  simp only [Action.bind_apply]
  cases (layer host fuel).sequence [] s.loaded (Program.ofSource source).statements s.machine with
  | ok flow m => exact ⟨rfl, rfl⟩
  | error halt m => cases halt <;> exact ⟨rfl, rfl⟩

/-- With as much fuel as they need statements do the same as with more. -/
theorem interpret_more {first more : Nat} {ss : List Stmt} (hmore : fuel ≤ more)
    (h : (s.interpret host fuel first ss).1 ≠ .error .outOfFuel) :
    s.interpret host more first ss = s.interpret host fuel first ss := by
  rw [interpret_eq] at h
  rw [interpret_eq, interpret_eq]
  unfold perform at h ⊢
  rcases programRun_le host hmore first ss s.machine with ⟨⟨m, hout⟩, -⟩ | ⟨haction, -⟩
  · rw [hout] at h
    exact absurd rfl h
  · rw [haction]

end Session

namespace CommandLine

variable {host : Host} {fuel : Nat} {files : Files} {input : List UInt8} {path source : String}

/-! ## Requests -/

/-- An argument that is no option is a script. -/
theorem take_script (hpath : ∀ c rest, path.toList ≠ '-' :: c :: rest) (o : Options) :
    o.take path = o.takeScript path := by
  unfold Options.take
  split
  · next h => exact absurd h (hpath _ _)
  · next h => exact absurd h (hpath _ _)
  · next h => exact absurd h (hpath _ _)
  · rfl

theorem take_listing (script : Option String) (listings : Nat) :
    Options.take ⟨script, listings, false⟩ "--dump-ast" = .ok ⟨script, listings + 1, false⟩ := by
  cbv

theorem ofArguments_of_takes {arguments : List String} {o : Options}
    (h : arguments.foldlM Options.take Options.initial = .ok o) :
    Request.ofArguments arguments = o.request := by
  unfold Request.ofArguments
  rw [h]

theorem ofArguments_script (hpath : ∀ c rest, path.toList ≠ '-' :: c :: rest) :
    Request.ofArguments [path] = .run path ∧
      Request.ofArguments [path, "--dump-ast"] = .list path := by
  have hscript : Options.initial.take path = .ok ⟨some path, 0, false⟩ := take_script hpath _
  have hrun : [path].foldlM Options.take Options.initial = .ok ⟨some path, 0, false⟩ := by
    rw [List.foldlM_cons, hscript]
    rfl
  have hlist : [path, "--dump-ast"].foldlM Options.take Options.initial =
      .ok ⟨some path, 1, false⟩ := by
    rw [List.foldlM_cons, hscript]
    show ["--dump-ast"].foldlM Options.take ⟨some path, 0, false⟩ = _
    rw [List.foldlM_cons, take_listing]
    rfl
  exact ⟨ofArguments_of_takes hrun, ofArguments_of_takes hlist⟩

theorem withScript_of_text (h : files path = .ok source.toUTF8)
    (use : String → Status × Transcript) : withScript files path use = use source := by
  have hdecode : String.fromUTF8? source.toUTF8 = some source := dif_pos source.isValidUTF8
  unfold withScript readText
  rw [h]
  dsimp only
  rw [hdecode]

/-! ## Answers -/

theorem respond_run (hpath : ∀ c rest, path.toList ≠ '-' :: c :: rest)
    (hfile : files path = .ok source.toUTF8) :
    respond host fuel files input [path] = runScript host fuel source := by
  rw [respond, (ofArguments_script hpath).1, answer, withScript_of_text hfile]

theorem respond_list (hpath : ∀ c rest, path.toList ≠ '-' :: c :: rest)
    (hfile : files path = .ok source.toUTF8) :
    respond host fuel files input [path, "--dump-ast"] = listScript source := by
  rw [respond, (ofArguments_script hpath).2, answer, withScript_of_text hfile]

/-- A script is run with a collector of its own. -/
theorem runScript_eq (host : Host) (fuel : Nat) (source : String) :
    let (outcome, found, s) := (Session.start none).runInto host fuel .empty source
    runScript host fuel source =
      (statusOf outcome, ⟨s.machine.sink.text, onLines (found.entries.map Diagnostic.text)⟩) := by
  rw [Session.runInto_eq, runScript]
  dsimp only
  rw [listing_eq]
  rfl

theorem runScript_of_faulty (host : Host) (fuel : Nat)
    (h : (Program.ofSource source).diagnostics ≠ []) :
    runScript host fuel source =
      (.malformed, ⟨"", onLines ((Program.ofSource source).diagnostics.map Diagnostic.text)⟩) := by
  unfold runScript
  rw [Session.run_of_faulty _ host fuel h, ← listing_eq]
  rfl

theorem listScript_of_faulty (h : (Program.ofSource source).diagnostics ≠ []) :
    listScript source =
      (.malformed, ⟨"", onLines ((Program.ofSource source).diagnostics.map Diagnostic.text)⟩) := by
  unfold listScript
  dsimp only
  rw [if_neg (mt List.isEmpty_iff.mp h), listing_eq]

theorem listScript_of_clean (h : (Program.ofSource source).diagnostics = []) :
    listScript source =
      (.success, ⟨onLines ((Program.ofSource source).statements.map Stmt.render), ""⟩) := by
  unfold listScript
  dsimp only
  rw [if_pos (List.isEmpty_iff.mpr h), foldr_lines]

/-- What is answered when the statements of a script have ended in this way. -/
def conclude (ended : Except Halt Unit × Session) : Status × Transcript :=
  let report := Report.ofEnd ended.1
  (statusOf report.outcome,
    ⟨ended.2.machine.sink.text, onLines (report.diagnostics.map Diagnostic.text)⟩)

theorem runScript_of_clean (host : Host) (fuel : Nat)
    (h : (Program.ofSource source).diagnostics = []) :
    runScript host fuel source = conclude
      ((Session.start none).interpret host fuel 0 (Program.ofSource source).statements) := by
  obtain ⟨hreport, hmachine⟩ := (Session.start none).run_of_interpret host fuel h
  unfold runScript
  dsimp only
  rw [hreport, hmachine, listing_eq]
  rfl

/-- A script that was read without faults is never called malformed. -/
theorem code_conclude (ended : Except Halt Unit × Session) : (conclude ended).1.code ≠ 65 := by
  obtain ⟨(_ | _) | ⟨⟩, s⟩ := ended <;> exact nofun

/-- How a script ends that was read without faults, by the end of its statements. -/
theorem conclude_cases (ended : Except Halt Unit × Session) :
    ended.1 = .ok () ∧ (conclude ended).1.code = 0 ∧ (conclude ended).2.errors = "" ∨
      (∃ e, ended.1 = .error (.fault e) ∧ (conclude ended).1.code = 70 ∧
        (conclude ended).2.errors = e.diagnostic.text ++ "\n") ∨
      ended.1 = .error .outOfFuel := by
  obtain ⟨result, s⟩ := ended
  cases result with
  | ok u => exact .inl ⟨rfl, rfl, rfl⟩
  | error halt =>
    cases halt with
    | fault e => exact .inr (.inl ⟨e, rfl, rfl, onLines_singleton _⟩)
    | outOfFuel => exact .inr (.inr rfl)

theorem text_interpret (host : Host) (fuel first : Nat) (ss : List Stmt) :
    ((Session.start none).interpret host fuel first ss).2.machine.sink.text =
      output ((Session.start none).prints host fuel first ss) := by
  have hprints : (Session.start none).machine.Prints
      ((Session.start none).prints host fuel first ss)
      ((Session.start none).interpret host fuel first ss).2.machine :=
    Session.machine_interpret rfl
  exact hprints.text.trans String.empty_append

end CommandLine

open CommandLine

/-- A script is rejected by running it exactly when it is by listing it, and with the same report.
Otherwise the listing has every statement, and the run prints what the statements print until they
end or fail. -/
theorem running_agrees_with_listing (host : Host) (fuel : Nat) (files : Files) (input : List UInt8)
    {path source : String} (hpath : ∀ c rest, path.toList ≠ '-' :: c :: rest)
    (hfile : files path = .ok source.toUTF8) :
    let run := respond host fuel files input [path]
    let list := respond host fuel files input [path, "--dump-ast"]
    let scanned := scan source
    let parsed := parse scanned.tokens
    let faults :=
      scanned.errors.map ScanError.diagnostic ++ parsed.errors.map ParseError.diagnostic
    let s := Session.start none
    let result := (s.interpret host fuel 0 parsed.statements).1
    (let (outcome, found, t) := s.runInto host fuel .empty source;
      run = (statusOf outcome,
        ⟨t.machine.sink.text, onLines (found.entries.map Diagnostic.text)⟩)) ∧
    (run.1.code = 65 ↔ list.1.code = 65) ∧ (run.1.code = 65 ↔ faults ≠ []) ∧
    (faults ≠ [] → run.2 = ⟨"", onLines (faults.map Diagnostic.text)⟩ ∧ list.2 = run.2) ∧
    (faults = [] →
      list.1.code = 0 ∧ list.2 = ⟨onLines (parsed.statements.map Stmt.render), ""⟩ ∧
      run.2.output = output (s.prints host fuel 0 parsed.statements) ∧
      (result = .ok () ∧ run.1.code = 0 ∧ run.2.errors = "" ∨
        (∃ e, result = .error (.fault e) ∧ run.1.code = 70 ∧
          run.2.errors = e.diagnostic.text ++ "\n") ∨
        result = .error .outOfFuel) ∧
      (result ≠ .error .outOfFuel →
        ∀ more ≥ fuel, respond host more files input [path] = run)) := by
  intro run list scanned parsed faults s result
  have hrun : ∀ fuel, respond host fuel files input [path] = runScript host fuel source :=
    fun fuel => respond_run hpath hfile
  have hlist : list = listScript source := respond_list hpath hfile
  have hruns : run = runScript host fuel source := hrun fuel
  have hinto := runScript_eq host fuel source
  rw [← hruns] at hinto
  refine ⟨hinto, ?_⟩
  by_cases hfaults : faults = []
  · have hclean : (Program.ofSource source).diagnostics = [] := hfaults
    have hlisted : list = (.success, ⟨onLines (parsed.statements.map Stmt.render), ""⟩) :=
      hlist.trans (listScript_of_clean hclean)
    have hran : run = conclude (s.interpret host fuel 0 parsed.statements) :=
      hruns.trans (runScript_of_clean host fuel hclean)
    have hcode : run.1.code ≠ 65 := hran ▸ code_conclude _
    have hmore : result ≠ .error .outOfFuel →
        ∀ more ≥ fuel, respond host more files input [path] = run := by
      intro hends more hmore
      rw [hran, hrun, runScript_of_clean host more hclean, ← Session.interpret_more hmore hends]
      rfl
    have htext : run.2.output = output (s.prints host fuel 0 parsed.statements) := by
      rw [hran]
      exact text_interpret host fuel 0 parsed.statements
    have hends := conclude_cases (s.interpret host fuel 0 parsed.statements)
    rw [← hran] at hends
    have hnever : ∀ {p : Prop}, faults ≠ [] → p := fun h => absurd hfaults h
    rw [hlisted]
    exact ⟨⟨fun h => absurd h hcode, nofun⟩, ⟨fun h => absurd h hcode, hnever⟩, hnever,
      fun _ => ⟨rfl, rfl, htext, hends, hmore⟩⟩
  · have hran := hruns.trans (runScript_of_faulty host fuel hfaults)
    have hlisted := hlist.trans (listScript_of_faulty hfaults)
    rw [hran, hlisted]
    exact ⟨Iff.rfl, ⟨fun _ => hfaults, fun _ => rfl⟩, fun _ => ⟨rfl, rfl⟩,
      fun h => absurd h hfaults⟩

/-- A script that fails behind its first statement. -/
theorem running_agrees_with_listing_failing :
    let path := "a.lox"
    let source := "print true; print g; print nil;"
    let files : Files := fun _ => .ok source.toUTF8
    let run := respond (.withClock 0) 20 files [] [path]
    let list := respond (.withClock 0) 20 files [] [path, "--dump-ast"]
    (∀ c rest, path.toList ≠ '-' :: c :: rest) ∧ files path = .ok source.toUTF8 ∧
      run = (.failed, ⟨"true\n", "Undefined variable 'g'.\n[line 1]\n"⟩) ∧
      list = (.success, ⟨"(print true)\n(print g)\n(print nil)\n", ""⟩) ∧
      ∀ more ≥ 20, respond (.withClock 0) more files [] [path] = run := by
  intro path source files run list
  have hpath : ∀ c rest, path.toList ≠ '-' :: c :: rest := by
    intro c rest h
    have hfirst : path.toList.head? = some 'a' := by cbv
    rw [h] at hfirst
    cases hfirst
  obtain ⟨-, -, -, -, hclean⟩ := running_agrees_with_listing (.withClock 0) 20 files [] hpath rfl
  obtain ⟨-, -, -, -, hmore⟩ := hclean (by cbv)
  have hends : ((Session.start none).interpret (.withClock 0) 20 0
      (parse (scan source).tokens).statements).1 ≠ .error .outOfFuel := by
    cbv
    intro h
    cases h
  exact ⟨hpath, rfl, (respond_run hpath rfl).trans (by cbv),
    (respond_list hpath rfl).trans (by cbv), hmore hends⟩

end Lox
