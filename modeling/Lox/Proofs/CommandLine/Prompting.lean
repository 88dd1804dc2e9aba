import Mathlib
import Lox.Proofs.CommandLine.Lines
import Lox.Proofs.CommandLine.Scripts

/-!
The prompt.

What is typed at the prompt is run line by line in one session, and every line is reported on by
itself.  Nothing that goes wrong in a line ends the prompt, and a line that is rejected might as
well not have been typed.
-/

namespace Lox

namespace Session

variable (s : Session) (host : Host) (fuel : Nat)

/-- What sources show that run one after the other, each with a collector of its own.  What was
printed before a run is taken away first. -/
def freshTurns (s : Session) (host : Host) (fuel : Nat) : List String → List Turn
  | [] => []
  | source :: rest =>
    let (outcome, found, s) := s.drain.2.runInto host fuel .empty source
    ⟨outcome, found.entries, s.machine.sink.text⟩ :: s.freshTurns host fuel rest

theorem freshTurns_eq (c : Collector) (sources : List String) :
    s.freshTurns host fuel sources = s.turns host fuel c sources := by
  induction sources generalizing s c with
  | nil => rfl
  | cons source rest ih =>
    rw [turns_cons, freshTurns, runInto_eq]
    exact congrArg (List.cons _) (ih _ _)

theorem freshTurns_cons (source : String) (rest : List String) :
    s.freshTurns host fuel (source :: rest) =
      ⟨(s.drain.2.run host fuel source).1.outcome, (s.drain.2.run host fuel source).1.diagnostics,
          (s.drain.2.run host fuel source).2.machine.sink.text⟩ ::
        (s.drain.2.run host fuel source).2.freshTurns host fuel rest := by
  rw [freshTurns, runInto_eq]
  rfl

theorem freshTurns_drain (sources : List String) :
    s.drain.2.freshTurns host fuel sources = s.freshTurns host fuel sources := by
  rw [freshTurns_eq _ host fuel .empty, freshTurns_eq _ host fuel .empty, turns_drain]

theorem length_freshTurns (sources : List String) :
    (s.freshTurns host fuel sources).length = sources.length := by
  induction sources generalizing s with
  | nil => rfl
  | cons source rest ih => rw [freshTurns_cons, List.length_cons, ih, List.length_cons]

/-- The turns behind others are those of the session that is left behind them. -/
theorem freshTurns_append (before : List String) : ∃ s' : Session, ∀ more,
    s.freshTurns host fuel (before ++ more) =
      s.freshTurns host fuel before ++ s'.freshTurns host fuel more := by
  induction before generalizing s with
  | nil => exact ⟨s, fun _ => rfl⟩
  | cons source rest ih =>
    obtain ⟨s', h⟩ := ih (s.drain.2.run host fuel source).2
    refine ⟨s', fun more => ?_⟩
    rw [List.cons_append, freshTurns_cons, freshTurns_cons, h, List.cons_append]

/-- A source with faults has no influence on the turns of the others. -/
theorem freshTurns_without {source : String} (h : (Program.ofSource source).diagnostics ≠ [])
    (before after : List String) : ∃ earlier later,
      s.freshTurns host fuel (before ++ source :: after) =
          earlier ++ ⟨.rejected, (Program.ofSource source).diagnostics, ""⟩ :: later ∧
        earlier.length = before.length ∧
        s.freshTurns host fuel (before ++ after) = earlier ++ later := by
  obtain ⟨s', hs'⟩ := s.freshTurns_append host fuel before
  have hrejected : s'.freshTurns host fuel (source :: after) =
      ⟨.rejected, (Program.ofSource source).diagnostics, ""⟩ :: s'.freshTurns host fuel after := by
    rw [freshTurns_cons, run_of_faulty _ host fuel h, freshTurns_drain]
    rfl
  refine ⟨s.freshTurns host fuel before, s'.freshTurns host fuel after, ?_,
    s.length_freshTurns host fuel before, hs' after⟩
  rw [hs', hrejected]

end Session

namespace Prompt

variable {host : Host} {fuel : Nat}

/-- The bytes of a text. -/
def utf8 (text : String) : List UInt8 := text.toUTF8.data.toList

theorem decode?_utf8 (text : String) : decode? (utf8 text) = some text :=
  dif_pos text.isValidUTF8

theorem utf8_of_decode? {line : List UInt8} {text : String} (h : decode? line = some text) :
    utf8 text = line := by
  unfold decode? String.fromUTF8? at h
  split at h
  · cases h
    rfl
  · cases h

/-- Everything that is written about some turns.  The prompt also ends at bytes that are no text. -/
def conversation (turns : List Turn) (stopped : Bool) : Transcript where
  output := String.join (turns.map fun t => "> " ++ t.printed) ++ "> "
  errors := String.join (turns.map fun t => onLines (t.reported.map Diagnostic.text)) ++
    if stopped then "stream did not contain valid UTF-8\n" else ""

theorem conversation_cons (t : Turn) (turns : List Turn) (stopped : Bool) :
    conversation (t :: turns) stopped =
      ⟨sign, ""⟩ ++ ⟨t.printed, listing t.reported⟩ ++ conversation turns stopped := by
  show _ = Transcript.append (Transcript.append _ _) _
  unfold conversation Transcript.append
  simp only [List.map_cons, String.join_cons, String.append_assoc, String.empty_append, listing_eq]
  rfl

/-- The lines up to the first one that is no text are run, each in the session that the lines in
front of it have left. -/
theorem converse_eq {s : Session} (hs : s.drain.2 = s) (texts : List String)
    {others : List (List UInt8)}
    (hothers : ∀ line, others.head? = some line → decode? line = none) :
    converse s host fuel (texts.map utf8 ++ others) =
      conversation (s.freshTurns host fuel texts) !others.isEmpty := by
  induction texts generalizing s with
  | nil =>
    cases others with
    | nil => rfl
    | cons line others =>
      rw [List.map_nil, List.nil_append, converse, hothers line rfl]
      rfl
  | cons text texts ih =>
    rw [List.map_cons, List.cons_append, converse, decode?_utf8, Session.freshTurns_cons, hs,
      conversation_cons, ← Session.freshTurns_drain, ← ih rfl]
    rfl

/-- The lines in front of the first one that is no text. -/
theorem exists_texts (ls : List (List UInt8)) :
    ∃ (texts : List String) (others : List (List UInt8)),
      ls = texts.map utf8 ++ others ∧ ∀ line, others.head? = some line → decode? line = none := by
  induction ls with
  | nil => exact ⟨[], [], rfl, nofun⟩
  | cons line ls ih =>
    cases hline : decode? line with
    | none => exact ⟨[], line :: ls, rfl, fun _ h => Option.some.inj h ▸ hline⟩
    | some text =>
      obtain ⟨texts, others, rfl, hothers⟩ := ih
      exact ⟨text :: texts, others, by rw [List.map_cons, utf8_of_decode? hline]; rfl, hothers⟩

theorem respond_of_lined {files : Files} {input : List UInt8} {texts : List String}
    {others : List (List UInt8)} (h : Lined input (texts.map utf8 ++ others))
    (hothers : ∀ line, others.head? = some line → decode? line = none) :
    CommandLine.respond host fuel files input [] =
      (.success, conversation ((Session.start none).freshTurns host fuel texts)
        !others.isEmpty) := by
  have hlines : CommandLine.respond host fuel files input [] =
      (.success, converse (.start none) host fuel (lines input)) := rfl
  rw [hlines, ← h.eq_lines, converse_eq rfl texts hothers]

end Prompt

open CommandLine Prompt

/-- Every line that is typed is run in the session that the lines in front of it have left, and is
reported on by itself, until the input ends or has a line that is no text.  A line with faults in
its text can be taken out, and all others are answered as before. -/
theorem prompt_runs_lines (host : Host) (fuel : Nat) (files : Files) (input : List UInt8) :
    ∃ (texts : List String) (others : List (List UInt8)),
      let turns := (Session.start none).freshTurns host fuel texts
      (∀ ls, Lined input ls ↔ ls = texts.map utf8 ++ others) ∧
      (∀ line, others.head? = some line → ∀ text, utf8 text ≠ line) ∧
      turns.length = texts.length ∧
      (respond host fuel files input []).1.code = 0 ∧
      (respond host fuel files input []).2 = conversation turns !others.isEmpty ∧
      ∀ before source after, texts = before ++ source :: after →
        (Program.ofSource source).diagnostics ≠ [] →
        ∃ earlier later,
          turns = earlier ++ ⟨.rejected, (Program.ofSource source).diagnostics, ""⟩ :: later ∧
          earlier.length = before.length ∧
          (∃ shorter, Lined shorter ((before ++ after).map utf8 ++ others)) ∧
          ∀ shorter, Lined shorter ((before ++ after).map utf8 ++ others) →
            respond host fuel files shorter [] =
              (.success, conversation (earlier ++ later) !others.isEmpty) := by
  obtain ⟨texts, others, hlines, hothers⟩ := exists_texts (Prompt.lines input)
  refine ⟨texts, others, ?_⟩
  intro turns
  have hlined : ∀ ls, Lined input ls ↔ ls = texts.map utf8 ++ others :=
    fun ls => hlines ▸ lined_iff
  have hinput : Lined input (texts.map utf8 ++ others) := (hlined _).mpr rfl
  have hwhole : respond host fuel files input [] = (.success, conversation turns !others.isEmpty) :=
    respond_of_lined hinput hothers
  have htext : ∀ line, others.head? = some line → ∀ text, utf8 text ≠ line := by
    rintro line hline text rfl
    have hnone := hothers _ hline
    rw [decode?_utf8] at hnone
    cases hnone
  refine ⟨hlined, htext, Session.length_freshTurns _ host fuel texts, ?_, ?_, ?_⟩
  · rw [hwhole]
    rfl
  · rw [hwhole]
  · rintro before source after rfl hfaults
    obtain ⟨earlier, later, hturns, hlength, hwithout⟩ :=
      (Session.start none).freshTurns_without host fuel hfaults before after
    have hends : ∀ line ∈ (before ++ after).map utf8 ++ others, newline ∉ line := by
      intro line hline
      refine hinput.not_mem line ?_
      simp only [List.map_append, List.map_cons, List.mem_append, List.mem_cons] at hline ⊢
      tauto
    refine ⟨earlier, later, hturns, hlength, ⟨_, lined_flatMap hends⟩, fun shorter h => ?_⟩
    rw [respond_of_lined h hothers, hwithout]

/-- A line that is rejected, one that fails, and one in front of bytes that are no text. -/
example : respond (.withClock 0) 20 (fun _ => .error .missing)
    ("print );\r\nprint g;\nprint true;\n".toUTF8.data.toList ++ [255, newline]) [] =
      (.success, ⟨"> > > true\n> ",
        "[line 1] Error at ')': Expect expression.\n" ++
        "Undefined variable 'g'.\n[line 1]\n" ++
        "stream did not contain valid UTF-8\n"⟩) := by
  cbv

end Lox
