import Mathlib
import Lox.Main
import Lox.Proofs.Printing.Fuel

/-!
A sink that fails cuts a program off and does nothing else.

Up to the line that the sink fails on, a program does what it does on a sink that never fails.  Then
it ends, with everything stored as it was when that line was about to be printed.
-/

namespace Lox

/-- The execution of statements, with a record of what they print. -/
def programRun (host : Host) (fuel first : Nat) (ss : List Stmt) : Run Unit := do
  let _ ← (recording host fuel).sequence [] first ss

theorem action_programRun (host : Host) (fuel first : Nat) (ss : List Stmt) :
    (programRun host fuel first ss).action =
      (do let _ ← (layer host fuel).sequence [] first ss) := by
  rw [← forget_recording]
  exact Run.action_bind (Recording.forget_sequence _ [] first ss) fun _ => rfl

theorem programRun_le (host : Host) {fuel more : Nat} (hmore : fuel ≤ more) (first : Nat)
    (ss : List Stmt) : (programRun host fuel first ss).Le (programRun host more first ss) :=
  ((recording_le host hmore).sequence [] first ss).bind fun _ => .refl _

namespace Session

variable (s : Session) (host : Host) (fuel first : Nat) (ss : List Stmt)

/-- The session with a sink that passes on `n` more lines. -/
def breaking (fault : SinkFault) (n : Nat) : Session :=
  { s with machine := s.machine.breaking fault n }

/-- The session with a sink that breaks in the given way. -/
def withBreakage (b : Breakage) : Session := { s with machine := s.machine.withBreakage b }

/-- What the statements print on a sink that never fails. -/
def prints : List Printed := (programRun host fuel first ss).trace s.machine

theorem interpret_eq :
    s.interpret host fuel first ss = s.perform (programRun host fuel first ss).action := by
  rw [action_programRun]
  rfl

variable {s host fuel first ss}
variable {p : Run Unit}

theorem machine_perform (hs : s.machine.sink.breakage = none) :
    s.machine.Prints (p.trace s.machine) (s.perform p.action).2.machine := by
  have hprints := p.follows.unfailing s.machine hs
  unfold Action.after at hprints
  unfold perform
  cases hrun : p.action s.machine <;> rwa [hrun] at hprints

/-- The sink holds, so nothing is changed. -/
theorem perform_of_enough (hs : s.machine.sink.breakage = none) {n : Nat}
    (hn : (p.trace s.machine).length ≤ n) (fault : SinkFault) :
    (s.breaking fault n).perform p.action =
      ((s.perform p.action).1,
        (s.perform p.action).2.withBreakage ⟨fault, s.machine.sink.flushes + n⟩) := by
  have henough := p.follows.enough s.machine fault n hs hn
  unfold perform breaking
  dsimp only
  rw [henough]
  cases p.action s.machine <;> rfl

/-- The sink fails on the line `e`. -/
theorem perform_of_failing (hs : s.machine.sink.breakage = none) {n : Nat} {e : Printed}
    (he : (p.trace s.machine)[n]? = some e) (fault : SinkFault) :
    (s.breaking fault n).perform p.action =
      (.error (.fault ⟨e.keyword, .outputFailed fault⟩), { s with
        machine := s.machine.failing fault n (p.trace s.machine) e }) := by
  have hfails := p.follows.fails s.machine fault n e hs he
  unfold perform breaking
  dsimp only
  rw [hfails]

/-- What a sink has collected that breaks after `n` more lines. -/
theorem text_breaking (hs : s.machine.sink.breakage = none) (fault : SinkFault) (n : Nat) :
    ((s.breaking fault n).perform p.action).2.machine.sink.text =
      s.machine.sink.text ++ output ((p.trace s.machine).take (n + fault.kept)) := by
  rcases Nat.lt_or_ge n (p.trace s.machine).length with hn | hn
  · rw [perform_of_failing hs (List.getElem?_eq_getElem hn) fault]
    rfl
  · rw [perform_of_enough hs hn fault, List.take_of_length_le (Nat.le_add_right_of_le hn)]
    exact (machine_perform hs).text

theorem machine_interpret (hs : s.machine.sink.breakage = none) :
    s.machine.Prints (s.prints host fuel first ss)
      (s.interpret host fuel first ss).2.machine := by
  rw [interpret_eq]
  exact machine_perform hs

theorem interpret_of_enough (hs : s.machine.sink.breakage = none) {n : Nat}
    (hn : (s.prints host fuel first ss).length ≤ n) (fault : SinkFault) :
    (s.breaking fault n).interpret host fuel first ss =
      ((s.interpret host fuel first ss).1, (s.interpret host fuel first ss).2.withBreakage
        ⟨fault, s.machine.sink.flushes + n⟩) := by
  rw [interpret_eq, interpret_eq]
  exact perform_of_enough hs hn fault

theorem interpret_of_failing (hs : s.machine.sink.breakage = none) {n : Nat} {p : Printed}
    (hp : (s.prints host fuel first ss)[n]? = some p) (fault : SinkFault) :
    (s.breaking fault n).interpret host fuel first ss =
      (.error (.fault ⟨p.keyword, .outputFailed fault⟩), { s with
        machine := s.machine.failing fault n (s.prints host fuel first ss) p }) := by
  rw [interpret_eq]
  exact perform_of_failing hs hp fault

theorem prints_begins {more : Nat} (hmore : fuel ≤ more) :
    s.prints host fuel first ss <+: s.prints host more first ss :=
  (programRun_le host hmore first ss s.machine).begins

end Session

/-- A sink that breaks after `n` more lines changes nothing for statements that print no more than
that.  It ends all others at the line behind, which is the one that they print next on a sink that
never fails.  That they would go on without end makes no difference: with more fuel the same lines
are printed first. -/
theorem interpret_truncated (host : Host) (fuel first : Nat) (ss : List Stmt) (s : Session)
    (hs : s.machine.sink.breakage = none) (fault : SinkFault) (n : Nat) :
    let prints := s.prints host fuel first ss
    let (result, s') := s.interpret host fuel first ss
    ((recording host fuel).forget = layer host fuel ∧ s.machine.Prints prints s'.machine) ∧
    (prints.length ≤ n → (s.breaking fault n).interpret host fuel first ss =
      (result, s'.withBreakage ⟨fault, s.machine.sink.flushes + n⟩)) ∧
    ∀ more ≥ fuel, prints <+: s.prints host more first ss ∧
      ∀ p, prints[n]? = some p →
        ∃ e t, (s.breaking fault n).interpret host more first ss = (.error (.fault e), t) ∧
          e.token = p.keyword ∧ e.message = "Failed to write output: " ++ fault.message ∧
          t.machine.sink.text = s.machine.sink.text ++
            output (prints.take (if fault = .unflushable then n + 1 else n)) ∧
          t.machine.store = p.store ∧ t.machine.current = s.machine.current := by
  refine ⟨⟨forget_recording host fuel, Session.machine_interpret hs⟩,
    fun hn => Session.interpret_of_enough hs hn fault, fun more hmore => ?_⟩
  have hbegins : s.prints host fuel first ss <+: s.prints host more first ss :=
    Session.prints_begins hmore
  refine ⟨hbegins, fun p hp => ?_⟩
  obtain ⟨rest, hrest⟩ := hbegins
  obtain ⟨hlt, -⟩ := List.getElem?_eq_some_iff.mp hp
  have hmorep : (s.prints host more first ss)[n]? = some p := by
    rw [← hrest, List.getElem?_append_left hlt, hp]
  refine ⟨_, _, Session.interpret_of_failing hs hmorep fault, rfl, rfl, ?_, rfl, rfl⟩
  rw [← hrest, Machine.failing_append hlt]
  have hkept : n + fault.kept = if fault = .unflushable then n + 1 else n := by
    cases fault <;> rfl
  rw [← hkept]
  rfl

/-- A loop that prints without end is ended by a sink that passes on one line and has collected a
second one when it fails. -/
theorem interpret_truncated_loop :
    let keyword : Token := ⟨.bare .kwPrint, "print", 1, 1⟩
    let loop : Stmt := .loop (.literal (.bool true)) (.print keyword (.literal .nil))
    let s := Session.start none
    s.machine.sink.breakage = none ∧ ∀ more ≥ 4, ∃ e t,
      (s.breaking .unflushable 1).interpret (.withClock 0) more 0 [loop] = (.error (.fault e), t) ∧
        e.token = keyword ∧ t.machine.sink.text = "nil\nnil\n" := by
  intro keyword loop s
  refine ⟨rfl, fun more hmore => ?_⟩
  have hp : (s.prints (.withClock 0) 4 0 [loop])[1]? = some ⟨keyword, "nil", s.machine.store⟩ := rfl
  obtain ⟨-, -, hcut⟩ := interpret_truncated (.withClock 0) 4 0 [loop] s rfl .unflushable 1
  obtain ⟨e, t, hrun, htoken, -, htext, -⟩ := (hcut more hmore).2 _ hp
  exact ⟨e, t, hrun, htoken, htext⟩

end Lox
