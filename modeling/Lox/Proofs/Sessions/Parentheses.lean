import Mathlib
import Lox.Main
import Lox.Proofs.Comparison.Parentheses
import Lox.Proofs.Printing.Truncation
import Lox.Proofs.Scopes.Nearest

/-!
Parentheses mean nothing once a program is read.

A program prints the same text and ends the same way without its groupings.  It may only take less
fuel, since a grouping is a layer of its own.  In between there are the runs in which groupings use
no fuel: a program gets at least as far in them, they do what the program does without groupings,
and the program itself gets as far with enough fuel.
-/

open Filter

namespace Lox

theorem Host.stripped_withClock (seconds : Float) :
    (Host.withClock seconds).Alike Congruence.stripping.toLikeness := by
  intro w entry vs vs' _
  unfold Host.withClock
  split <;> rfl

/-- The execution of statements in which groupings use no fuel. -/
def transparentRun (host : Host) (fuel first : Nat) (ss : List Stmt) : Run Unit := do
  let _ ← (transparent host fuel).sequence [] first ss

theorem programRun_le_transparentRun (host : Host) (fuel first : Nat) (ss : List Stmt) :
    (programRun host fuel first ss).Le (transparentRun host fuel first ss) :=
  ((recording_le_transparent host (Nat.le_refl fuel)).sequence [] first ss).bind fun _ => .refl _

theorem transparentRun_under (host : Host) (fuel first : Nat) (ss : List Stmt) :
    (transparentRun host fuel first ss).Under atTop fun k => programRun host k first ss :=
  ((transparent_under host fuel).sequence [] first ss).bind fun _ => .refl _

/-- Statements do without groupings what they do when groupings use no fuel. -/
theorem replaces_transparentRun (seconds : Float) (fuel first : Nat) (ss : List Stmt) :
    Replaces Closure.strip (fun _ _ => True)
      (transparentRun (.withClock seconds) fuel first ss).action
      (programRun (.withClock seconds) fuel first (Stmt.stripAll ss)).action := by
  have hlayer := alike_transparent (Host.stripped_withClock seconds) fuel
  have hsequence := Layer.alike_sequence hlayer [] first (w := ()) (Stmt.strip_all ss)
  rw [← Recording.forget_sequence] at hsequence
  rw [action_programRun]
  exact hsequence.bind fun _ _ _ => .pure trivial

namespace Session

/-- Whether one run ends like another one, or is out of fuel when the other one may go on.  By then
the other one has printed the same text. -/
def LeadsTo (x y : Except Halt Unit × Session) : Prop :=
  (x.1 = .error .outOfFuel ∧
    ∃ rest, y.2.machine.sink.text = x.2.machine.sink.text ++ rest) ∨
  (y.1 = x.1 ∧ y.2.machine.sink.text = x.2.machine.sink.text)

/-- What has come to an end leads to the same end. -/
theorem LeadsTo.ended {x y : Except Halt Unit × Session} (h : LeadsTo x y)
    (hx : x.1 ≠ .error .outOfFuel) : y.1 ≠ .error .outOfFuel := by
  rcases h with ⟨hout, -⟩ | ⟨hsame, -⟩
  · exact absurd hout hx
  · rwa [hsame]

variable {s : Session} {p q : Run Unit}

theorem perform_leadsTo (hs : s.machine.sink.breakage = none) (h : p.LeAt s.machine q) :
    LeadsTo (s.perform p.action) (s.perform q.action) := by
  rcases h with ⟨⟨m, hout⟩, ps, hrest⟩ | ⟨haction, -⟩
  · refine .inl ⟨?_, output ps, ?_⟩
    · unfold perform
      rw [hout]
    · rw [(machine_perform hs).text, (machine_perform hs).text, ← hrest, output_append,
        String.append_assoc]
  · unfold perform
    rw [haction]
    exact .inr ⟨rfl, rfl⟩

/-- A sink that breaks cuts both runs off at the same line. -/
theorem perform_breaking_leadsTo (hs : s.machine.sink.breakage = none) (h : p.LeAt s.machine q)
    (fault : SinkFault) (n : Nat) :
    LeadsTo ((s.breaking fault n).perform p.action) ((s.breaking fault n).perform q.action) := by
  have hkept := fault.kept_le
  rcases Nat.lt_or_ge n (p.trace s.machine).length with hn | hn
  · -- The line is one that both runs print, so it does not matter how they go on.
    obtain ⟨ps, hrest⟩ := h.begins
    have hp := List.getElem?_eq_getElem hn
    have hq : (q.trace s.machine)[n]? = some (p.trace s.machine)[n] := by
      rw [← hrest, List.getElem?_append_left hn, hp]
    refine .inr ⟨?_, ?_⟩
    · rw [perform_of_failing hs hp, perform_of_failing hs hq]
    · rw [text_breaking hs, text_breaking hs, ← hrest, List.take_append_of_le_length (by omega)]
  · rcases h with ⟨⟨m, hout⟩, hbegins⟩ | ⟨haction, htrace⟩
    · obtain ⟨ps, hrest⟩ := hbegins.take (n + fault.kept)
      refine .inl ⟨?_, output ps, ?_⟩
      · rw [perform_of_enough hs hn]
        unfold perform
        rw [hout]
      · rw [text_breaking hs, text_breaking hs, ← hrest, output_append, String.append_assoc]
    · refine .inr ⟨?_, ?_⟩
      · rw [perform_of_enough hs hn, perform_of_enough hs (htrace ▸ hn)]
        unfold perform
        rw [haction]
      · rw [text_breaking hs, text_breaking hs, htrace]

theorem start_eq_breaking (b : Breakage) :
    start (some b) = (start none).breaking b.fault b.good := by
  have hgood : (start none).machine.sink.flushes + b.good = b.good := Nat.zero_add _
  unfold breaking Machine.breaking
  rw [hgood]
  rfl

theorem start_leadsTo (h : p.LeAt (start none).machine q) (breakage : Option Breakage) :
    LeadsTo ((start breakage).perform p.action) ((start breakage).perform q.action) := by
  cases breakage with
  | none => exact perform_leadsTo rfl h
  | some b =>
    rw [start_eq_breaking]
    exact perform_breaking_leadsTo rfl h b.fault b.good

/-- A session starts without functions of the program. -/
theorem replaced_start (φ : Closure → Closure) (breakage : Option Breakage) :
    (start breakage).machine.Replaced φ (start breakage).machine := by
  have hroot : Store.empty.addRoot.Replaced φ Store.empty.addRoot := by
    rw [Store.addRoot_eq]
    exact Store.Replaced.empty.addChild _
  exact ⟨hroot.define 0 Native.clock.name (.native .clock), rfl, rfl⟩

theorem perform_of_replaces {φ : Closure → Closure} {f g : Action Unit}
    (h : Replaces φ (fun _ _ => True) f g) (breakage : Option Breakage) :
    ((start breakage).perform g).1 = ((start breakage).perform f).1 ∧
      ((start breakage).perform g).2.machine.sink.text =
        ((start breakage).perform f).2.machine.sink.text := by
  have hends := h _ _ (replaced_start φ breakage)
  unfold perform
  generalize f (start breakage).machine = x at hends ⊢
  generalize g (start breakage).machine = y at hends ⊢
  cases hends with
  | ok _ hm => exact ⟨rfl, congrArg Sink.text hm.sink⟩
  | error hm => exact ⟨rfl, congrArg Sink.text hm.sink⟩

variable (breakage : Option Breakage) (seconds : Float) (fuel first : Nat) (ss : List Stmt)

/-- The run without groupings ends as the one in which they use no fuel. -/
theorem interpret_stripped :
    let run := (start breakage).interpret (.withClock seconds) fuel first (Stmt.stripAll ss)
    let transparent :=
      (start breakage).perform (transparentRun (.withClock seconds) fuel first ss).action
    run.1 = transparent.1 ∧ run.2.machine.sink.text = transparent.2.machine.sink.text := by
  rw [interpret_eq]
  exact perform_of_replaces (replaces_transparentRun seconds fuel first ss) breakage

theorem interpret_leadsTo_stripped :
    LeadsTo ((start breakage).interpret (.withClock seconds) fuel first ss)
      ((start breakage).interpret (.withClock seconds) fuel first (Stmt.stripAll ss)) := by
  obtain ⟨hended, htext⟩ := interpret_stripped breakage seconds fuel first ss
  unfold LeadsTo
  rw [hended, htext, interpret_eq]
  exact start_leadsTo (programRun_le_transparentRun _ fuel first ss _) breakage

theorem stripped_leadsTo_interpret : ∃ enough, ∀ more ≥ enough,
    LeadsTo ((start breakage).interpret (.withClock seconds) fuel first (Stmt.stripAll ss))
      ((start breakage).interpret (.withClock seconds) more first ss) := by
  obtain ⟨hended, htext⟩ := interpret_stripped breakage seconds fuel first ss
  have hunder := transparentRun_under (.withClock seconds) fuel first ss (start none).machine
  obtain ⟨enough, henough⟩ := eventually_atTop.mp hunder
  refine ⟨enough, fun more hmore => ?_⟩
  unfold LeadsTo
  rw [hended, htext, interpret_eq]
  exact start_leadsTo (henough more hmore) breakage

end Session

/-- Statements do without groupings what they do with them, with as much fuel and maybe less.  They
print the same text and end the same way, with the same fault at the same token if there is one, and
either both come to an end or none of them does. -/
theorem parentheses_are_transparent (breakage : Option Breakage) (seconds : Float) (first : Nat)
    (ss : List Stmt) :
    let run := fun fuel ss => (Session.start breakage).interpret (.withClock seconds) fuel first ss
    (∀ fuel, Session.LeadsTo (run fuel ss) (run fuel (Stmt.stripAll ss)) ∧
      ∃ enough, ∀ more ≥ enough, Session.LeadsTo (run fuel (Stmt.stripAll ss)) (run more ss)) ∧
    ((∃ fuel, (run fuel ss).1 ≠ .error .outOfFuel) ↔
      ∃ fuel, (run fuel (Stmt.stripAll ss)).1 ≠ .error .outOfFuel) := by
  intro run
  have hstripped fuel := Session.interpret_leadsTo_stripped breakage seconds fuel first ss
  have hback fuel := Session.stripped_leadsTo_interpret breakage seconds fuel first ss
  refine ⟨fun fuel => ⟨hstripped fuel, hback fuel⟩, ⟨?_, ?_⟩⟩
  · rintro ⟨fuel, hended⟩
    exact ⟨fuel, (hstripped fuel).ended hended⟩
  · rintro ⟨fuel, hended⟩
    obtain ⟨enough, henough⟩ := hback fuel
    exact ⟨enough, (henough enough (Nat.le_refl enough)).ended hended⟩

/-- Two groupings are two layers more. -/
example :
    let ss := (Program.ofSource "fun f() \x7breturn ((f));\x7d print f();").statements
    let run := fun fuel ss => ((Session.start none).interpret (.withClock 0) fuel 0 ss).1
    run 4 ss = .error .outOfFuel ∧ run 4 (Stmt.stripAll ss) = .ok () ∧ run 6 ss = .ok () :=
  ⟨by cbv, by cbv, by cbv⟩

end Lox
