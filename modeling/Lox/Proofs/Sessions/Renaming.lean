import Mathlib
import Lox.Main
import Lox.Proofs.Comparison.Renaming
import Lox.Proofs.Grammar.Tokens
import Lox.Proofs.Scopes.Nearest

/-!
Names mean nothing.

Whatever the identifiers of a program are called instead, it does the same, as long as different
ones are called differently and the clock is called as it was.  It prints the same values in the
same order, and of a function it prints the new name.  A fault is told of the same place, with the
new name if it is told by name.
-/

namespace Lox

theorem Host.renamed_withClock (seconds : Float) {r : String → String}
    (hr : Set.InjOn r {x | IsName x}) (shown shown' : Value → String) :
    (Host.withClock seconds).Alike (Comparison.renaming hr shown shown').toLikeness := by
  intro w entry vs vs' _
  unfold Host.withClock
  split <;> exact ⟨rfl, trivial⟩

namespace Session

/-- Whether statements are executed under other names as they are under their own. -/
structure RunsAlike (s : Session) (r : String → String) (host : Host) (fuel first : Nat)
    (ss : List Stmt) : Prop where
  /-- Both runs end by themselves, or out of fuel, or with a fault, which is told of the token that
  is there instead. -/
  ended : (s.interpret host fuel first (Stmt.relabelAll (.renaming r) ss)).1 =
    (s.interpret host fuel first ss).1.mapError (Halt.relabel (.renaming r))
  /-- Only an undefined variable is told by its name. -/
  message : ∀ e, (s.interpret host fuel first ss).1 = .error (.fault e) →
    (e.relabel (.renaming r)).message =
      if e.fault = .undefinedVariable then "Undefined variable '" ++ r e.token.lexeme ++ "'."
      else e.message
  /-- As many lines are printed. -/
  printed :
    (s.interpret host fuel first (Stmt.relabelAll (.renaming r) ss)).2.machine.sink.flushes =
      (s.interpret host fuel first ss).2.machine.sink.flushes
  /-- The lines are the texts of the same values, with new names for functions. -/
  text : (s.interpret host fuel first (Stmt.relabelAll (.renaming r) ss)).2.machine.sink.text =
    (s.interpretAs (Value.textAs r) host fuel first ss).2.machine.sink.text
  /-- Whatever is shown of values, it is shown of the same ones. -/
  values : ∀ shown : Value → String,
    (s.interpretAs shown host fuel first
        (Stmt.relabelAll (.renaming r) ss)).2.machine.sink.text =
      (s.interpretAs (fun v => shown (v.relabel (.renaming r))) host fuel first
        ss).2.machine.sink.text

variable {r : String → String}

/-- A session starts with names that stay the same. -/
theorem renamed_start (hr : Set.InjOn r {x | IsName x}) (hclock : r "clock" = "clock")
    (same : Prop) (breakage : Option Breakage) :
    (start breakage).machine.Renamed r same (start breakage).machine := by
  have hroot : Store.empty.addRoot.Renamed r Store.empty.addRoot := by
    rw [Store.addRoot_eq]
    exact Store.Renamed.empty.addChild _
  have hstore := hroot.define hr isName_clock 0 (v := .native .clock) trivial
  have hname : r Native.clock.name = Native.clock.name := hclock
  rw [hname] at hstore
  exact ⟨hstore, ⟨rfl, rfl, fun _ => rfl⟩, rfl⟩

/-- Actions that are retold end alike on a session. -/
theorem perform_of_retells {same : Prop} {s : Session} {p q : Action Unit}
    (h : Retells r same (fun _ _ => True) (p s.machine) (q s.machine)) :
    (s.perform q).1 = (s.perform p).1.mapError (Halt.relabel (.renaming r)) ∧
      (∀ e, (s.perform p).1 = .error (.fault e) → e.Retold r) ∧
      (s.perform p).2.machine.sink.Alike same (s.perform q).2.machine.sink := by
  unfold perform
  generalize p s.machine = x at h ⊢
  generalize q s.machine = y at h ⊢
  cases h with
  | ok _ hm => exact ⟨rfl, fun e he => (by cases he), hm.sink⟩
  | error hhalt hm =>
    refine ⟨rfl, fun e he => ?_, hm.sink⟩
    cases he
    exact hhalt

/-- Statements that fit run alike under other names, whatever is shown of values in each run. -/
theorem interpretAs_renamed (hr : Set.InjOn r {x | IsName x}) (hclock : r "clock" = "clock")
    (shown shown' : Value → String) (breakage : Option Breakage) (seconds : Float)
    (fuel first : Nat) {ss : List Stmt} (hss : ∀ s ∈ ss, s.Fits (Role.Suits Token.Named)) :
    let x := (start breakage).interpretAs shown (.withClock seconds) fuel first ss
    let y := (start breakage).interpretAs shown' (.withClock seconds) fuel first
      (Stmt.relabelAll (.renaming r) ss)
    y.1 = x.1.mapError (Halt.relabel (.renaming r)) ∧
      (∀ e, x.1 = .error (.fault e) → e.Retold r) ∧
      x.2.machine.sink.Alike (ShownAlike r shown shown') y.2.machine.sink := by
  have hlayer := (Comparison.renaming hr shown shown').alike_layerAs
    (Host.renamed_withClock seconds hr shown shown') fuel
  have hsequence : Renames r (ShownAlike r shown shown') _ _ _ :=
    Layer.alike_sequence hlayer [] first (w := ()) (Stmt.renamed_all hss)
  have hrun : Renames r (ShownAlike r shown shown') (fun _ _ => True) _ _ :=
    hsequence.bind (f := fun _ => pure ()) (g := fun _ => pure ()) fun _ _ _ => .pure trivial
  exact perform_of_retells (hrun _ _ (renamed_start hr hclock _ breakage))

end Session

/-- Renaming the identifiers of a program consistently changes nothing but the names that it
tells. -/
theorem names_are_meaningless {source : String}
    (hclean : (Program.ofSource source).diagnostics = []) {r : String → String}
    (hr : Set.InjOn r {x | IsName x}) (hclock : r "clock" = "clock")
    (breakage : Option Breakage) (seconds : Float) (fuel first : Nat) :
    (Session.start breakage).RunsAlike r (.withClock seconds) fuel first
      (Program.ofSource source).statements := by
  have hfits := (Program.derives hclean).fits (T := Token.Named) fun t ht =>
    Token.named_of_scan (Program.mem_scan hclean ht)
  have hrun := fun shown shown' => Session.interpretAs_renamed hr hclock shown shown' breakage
    seconds fuel first hfits
  obtain ⟨hended, hmessage, hsink⟩ := hrun Value.text Value.text
  rw [Session.interpretAs_text, Session.interpretAs_text] at hended hsink
  rw [Session.interpretAs_text] at hmessage
  have htext := (hrun (Value.textAs r) Value.text).2.2.text fun v hv => Value.text_rename hv
  rw [Session.interpretAs_text] at htext
  exact ⟨hended, hmessage, hsink.flushes, htext,
    fun shown => (hrun (fun v => shown (v.relabel (.renaming r))) shown).2.2.text fun _ _ => rfl⟩

/-- A function has its new name printed, and a name that is not defined is told as the new one. -/
theorem names_are_meaningless_exchanged :
    let statements := (Program.ofSource "fun f()\x7b\x7d print f; g;").statements
    let exchanged := Stmt.relabelAll (.renaming (Equiv.swap "f" "g")) statements
    let s := Session.start none
    let (one, t) := s.interpret (.withClock 0) 20 0 statements
    let (two, u) := s.interpret (.withClock 0) 20 0 exchanged
    t.machine.sink.text = "<fn f>\n" ∧ u.machine.sink.text = "<fn g>\n" ∧
    one = .error (.fault ⟨⟨.bare .identifier, "g", 1, 20⟩, .undefinedVariable⟩) ∧
    two = .error (.fault ⟨⟨.bare .identifier, "f", 1, 20⟩, .undefinedVariable⟩) ∧
    s.RunsAlike (Equiv.swap "f" "g") (.withClock 0) 20 0 statements := by
  have hclean : (Program.ofSource "fun f()\x7b\x7d print f; g;").diagnostics = [] := by cbv
  have hr : Set.InjOn (Equiv.swap "f" "g") {x | IsName x} := (Equiv.injective _).injOn
  have hclock : Equiv.swap "f" "g" "clock" = "clock" :=
    Equiv.swap_apply_of_ne_of_ne (by decide) (by decide)
  exact ⟨by cbv, by cbv, by cbv, by cbv, names_are_meaningless hclean hr hclock none 0 20 0⟩

end Lox
