import Lox.Session

/-!
Evaluation with another way to show values.

A program shows its values by printing them, and what it prints of a value is the text of it.  Here
the layers of evaluation are put on top of one another with that left open.  What is printed for
every way to show values leaves no doubt about which values are printed, and in which order.
-/

namespace Lox

/-- Prints what `shown` makes of a value on a line of its own. -/
def Action.printAs (shown : Value → String) (keyword : Token) (v : Value) : Action Unit :=
  print keyword (.string (shown v))

theorem Action.printAs_text : printAs Value.text = print := rfl

namespace Layer

/-- Executes a statement with the layer below for its parts, and prints values as they are shown. -/
def executeOfAs (shown : Value → String) (l : Layer) (fuel : Nat) (site : Site) :
    Stmt → Action Flow
  | .print keyword value => do
    let v ← l.evaluate value
    Action.printAs shown keyword v
    return .normal
  | s => l.executeOf fuel site s

theorem executeOfAs_text (l : Layer) : executeOfAs Value.text l = l.executeOf := by
  funext fuel site s
  cases s <;> rfl

end Layer

/-- What evaluates and executes with the given fuel, and prints values as they are shown. -/
def layerAs (shown : Value → String) (host : Host) : Nat → Layer
  | 0 => ⟨fun _ => throw .outOfFuel, fun _ _ => throw .outOfFuel⟩
  | n + 1 =>
    ⟨(layerAs shown host n).evaluateOf host, (layerAs shown host n).executeOfAs shown n⟩

/-- Programs run as they do when every value is shown as its text. -/
theorem layerAs_text (host : Host) (fuel : Nat) :
    layerAs Value.text host fuel = layer host fuel := by
  induction fuel with
  | zero => rfl
  | succ n ih =>
    rw [layerAs, Layer.executeOfAs_text, ih]
    rfl

namespace Session

/-- Executes statements that were loaded from the number `first` on, and prints values as they are
shown. -/
def interpretAs (s : Session) (shown : Value → String) (host : Host) (fuel first : Nat)
    (statements : List Stmt) : Except Halt Unit × Session :=
  s.perform do let _ ← (layerAs shown host fuel).sequence [] first statements

theorem interpretAs_text (s : Session) (host : Host) (fuel first : Nat) (statements : List Stmt) :
    s.interpretAs Value.text host fuel first statements =
      s.interpret host fuel first statements := by
  rw [interpretAs, layerAs_text, interpret]

end Session
end Lox
