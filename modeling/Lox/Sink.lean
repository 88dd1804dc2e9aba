import Lox.Diagnostic

/-!
The output sink: where printed lines go, and how it can break.
-/

namespace Lox

/-- How and when a sink breaks: after `good` lines were passed on, for good. -/
structure Breakage where
  fault : SinkFault
  good : Nat

/-- A sink with the text it has collected and the number of lines it has passed on. -/
structure Sink where
  text : String
  flushes : Nat
  breakage : Option Breakage

namespace Sink

/-- A sink that has collected nothing yet. -/
def fresh (breakage : Option Breakage) : Sink := ⟨"", 0, breakage⟩

instance : Inhabited Sink := ⟨fresh none⟩

/-- The fault that the next line meets. -/
def fault? (s : Sink) : Option SinkFault :=
  match s.breakage with
  | some b => if b.good ≤ s.flushes then some b.fault else none
  | none => none

def collect (s : Sink) (line : String) : Sink := { s with text := s.text ++ line ++ "\n" }

/-- Writes a line and passes it on.  A sink that cannot pass a line on has still collected it. -/
def print (s : Sink) (line : String) : Option SinkFault × Sink :=
  match s.fault? with
  | none => (none, { s.collect line with flushes := s.flushes + 1 })
  | some .unflushable => (some .unflushable, s.collect line)
  | some fault => (some fault, s)

/-- The text collected so far, and the sink without it. -/
def drain (s : Sink) : String × Sink := (s.text, { s with text := "" })

end Sink

end Lox
