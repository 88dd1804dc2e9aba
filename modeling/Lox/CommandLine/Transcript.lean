/-!
What a run of the command line leaves behind.
-/

namespace Lox

/-- The texts written to the two output streams. -/
structure Transcript where
  output : String
  errors : String
deriving DecidableEq, Repr

namespace Transcript

def empty : Transcript := ⟨"", ""⟩

def append (a b : Transcript) : Transcript := ⟨a.output ++ b.output, a.errors ++ b.errors⟩

instance : Append Transcript := ⟨append⟩

end Transcript

/-- The status with which a program ends. -/
inductive Status where
  | success
  | usage
  | malformed
  | failed
  | unreadable
deriving DecidableEq, Repr

/-- Failures have the customary numbers of their kinds. -/
def Status.code : Status → Nat
  | success => 0
  | usage => 64
  | malformed => 65
  | failed => 70
  | unreadable => 74

end Lox
