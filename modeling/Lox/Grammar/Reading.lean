import Lox.Diagnostic

/-!
Reading tokens from the front of a list.

A reader sees the token ahead and takes it.  The token that ends the list is never taken, so at the
end it is what every fault is blamed on.  A fault that makes sense of nothing further is thrown;
any other is recorded and reading goes on.
-/

namespace Lox

/-- The state of reading. -/
structure Reading where
  /-- The tokens that are left, without the one that ends the list. -/
  rest : List Token
  /-- The token that ends the list. -/
  stop : Token
  /-- How many function bodies the place is inside of. -/
  depth : Nat
  /-- The faults so far, in the order in which they were found. -/
  errors : List ParseError

namespace Reading

/-- The token ahead. -/
def ahead (s : Reading) : Token := s.rest.headD s.stop

def record (s : Reading) (e : ParseError) : Reading := { s with errors := s.errors ++ [e] }

end Reading

/-- A parser reads a phrase or throws the fault that keeps it from reading one. -/
abbrev Parser := EStateM ParseError Reading

namespace Parser

def peek : Parser Token := do return (← get).ahead

/-- Takes the token ahead. -/
def take : Parser Token := modifyGet fun s => (s.ahead, { s with rest := s.rest.tail })

/-- Takes the token ahead if it has the given kind. -/
def skip (kind : Kind) : Parser Bool := do
  if (← peek).kind = kind then
    let _ ← take
    return true
  else
    return false

/-- Takes a token that the grammar asks for. -/
def expect (what : Missing) : Parser Token := do
  let t ← peek
  if t.kind = what.kind then take else throw ⟨t, .missing what⟩

/-- Records a fault that does not stop reading. -/
def report (t : Token) (fault : ParseFault) : Parser Unit :=
  modify (·.record ⟨t, fault⟩)

/-- The most parameters or arguments that a function may have. -/
def arityLimit : Nat := 255

/-- Records a fault at the token ahead if `count` entries are as many as there may be. -/
def limit (count : Nat) (fault : ParseFault) : Parser Unit := do
  if arityLimit ≤ count then report (← peek) fault else pure ()

/-- Fails because no expression starts with the token ahead. -/
def missingExpression {α : Type} : Parser α := do
  throw ⟨← peek, .missingExpression⟩

end Parser

end Lox
