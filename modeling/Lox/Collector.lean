import Lox.Session

/-!
Sessions that report into a collector.

A collector is handed from run to run and keeps everything that was ever reported into it.  A run
tells how it ended by what was reported since it began, whatever was there before.
-/

namespace Lox

/-- Everything that was reported, in order. -/
structure Collector where
  entries : List Diagnostic

namespace Collector

/-- Nothing has been reported yet. -/
def empty : Collector := ⟨[]⟩

def size (c : Collector) : Nat := c.entries.length

def report (c : Collector) (d : Diagnostic) : Collector := ⟨c.entries ++ [d]⟩

/-- Reports one after the other. -/
def reportAll (c : Collector) (ds : List Diagnostic) : Collector := ds.foldl report c

/-- What was reported behind the first `count` entries. -/
def since (c : Collector) (count : Nat) : List Diagnostic := c.entries.drop count

end Collector

/-- Reads a source text and reports its faults, those of spelling in front of those of grammar. -/
def Program.readInto (collector : Collector) (source : String) : List Stmt × Collector :=
  let scanned := scan source
  let collector := collector.reportAll (scanned.errors.map ScanError.diagnostic)
  let parsed := parse scanned.tokens
  (parsed.statements, collector.reportAll (parsed.errors.map ParseError.diagnostic))

/-- What a run shows: how it ended, what was reported, and what was printed. -/
structure Turn where
  outcome : Outcome
  reported : List Diagnostic
  printed : String

namespace Session

/-- Runs a source text, unless there are faults in it.  There are if anything static was reported
since the run began. -/
def runInto (s : Session) (host : Host) (fuel : Nat) (collector : Collector) (source : String) :
    Outcome × Collector × Session :=
  let before := collector.size
  let (statements, collector) := Program.readInto collector source
  if (collector.since before).any Diagnostic.isStatic then
    (.rejected, collector, s)
  else
    let (first, s) := s.load statements
    match s.interpret host fuel first statements with
    | (.ok _, s) => (.completed, collector, s)
    | (.error (.fault e), s) => (.failed, collector.report e.diagnostic, s)
    | (.error .outOfFuel, s) => (.outOfFuel, collector, s)

/-- What sources show that run one after the other and report into one collector.  What was printed
before a run is taken away first. -/
def turns (s : Session) (host : Host) (fuel : Nat) (collector : Collector) :
    List String → List Turn
  | [] => []
  | source :: rest =>
    let (outcome, after, s) := s.drain.2.runInto host fuel collector source
    ⟨outcome, after.since collector.size, s.machine.sink.text⟩ ::
      s.turns host fuel after rest

end Session
end Lox
