import Lox.CommandLine.Answer

/-!
The program: runs a script, lists one, or prompts for lines.
-/

namespace Lox

/-- A host whose only native tells a time that was taken beforehand. -/
def Host.withClock (seconds : Float) : Host := fun entry _ =>
  if entry = Native.clock.entry then .number seconds else .nil

namespace CommandLine

/-- The host at this moment.  Its clock counts from some moment in the past. -/
def currentHost : IO Host := do
  return .withClock ((← IO.monoMsNow).toFloat / 1000)

/-- Reads the file that a request is about. -/
def readFile (path : String) : IO (Except ReadFault ByteArray) := do
  try
    return .ok (← IO.FS.readBinFile path)
  catch
    | .noFileOrDirectory .. => return .error .missing
    | .inappropriateType _ code _ =>
      return .error (if code = 20 then .notDirectory else .isDirectory)
    | fault => return .error (.other (toString fault))

/-- Reads up to a newline, one byte at a time so that nothing behind it is taken. -/
partial def readBytes (input : IO.FS.Stream) (before : List UInt8) : IO (List UInt8) := do
  let byte ← input.read 1
  match byte.data.toList with
  | [] => return before.reverse
  | b :: _ =>
    if b = Prompt.newline then return (b :: before).reverse else readBytes input (b :: before)

/-- The next line of the standard input, `none` at its end. -/
def readLine : IO (Option (List UInt8)) := do
  let bytes ← readBytes (← IO.getStdin) []
  return if bytes.isEmpty then none else some bytes

def write (transcript : Transcript) : IO Unit := do
  let output ← IO.getStdout
  output.putStr transcript.output
  output.flush
  (← IO.getStderr).putStr transcript.errors

/-- Prompts for lines until the input ends or holds a line that is no text. -/
partial def converse (s : Session) : IO Unit := do
  write ⟨Prompt.sign, ""⟩
  match ← readLine with
  | none => return
  | some line =>
    match Prompt.decode? (Prompt.withoutEnd line) with
    | none => write ⟨"", notText ++ "\n"⟩
    | some text =>
      let (written, s) := Prompt.feed s (← currentHost) ampleFuel text
      write written
      converse s

/-- Answers a request and gives the status to end with. -/
def serve : Request → IO Status
  | .prompt => do
    converse (.start none)
    return .success
  | request => do
    let path := match request with
      | .run path | .list path => path
      | _ => ""
    let content ← readFile path
    let (status, transcript) :=
      answer (← currentHost) ampleFuel (fun _ => content) [] request
    write transcript
    return status

end CommandLine

end Lox

def main (arguments : List String) : IO UInt32 := do
  let status ← Lox.CommandLine.serve (.ofArguments arguments)
  return status.code.toUInt32
