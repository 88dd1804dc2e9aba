import Lox.CommandLine.Prompt
import Lox.CommandLine.Request
import Lox.Syntax.Render

/-!
What the command line answers to a request.
-/

namespace Lox

/-- Why the bytes of a file could not be had. -/
inductive ReadFault where
  | missing
  | isDirectory
  /-- Something in the middle of the path is a file. -/
  | notDirectory
  | other (description : String)
deriving DecidableEq, Repr

def ReadFault.description : ReadFault → String
  | missing => "No such file or directory (os error 2)"
  | isDirectory => "Is a directory (os error 21)"
  | notDirectory => "Not a directory (os error 20)"
  | other description => description

/-- How files are read: by the bytes found at a path. -/
abbrev Files := String → Except ReadFault ByteArray

namespace CommandLine

def helpText : String :=
  "tlox \nTree-walking interpreter for Lox\n\nUSAGE:\n    tlox [FLAGS] [script]\n\n" ++
  "FLAGS:\n        --dump-ast    Print the parsed program instead of running it\n" ++
  "    -h, --help        Prints help information\n" ++
  "    -V, --version     Prints version information\n\n" ++
  "ARGS:\n    <script>    Script to run; starts a prompt when omitted\n"

def versionText : String := "tlox \n"

/-- How to call the program with some options.  They are named with the script they need, and
where there are none the general form is shown. -/
def usage (flags : List Flag) : String :=
  if flags.isEmpty then " [FLAGS] [script]"
  else
    (if flags.contains .listing then " <script>" else "") ++
      flags.foldr (fun flag rest => " --" ++ flag.name ++ rest) ""

/-- A complaint about the arguments, with the way the options among them are used. -/
def complaint (what : String) (flags : List Flag) : String :=
  "error: " ++ what ++ "\n\nUSAGE:\n    tlox" ++ usage flags ++
    "\n\nFor more information try --help\n"

/-- A text shown in green. -/
def highlighted (text : String) : String := "\x1b[32m" ++ text ++ "\x1b[0m"

/-- The question whether an option was meant. -/
def suggestion : Option Flag → String
  | none => ""
  | some flag => "\n\tDid you mean " ++ highlighted "--" ++ highlighted flag.name ++ "?"

/-- The complaint about an argument that there is no place for.  It tells how to use the option
that may have been meant together with those that were given. -/
def unexpectedText (argument : String) (meant : Option Flag) (listing : Bool) : String :=
  complaint
    ("Found argument '" ++ argument ++ "' which wasn't expected, or isn't valid in this context" ++
      suggestion meant)
    (Flag.all.filter fun flag => flag = .listing && listing || meant == some flag)

def scriptMissingText : String :=
  complaint "The following required arguments were not provided:\n    <script>" [.listing]

def repeatedText : String :=
  complaint
    ("The argument '--" ++ Flag.listing.name ++
      "' was provided more than once, but cannot be used multiple times")
    [.listing]

def unreadableText (path description : String) : String :=
  "Could not read '" ++ path ++ "': " ++ description ++ "\n"

/-- The text of a file, or why there is none. -/
def readText (files : Files) (path : String) : Except String String :=
  match files path with
  | .error fault => .error fault.description
  | .ok bytes =>
    match String.fromUTF8? bytes with
    | none => .error notText
    | some text => .ok text

/-- The status that tells how a script ended.  A script that the fuel does not suffice for has
failed. -/
def statusOf : Outcome → Status
  | .completed => .success
  | .rejected => .malformed
  | .failed | .outOfFuel => .failed

/-- Runs a script in a session of its own. -/
def runScript (host : Host) (fuel : Nat) (source : String) : Status × Transcript :=
  let (report, s) := (Session.start none).run host fuel source
  (statusOf report.outcome, ⟨s.machine.sink.text, listing report.diagnostics⟩)

/-- Lists the statements of a script, one on a line, unless there are faults in it. -/
def listScript (source : String) : Status × Transcript :=
  let program := Program.ofSource source
  if program.diagnostics.isEmpty then
    (.success, ⟨program.statements.foldr (fun s rest => s.render ++ "\n" ++ rest) "", ""⟩)
  else
    (.malformed, ⟨"", listing program.diagnostics⟩)

/-- Does something with the text of a script that can be read. -/
def withScript (files : Files) (path : String) (use : String → Status × Transcript) :
    Status × Transcript :=
  match readText files path with
  | .error description => (.unreadable, ⟨"", unreadableText path description⟩)
  | .ok source => use source

/-- The answer to a request, given the files and the whole standard input. -/
def answer (host : Host) (fuel : Nat) (files : Files) (input : List UInt8) :
    Request → Status × Transcript
  | .help => (.success, ⟨helpText, ""⟩)
  | .version => (.success, ⟨versionText, ""⟩)
  | .unexpected argument meant listing => (.usage, ⟨"", unexpectedText argument meant listing⟩)
  | .scriptMissing => (.usage, ⟨"", scriptMissingText⟩)
  | .repeated => (.usage, ⟨"", repeatedText⟩)
  | .run path => withScript files path (runScript host fuel)
  | .list path => withScript files path listScript
  | .prompt => (.success, Prompt.converse (.start none) host fuel (Prompt.lines input))

/-- The answer to the arguments of a command line. -/
def respond (host : Host) (fuel : Nat) (files : Files) (input : List UInt8)
    (arguments : List String) : Status × Transcript :=
  answer host fuel files input (.ofArguments arguments)

end CommandLine

end Lox
