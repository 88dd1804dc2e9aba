import Lox.CommandLine.Similarity

/-!
What the arguments of the command line ask for.

Arguments are read in order.  Help, the version and an argument that there is no place for settle
the request at once; whether the arguments go together is checked behind the last of them.
-/

namespace Lox

/-- The long options, in the order in which they are shown. -/
inductive Flag where
  | listing
  | help
  | version
deriving DecidableEq, Repr

namespace Flag

def all : List Flag := [listing, help, version]

/-- The name of an option, without its dashes. -/
def name : Flag → String
  | listing => "dump-ast"
  | help => "help"
  | version => "version"

def ofName? (name : String) : Option Flag := all.find? fun flag => flag.name == name

/-- How alike a name has to be to an option's to be taken for a misspelling of it. -/
def likeness : Float := 0.8

/-- The option that an unknown name may have been meant to be. -/
def meant? (name : String) : Option Flag := Similarity.mostAlike? likeness Flag.name name all

end Flag

inductive Request where
  | help
  | version
  /-- An argument that the command line has no place for, the option it may have been meant to be,
  and whether a listing was asked for in front of it. -/
  | unexpected (argument : String) (meant : Option Flag) (listing : Bool)
  /-- A listing was asked for, but not of which script. -/
  | scriptMissing
  /-- A listing was asked for more than once. -/
  | repeated
  | run (path : String)
  | list (path : String)
  | prompt
deriving DecidableEq, Repr

/-- What the arguments read so far have settled. -/
structure Options where
  script : Option String
  /-- How often a listing was asked for. -/
  listings : Nat
  /-- Whether a pair of dashes has ended the options. -/
  ended : Bool

namespace Options

/-- Nothing has been read yet. -/
def initial : Options := ⟨none, 0, false⟩

/-- What is asked for when the arguments end.  A missing script is noticed before a repetition. -/
def request (o : Options) : Request :=
  match o.script, o.listings with
  | some path, 0 => .run path
  | some path, 1 => .list path
  | some _, _ => .repeated
  | none, 0 => .prompt
  | none, _ => .scriptMissing

/-- The complaint about an argument that there is no place for. -/
def refuse (o : Options) (argument : String) (meant : Option Flag) : Request :=
  .unexpected argument meant (o.listings != 0)

/-- Takes a long option. -/
def takeFlag (o : Options) : Flag → Except Request Options
  | .listing => .ok { o with listings := o.listings + 1 }
  | .help => .error .help
  | .version => .error .version

/-- Takes an option by its name. -/
def takeName (o : Options) (name : String) : Except Request Options :=
  match Flag.ofName? name with
  | some flag => o.takeFlag flag
  | none => .error (o.refuse ("--" ++ name) (Flag.meant? name))

/-- Takes the first of some short options.  Each of them settles the request. -/
def takeLetter (o : Options) : Char → Except Request Options
  | 'h' => o.takeFlag .help
  | 'V' => o.takeFlag .version
  | letter => .error (o.refuse (String.ofList ['-', letter]) none)

/-- Takes an argument that is no option.  There is a place for one of them. -/
def takeScript (o : Options) (path : String) : Except Request Options :=
  match o.script with
  | none => .ok { o with script := path }
  | some _ => .error (o.refuse path none)

/-- The name of a long option.  It may have any number of dashes in front, and a value behind an
equals sign, which is ignored because no option takes one. -/
def longName (argument : List Char) : String :=
  String.ofList ((argument.dropWhile (· == '-')).takeWhile (· != '='))

/-- Takes an argument, which may settle the whole request. -/
def take (o : Options) (argument : String) : Except Request Options :=
  match o.ended, argument.toList with
  | false, ['-', '-'] => .ok { o with ended := true }
  | false, '-' :: '-' :: name => o.takeName (longName name)
  | false, '-' :: letter :: _ => o.takeLetter letter
  | _, _ => o.takeScript argument

end Options

/-- What the arguments ask for.  The first one that settles it wins over all behind it. -/
def Request.ofArguments (arguments : List String) : Request :=
  match arguments.foldlM Options.take Options.initial with
  | .ok options => options.request
  | .error request => request

end Lox
