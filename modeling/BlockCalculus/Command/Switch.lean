import BlockCalculus.Controller

/-!
# Switches of the command line

A switch has one or more spellings, long ones with two dashes and short ones with one dash and one
letter. Some take a value. `UsageError` is what can be wrong with a command line.
-/

namespace BlockCalculus.Command

/-- A switch. -/
inductive Switch where
  | help
  | inputs
  | inputsFile
  | validate
  | strict
  | trace
  | speed
  | verbose
  deriving DecidableEq, Repr

namespace Switch

/-- Every switch. -/
def all : List Switch := [help, inputs, inputsFile, validate, strict, trace, speed, verbose]

/-- How a switch is spelled. -/
def spellings : Switch → List String
  | help => ["-h", "--help"]
  | inputs => ["--inputs"]
  | inputsFile => ["--inputs-file"]
  | validate => ["--validate"]
  | strict => ["--strict"]
  | trace => ["--trace"]
  | speed => ["--speed"]
  | verbose => ["-v", "--verbose"]

/-- Whether a switch takes a value. -/
def takesValue : Switch → Bool
  | inputs | inputsFile | speed => true
  | _ => false

/-- How messages call a switch. -/
def label (s : Switch) : String :=
  String.intercalate "/" s.spellings

/-- Every spelling with its switch. -/
def table : List (String × Switch) :=
  all.flatMap fun s => s.spellings.map fun spelling => (spelling, s)

/-- The switch of a spelling. -/
def ofSpelling? (spelling : String) : Option Switch :=
  (table.find? fun entry => entry.1 == spelling).map Prod.snd

end Switch

/-- What can be wrong with a command line. -/
inductive UsageError where
  /-- A word may stand for several spellings. -/
  | ambiguous (word : String) (spellings : List String)
  /-- A value is attached to a switch that takes none. -/
  | ignoredValue (s : Switch) (value : String)
  | noValue (s : Switch)
  | noSuchSpeed (value : String)
  | noPath
  /-- Some words have no use. -/
  | unrecognized (words : List String)
  deriving DecidableEq, Repr

/-- A message about a switch. -/
def Switch.complaint (s : Switch) (text : String) : String :=
  "argument " ++ s.label ++ ": " ++ text

/-- What is wrong with a command line, in words. -/
def UsageError.message : UsageError → String
  | ambiguous word spellings =>
    "ambiguous option: " ++ word ++ " could match " ++ String.intercalate ", " spellings
  | ignoredValue s value => s.complaint ("ignored explicit argument " ++ Text.quoted value)
  | noValue s => s.complaint "expected one argument"
  | noSuchSpeed value =>
    Switch.speed.complaint ("invalid choice: " ++ Text.quoted value ++ " (choose from " ++
      String.intercalate ", " (Speed.all.map fun v => Text.quoted v.name) ++ ")")
  | noPath => "the following arguments are required: path"
  | unrecognized words => "unrecognized arguments: " ++ String.intercalate " " words

end BlockCalculus.Command
