import BlockCalculus.Command.Options

/-!
# What a command prints

A command prints coloured lines to its output, and lines of a journal to its error output. In
between it may wait. `Event` is one of these, in the order in which they happen.
-/

namespace BlockCalculus.Command

/-- Something a command does for others to see. -/
inductive Event where
  | out (text : String)
  | err (text : String)
  | sleep (milliseconds : Int)
  deriving DecidableEq, Repr

/-- How a command ends. -/
inductive Ending where
  /-- It is done, with an exit code. -/
  | done (code : Nat)
  /-- Its command line ends it, with an exit code. -/
  | exit (code : Nat)
  /-- It fails. -/
  | failed (f : Fault)
  /-- It pauses at a breakpoint, and nobody is there to end the pause. -/
  | paused

/-- What a command does, and how it ends. -/
structure Transcript where
  events : List Event
  ending : Ending

/-- The output of a command. -/
def Transcript.stdout (t : Transcript) : String :=
  String.join (t.events.filterMap fun
    | .out text => some text
    | _ => none)

/-- The error output of a command. -/
def Transcript.stderr (t : Transcript) : String :=
  String.join (t.events.filterMap fun
    | .err text => some text
    | _ => none)

/-! ## Coloured lines -/

/-- How text looks on a terminal (`Colors`). -/
inductive Style where
  | plain
  | bold
  | dim
  | red
  | green
  | yellow
  | cyan
  deriving DecidableEq, Repr

/-- The sequence that switches to a style. -/
def Style.code : Style → String
  | plain => "\x1b[0m"
  | bold => "\x1b[1m"
  | dim => "\x1b[2m"
  | red => "\x1b[31m"
  | green => "\x1b[32m"
  | yellow => "\x1b[33m"
  | cyan => "\x1b[36m"

/-- Text in a style. -/
def styled (style : Style) (text : String) : String :=
  style.code ++ text ++ Style.plain.code

/-- A line in a style (`print_msg`). -/
def line (text : String) (style : Style := .plain) : Event :=
  .out (styled style text ++ "\n")

/-- Text, moved to the right until it is `width` wide. -/
def alignRight (width : Nat) (text : String) : String :=
  String.ofList (List.replicate (width - text.length) ' ') ++ text

/-- The line for a step of a traced run (`format_step`). -/
def stepLine (index : Nat) (b : Block) (result : Int) : Event :=
  .out (styled .dim ("[" ++ alignRight 4 (toString index) ++ "]") ++ " " ++ b.head.label ++ "(" ++
    Text.numbers (b.head.lastInput.getD []) ++ ") = " ++ styled .cyan (toString result) ++ "\n")

/-! ## The journal -/

/-- A line of the journal. -/
def journal (level source text : String) : Event :=
  .err (level ++ " " ++ source ++ ": " ++ text ++ "\n")

/-- A warning. -/
def warning (text : String) : Event :=
  journal "WARNING" "pyblocks.document" text

/-- A note on an evaluation. -/
def evaluationNote (text : String) : Event :=
  journal "DEBUG" "pyblocks.evaluator" text

/-- A note on a traced run. -/
def controllerNote (text : String) : Event :=
  journal "DEBUG" "pyblocks.controller" text

/-! ## Usage and help -/

/-- How the command is used. -/
def usageText : String :=
  "usage: pyblocks [-h] [--inputs INPUTS] [--inputs-file INPUTS_FILE]\n" ++
  "                [--validate] [--strict] [--trace]\n" ++
  "                [--speed \x7binstant,fast,slow\x7d] [-v]\n" ++
  "                path\n"

/-- The help. -/
def helpText : String :=
  usageText ++
  "\nRun and validate primitive recursive function block documents\n" ++
  "\npositional arguments:\n" ++
  "  path                  Path to the editor document\n" ++
  "\noptions:\n" ++
  "  -h, --help            show this help message and exit\n" ++
  "  --inputs INPUTS       Input values (comma-separated or JSON array)\n" ++
  "  --inputs-file INPUTS_FILE\n" ++
  "                        Read inputs from JSON file\n" ++
  "  --validate            Only validate, don't evaluate\n" ++
  "  --strict              Don't evaluate a tree with validation errors\n" ++
  "  --trace               Evaluate step by step and print every step\n" ++
  "  --speed \x7binstant,fast,slow\x7d\n" ++
  "                        Delay between traced steps\n" ++
  "  -v, --verbose         Show detailed output\n"

/-- What a command line that asks for nothing to be run leads to. -/
def Stop.transcript : Stop → Transcript
  | .help => ⟨[.out helpText], .exit 0⟩
  | .usage e => ⟨[.err (usageText ++ "pyblocks: error: " ++ e.message ++ "\n")], .exit 2⟩

/-! ## Problems of a tree -/

mutual

/-- The blocks of a tree, outer ones first, each with the way to it from the root
(`iter_with_paths`). -/
def withPaths (path : String) : Block → List (String × Head)
  | ⟨head, slots⟩ => (path, head) :: slotsWithPaths path slots

/-- The blocks in slots, with the way to them. -/
def slotsWithPaths (path : String) : List Slot → List (String × Head)
  | [] => []
  | ⟨_, none⟩ :: rest => slotsWithPaths path rest
  | ⟨shape, some b⟩ :: rest =>
    withPaths (path ++ "/" ++ shape.name) b ++ slotsWithPaths path rest

end

/-- One line for every problem of every block (`report_errors`). That blocks below have problems is
not repeated. -/
def problemLines (root : Block) : List Event :=
  (withPaths root.head.label root).flatMap fun (path, head) =>
    (head.problems.filter (· ≠ .inChildren)).map fun p =>
      line ("  - " ++ path ++ ": " ++ p.message) .red

end BlockCalculus.Command
