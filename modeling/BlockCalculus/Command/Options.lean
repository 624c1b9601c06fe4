import BlockCalculus.Command.Word

/-!
# Options

The classified words of a command line are taken in order (`Draft.take`). The first plain word that
is not the value of a switch is the path; words without a use are collected and complained of at
the end.
-/

namespace BlockCalculus.Command

/-- What a command line asks for. A switch can be given the word `--` as an attached value, which
then counts as no value at all. -/
structure Options where
  path : String
  inputs : Option (Option String) := none
  inputsFile : Option String := none
  validate : Bool := false
  strict : Bool := false
  trace : Bool := false
  /-- The speed of traced runs, unless it was given no value. -/
  speed : Option Speed := some .instant
  verbose : Bool := false
  deriving DecidableEq, Repr

/-- Why a command line asks for nothing to be run. -/
inductive Stop where
  | help
  | usage (e : UsageError)
  deriving DecidableEq, Repr

/-- Options while they are collected. -/
structure Draft where
  path : Option String := none
  options : Options := { path := "" }
  /-- Words without a use, in order. -/
  extras : List String := []

namespace Draft

/-- Takes a switch without a value. -/
def setFlag (s : Switch) (d : Draft) : Except Stop Draft :=
  match s with
  | .help => .error .help
  | .validate => .ok { d with options.validate := true }
  | .strict => .ok { d with options.strict := true }
  | .trace => .ok { d with options.trace := true }
  | .verbose => .ok { d with options.verbose := true }
  | .inputs | .inputsFile | .speed => .error (.usage (.noValue s))

/-- Takes a switch with its value, if it has one. -/
def setValue (s : Switch) (value : Option String) (d : Draft) : Except Stop Draft :=
  match s with
  | .inputs => .ok { d with options.inputs := some value }
  | .inputsFile => .ok { d with options.inputsFile := value }
  | .speed =>
    match value with
    | none => .ok { d with options.speed := none }
    | some text =>
      match Speed.ofName? text with
      | some v => .ok { d with options.speed := some v }
      | none => .error (.usage (.noSuchSpeed text))
  | _ => setFlag s d

/-- Notes a word without a use. -/
def leave (text : String) (d : Draft) : Draft :=
  { d with extras := d.extras ++ [text] }

end Draft

/-- The switches that one-letter spellings behind one dash stand for: one switch, and those of the
letters attached to it. -/
def letters (s : Switch) : List Char → Except UsageError (List Switch)
  | [] => .ok [s]
  | c :: rest =>
    match Switch.ofSpelling? (String.ofList ['-', c]) with
    | some next => (letters next rest).map (s :: ·)
    | none => .error (.ignoredValue s (String.ofList (c :: rest)))

/-- The flags that a switch without a value stands for, with what is attached to it. -/
def flags (s : Switch) (short : Bool) : Option (List Char) → Except UsageError (List Switch)
  | none => .ok [s]
  | some attached =>
    if short && !attached.isEmpty then letters s attached
    else .error (.ignoredValue s (String.ofList attached))

/-- The value that an attached text stands for. -/
def attachedValue (cs : List Char) : Option String :=
  if cs = ['-', '-'] then none else some (String.ofList cs)

namespace Draft

/-- Takes the words of a command line in order. -/
def take : List Word → Draft → Except Stop Draft
  | [], d => .ok d
  | .unknown text :: rest, d => take rest (d.leave text)
  | .switch s short attached :: rest, d =>
    if s.takesValue then
      match attached, rest with
      | some cs, rest => do take rest (← d.setValue s (attachedValue cs))
      | none, .plain text :: rest => do take rest (← d.setValue s (some text))
      | none, _ => .error (.usage (.noValue s))
    else
      match flags s short attached with
      | .error e => .error (.usage e)
      | .ok switches => do take rest (← switches.foldlM (fun d s => d.setFlag s) d)
  | .plain text :: .marker :: rest, d =>
    if d.path.isNone then take rest { d with path := some text }
    else take (.marker :: rest) (d.leave text)
  | .plain text :: rest, d =>
    take rest (if d.path.isNone then { d with path := some text } else d.leave text)
  | .marker :: .plain text :: rest, d =>
    if d.path.isNone then take rest { d with path := some text }
    else take (.plain text :: rest) (d.leave "--")
  | .marker :: rest, d => take rest (d.leave "--")

/-- The options, if there is a path and no word is left without a use. -/
def finish (d : Draft) : Except Stop Options :=
  match d.path with
  | none => .error (.usage .noPath)
  | some path =>
    if d.extras.isEmpty then .ok { d.options with path }
    else .error (.usage (.unrecognized d.extras))

end Draft

/-- Reads a command line. -/
def parseOptions (words : List String) : Except Stop Options :=
  match classifyAll words with
  | .error e => .error (.usage e)
  | .ok classified => do (← Draft.take classified {}).finish

end BlockCalculus.Command
