import BlockCalculus.Command.Inputs
import BlockCalculus.Command.Report
import BlockCalculus.Controller.Run
import BlockCalculus.Evaluation.Journal

/-!
# Running a document

The command loads a document, finds the inputs, checks the tree for that many inputs, and
evaluates it, in one go or step by step. Every stage may end the command.
-/

namespace BlockCalculus.Command

/-- A stage of the command: what it adds to the transcript, and its result or how it ends the
command. -/
structure Stage (α : Type) where
  events : List Event
  outcome : Except Ending α

namespace Stage

variable {α β : Type}

/-- A stage that ends the command. -/
def stop (events : List Event) (ending : Ending) : Stage α :=
  ⟨events, .error ending⟩

/-- One stage after another. -/
def andThen (s : Stage α) (next : α → Stage β) : Stage β :=
  match s.outcome with
  | .error ending => ⟨s.events, .error ending⟩
  | .ok a =>
    let t := next a
    ⟨s.events ++ t.events, t.outcome⟩

/-- The transcript of the last stage, whose result is an exit code. -/
def transcript (s : Stage Nat) : Transcript :=
  match s.outcome with
  | .ok code => ⟨s.events, .done code⟩
  | .error ending => ⟨s.events, ending⟩

end Stage

/-- Loads the document and finds its root. -/
def loadStage (files : Files) (path : String) : Stage (Block × List Int) :=
  let (loaded, desk) := (EditorState.load files .standard (.text path)).run {}
  let warnings := desk.warnings.map warning
  match loaded with
  | .error f => .stop warnings (.failed f)
  | .ok (.error findings) =>
    .stop (warnings ++ [line ("Error: Could not load document: " ++ path) .red] ++
      findings.map fun f => line ("  - " ++ f.line) .red) (.done 1)
  | .ok (.ok state) =>
    match state.root with
    | none => .stop (warnings ++ [line "Error: Document has no root block" .red]) (.done 1)
    | some root =>
      ⟨warnings ++ [line ("\n" ++ styled .bold "Running:" ++ " " ++ styled .cyan path ++ "\n")],
        .ok (root, state.inputs)⟩

/-- Whether a fault on the way to the inputs is reported and not passed on. -/
def isInputProblem : Fault → Bool
  | .tooManyDigits _ | .notInteger _ | .inputNotInteger _ => true
  | _ => false

/-- Inputs from the text that the command line gives. -/
def inputsFromText : Option String → Stage (List Int)
  | none => .stop [] (.failed .noInputText)
  | some text =>
    match parseInputs text with
    | .ok inputs => ⟨[], .ok inputs⟩
    | .error f =>
      if isInputProblem f then .stop [line ("Error: " ++ f.message) .red] (.done 1)
      else .stop [] (.failed f)

/-- Inputs from a file, or else those of the document. -/
def inputsFromFile (files : Files) (file : String) (stored : List Int) : Stage (List Int) :=
  if file = "" then ⟨[], .ok stored⟩
  else
    match readInputs files file with
    | .ok (some inputs) => ⟨[], .ok inputs⟩
    | .ok none =>
      ⟨[line ("Warning: Could not read inputs file: " ++ file) .yellow], .ok stored⟩
    | .error f => .stop [] (.failed f)

/-- Finds the inputs. Those of the command line come first, then those of a file, then those of
the document. -/
def inputStage (files : Files) (options : Options) (stored : List Int) : Stage (List Int) :=
  match options.inputs with
  | some text => inputsFromText text
  | none => inputsFromFile files (options.inputsFile.getD "") stored

/-- Sets up the tree for a number of inputs, unless it is set up for that already. -/
def adjust (root : Block) (count : Int) : Except Fault Block :=
  if count = root.head.inputCount then .ok root else (root.propagate count).checked .standard

/-- Adjusts the tree to the inputs and reports its problems. -/
def checkStage (options : Options) (root : Block) (inputs : List Int) : Stage Block :=
  match adjust root inputs.length with
  | .error f => .stop [] (.failed f)
  | .ok root =>
    let title := line (styled .bold "Validating...")
    if root.head.problems.isEmpty then
      let events := [title, line (styled .green "✓ Validation passed" ++ "\n")]
      if options.validate then .stop events (.done 0) else ⟨events, .ok root⟩
    else
      let events := title :: line "Validation found problems:" .yellow :: problemLines root
      if options.strict || options.validate then .stop events (.done 1) else ⟨events, .ok root⟩

/-- Ends the command after an evaluation failed. -/
def failure (f : Fault) : Stage Int :=
  match f with
  | .evaluation e =>
    .stop [line (styled .red "Evaluation error:" ++ " " ++ e.code.name) .red,
      line ("  " ++ e.message) .red] (.done 1)
  | _ => .stop [] (.failed f)

/-- Evaluates the tree in one go. -/
def evaluateStage (options : Options) (root : Block) (inputs : List Int) : Stage Int :=
  let evaluated := root.evaluateNoted .standard {} inputs
  let notes := if options.verbose then evaluated.notes.map evaluationNote else []
  Stage.andThen ⟨notes, .ok ()⟩ fun _ =>
    match evaluated.outcome with
    | .error f => failure f
    | .ok n => ⟨[], .ok n⟩

/-- Whether the line for a step can be written. -/
def isWritableStep (b : Block) (result : Int) : Bool :=
  (b.head.lastInput.getD []).all Text.isWritable && Text.isWritable result

/-- The observer that writes a line for every step, and fails if it cannot. -/
def stepWriter : Observer where
  react
    | _, .step _ b result => if isWritableStep b result then [] else [.fail .unwritable]
    | _, _ => []

/-- What an entry of a controller's log adds to the transcript. -/
def logEvents (verbose : Bool) : LogEntry → List Event
  | .told _ (.step index b result) =>
    if isWritableStep b result then [stepLine index b result] else []
  | .told _ _ => []
  | .slept milliseconds => [.sleep milliseconds]
  | .note text => if verbose then [controllerNote text] else []

/-- Evaluates the tree step by step. -/
def traceStage (options : Options) (speed : Speed) (root : Block) (inputs : List Int) :
    Stage Int :=
  let controller : Controller := { settings := { observers := [stepWriter] } }
  let turn := controller.playThrough { root := ⟨[], root⟩, inputs, speed := some speed } root
  let events := turn.controller.log.toList.flatMap (logEvents options.verbose)
  Stage.andThen ⟨events, .ok ()⟩ fun _ =>
    match turn.phase with
    | .finished (.value n) =>
      ⟨if options.verbose then [line (toString turn.controller.steps ++ " steps") .dim] else [],
        .ok n⟩
    | .finished (.failed f) => failure f
    | _ => .stop [] .paused

/-- Evaluates the tree and prints its value. -/
def valueStage (options : Options) (speed : Speed) (root : Block) (inputs : List Int) :
    Stage Nat :=
  let title := line (styled .bold ("Evaluating on " ++ Text.numberList inputs ++ "..."))
  Stage.andThen ⟨[title], .ok ()⟩ fun _ =>
    Stage.andThen
      (if options.trace then traceStage options speed root inputs
       else evaluateStage options root inputs) fun n =>
      ⟨[line (styled .green "✓ Result:" ++ " " ++ styled .cyan (toString n))], .ok 0⟩

/-- Runs the document that the options name (`run_document`). -/
def runDocument (files : Files) (options : Options) (speed : Speed) : Transcript :=
  Stage.transcript <|
    (loadStage files options.path).andThen fun (root, stored) =>
    (inputStage files options stored).andThen fun inputs =>
    (checkStage options root inputs).andThen fun root =>
    valueStage options speed root inputs

/-- The paths that a command reads. -/
def pathsRead (words : List String) : List String :=
  match parseOptions words with
  | .error _ => []
  | .ok options => normalizePath options.path :: options.inputsFile.toList

/-- Runs the command. -/
def run (files : Files) (words : List String) : Transcript :=
  match parseOptions words with
  | .error stop => stop.transcript
  | .ok options =>
    match options.speed with
    | none => ⟨[], .failed (.noSpeed (.arr []))⟩
    | some speed => runDocument files options speed

end BlockCalculus.Command
