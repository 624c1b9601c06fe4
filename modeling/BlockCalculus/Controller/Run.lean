import BlockCalculus.Controller
import BlockCalculus.Controller.Scene

/-!
# Runs

A run is an evaluation under a controller. It goes on in turns. In a turn it advances to the next
point where it has to wait: the delay after a step, a pause, or a rule that waits. So a turn takes
at most one step of the walk. Between turns the tree may be edited (`Run.edited`); the walk finds it
edited when it looks.

A step is reported to the observers and followed by a pause, if one is due, and by the delay. A
run ends with the value of the tree, by being stopped or cancelled, or with a fault.
-/

namespace BlockCalculus

/-- How a run ended. -/
inductive RunEnding where
  | value (n : Int)
  | halted
  | cancelled
  | failed (f : Fault)

/-- Where a run is. What is left to walk comes along. -/
inductive Phase where
  /-- Not begun. -/
  | scheduled
  /-- In the delay after a step. -/
  | delayed (rest : Unit → Walk Int)
  /-- In a pause after a step. -/
  | parked (rest : Unit → Walk Int)
  /-- At a rule that waits. -/
  | waiting (rest : Unit → Walk Int)
  | finished (ending : RunEnding)

/-- A run: the block it evaluates, its inputs, the speed it sets, where it is, what edits took out
of its tree, and whether it is to be cancelled. -/
structure Run where
  root : Site
  inputs : List Int
  speed : Option Speed := none
  phase : Phase := .scheduled
  detached : List Block := []
  cancelling : Bool := false

/-- Whether a run is over. -/
def Run.isFinished (run : Run) : Bool :=
  match run.phase with
  | .finished _ => true
  | _ => false

/-- Asks for a run to be cancelled. One that is over stays as it is. -/
def Run.cancel (run : Run) : Run :=
  if run.isFinished then run else { run with cancelling := true }

/-- The scene of a run on a tree. -/
def Run.scene (tree : Block) (run : Run) : Scene :=
  ⟨tree, run.detached⟩

/-- The run after its tree was edited. -/
def Run.edited (before after : Block) (run : Run) : Run :=
  if run.isFinished then run
  else { run with detached := ((run.scene before).edited after).detached }

/-- What a turn leads to. -/
structure Turn where
  phase : Phase
  controller : Controller
  scene : Scene

/-- The run after a turn. -/
def Run.after (t : Turn) (run : Run) : Run :=
  { run with phase := t.phase, detached := t.scene.detached }

namespace Controller

/-- Forgets what holds for one run only. -/
def settle (c : Controller) : Controller :=
  { c with highlight := none, ignoring := false, pauseNext := false }

/-! ## Endings -/

/-- Ends a run in a state. A failing observer makes the run fail. -/
def close (state : RunState) (ending : RunEnding) (scene : Scene) (c : Controller) : Turn :=
  let (c, fault) := c.enter state
  ⟨.finished (fault.elim ending .failed), c.settle, scene⟩

/-- Ends a run that was stopped. -/
def closeHalted (scene : Scene) (c : Controller) : Turn :=
  let note := "Run halted after " ++ toString c.steps ++ " steps"
  (c.write (.note note)).close .halted .halted scene

/-- Ends a run that was cancelled. -/
def closeCancelled (scene : Scene) (c : Controller) : Turn :=
  c.close .halted .cancelled scene

/-- Ends a run whose evaluation failed. -/
def closeFailed (e : EvalError) (scene : Scene) (c : Controller) : Turn :=
  { c with error := some e }.close .errored (.failed (.evaluation e)) scene

/-- Ends a run by a fault that comes out of its evaluation, from a rule or from an observer. An
observer can stop the run or cancel it in this way, and to nest too deep is an evaluation error. The
state stays what it is if the program is to end. -/
def closeRaised (f : Fault) (scene : Scene) (c : Controller) : Turn :=
  match f with
  | .halted _ => c.closeHalted scene
  | .cancelled => c.closeCancelled scene
  | .evaluation e => c.closeFailed e scene
  | .nesting => c.closeFailed .recursionLimit scene
  | .quit .. => ⟨.finished (.failed f), c.settle, scene⟩
  | _ => c.close .errored (.failed f) scene

/-- Ends a run that got its value. -/
def closeCompleted (n : Int) (scene : Scene) (c : Controller) : Turn :=
  let (c, fault) :=
    ({ c.settle with result := some n }.enter .completed).andThen (notify (.complete n))
  ⟨.finished (fault.elim (.value n) .failed), c, scene⟩

/-! ## Steps -/

/-- Delays a run. -/
def delay (rest : Unit → Walk Int) (scene : Scene) (c : Controller) : Turn :=
  ⟨.delayed rest, c.write (.slept (c.settings.delay c.speed)), scene⟩

/-- Leaves a pause: stops, or goes on to the delay. -/
def leavePause (rest : Unit → Walk Int) (scene : Scene) (c : Controller) : Turn :=
  if c.halting then c.closeHalted scene else c.delay rest scene

/-- Begins a pause. An observer may end it at once. -/
def park (b : Block) (rest : Unit → Walk Int) (scene : Scene) (c : Controller) : Turn :=
  let c :=
    if c.pausesAt b.head.id then
      c.write (.note ("Breakpoint hit at " ++ b.head.label ++ " (" ++ b.head.id ++ ")"))
    else c
  match { c with pauseNext := false, released := false }.enter .paused with
  | (c, some f) => c.closeRaised f scene
  | (c, none) => if c.released then c.leavePause rest scene else ⟨.parked rest, c, scene⟩

/-- Reports a step and then pauses or delays the run, or stops it before the report
(`StepController._on_step`). -/
def report (s : Step) (rest : Unit → Walk Int) (scene : Scene) (c : Controller) : Turn :=
  if c.halting then c.closeHalted scene
  else
    let b := scene.now s.toSite
    let index := c.steps + 1
    let c := { c with steps := index, highlight := some b.head.id }
    match c.notify (.step index b s.result) with
    | (c, some f) => c.closeRaised f scene
    | (c, none) =>
      if c.pausesAt b.head.id || c.pauseNext then c.park b rest scene else c.delay rest scene

/-- Walks on to the next point where the run has to wait, or to its end. -/
def advance : Walk Int → Scene → Controller → Turn
  | .done n, scene, c => c.closeCompleted n scene
  | .fail e, scene, c => c.closeRaised e.fault scene
  | .step s rest, scene, c => c.report s rest (scene.trace c.settings.options.trace s)
  | .wait rest, scene, c => ⟨.waiting rest, c, scene⟩
  | .look site next, scene, c => advance (next (scene.view site)) scene c
  | .consult kind next, scene, c => advance (next (c.settings.catalog.lookup? kind)) scene c

/-- Gets ready for a run on a block, unless one is in progress (`StepController.start`). -/
def prepare (speed : Option Speed) (root : Block) (c : Controller) : Effect :=
  if c.isRunning then (c, some .alreadyRunning)
  else
    let fresh : Controller :=
      { c with
        speed := speed.getD c.speed
        halting := false
        released := false
        steps := 0
        result := none
        error := none
        treeBreakpoints := root.breakpoints }
    fresh.enter .running

/-- Begins a run. It goes on by `go`. -/
def begin (go : Walk Int → Scene → Controller → Turn) (run : Run) (tree : Block)
    (c : Controller) : Turn :=
  let scene := run.scene tree
  let root := scene.now run.root
  match c.prepare run.speed root with
  | (c, some f) => ⟨.finished (.failed f), c, scene⟩
  | (c, none) => go (Site.walk c.settings.options { run.root with block := root } run.inputs) scene c

/-- The first turn of a run. -/
def start (run : Run) (tree : Block) (c : Controller) : Turn :=
  c.begin advance run tree

/-- One turn of a run on its tree. -/
def turn (run : Run) (tree : Block) (c : Controller) : Turn :=
  let scene := run.scene tree
  match run.phase, run.cancelling with
  | .finished ending, _ => ⟨.finished ending, c, scene⟩
  | .scheduled, true => ⟨.finished .cancelled, c, scene⟩
  | .scheduled, false => c.start run tree
  | .delayed _, true | .parked _, true | .waiting _, true => c.closeCancelled scene
  | .delayed rest, false => if c.halting then c.closeHalted scene else advance (rest ()) scene c
  | .parked rest, false => if c.released then c.leavePause rest scene else ⟨.parked rest, c, scene⟩
  | .waiting rest, false => advance (rest ()) scene c

/-! ## Whole runs -/

/-- Follows a walk to the end of its run, as long as nothing pauses it. -/
def play : Walk Int → Scene → Controller → Turn
  | .done n, scene, c => c.closeCompleted n scene
  | .fail e, scene, c => c.closeRaised e.fault scene
  | .step s rest, scene, c =>
    let t := c.report s rest (scene.trace c.settings.options.trace s)
    match t.phase with
    | .delayed _ =>
      if t.controller.halting then t.controller.closeHalted t.scene
      else play (rest ()) t.scene t.controller
    | _ => t
  | .wait rest, scene, c => play (rest ()) scene c
  | .look site next, scene, c => play (next (scene.view site)) scene c
  | .consult kind next, scene, c => play (next (c.settings.catalog.lookup? kind)) scene c

/-- A whole run, up to its end or to a pause, on a tree that nobody edits. -/
def playThrough (run : Run) (tree : Block) (c : Controller) : Turn :=
  c.begin play run tree

end Controller

end BlockCalculus
