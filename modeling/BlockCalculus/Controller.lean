import BlockCalculus.Block.Listing
import BlockCalculus.Evaluation

/-!
# Controllers

A controller (`StepController`) watches over stepped evaluations, one run at a time. It knows the
state of the run, and what was asked of it: to pause at the next step, to stop, at which blocks to
pause. Observers are told of steps, of changes of state and of results, and may react: by asking the
controller for something, or by failing. What they do may depend on all that was told before.

`apply` is what asking for a control does. Only `resume` and `singleStep` change the state, and
only from `paused` to `running`; that change is announced in turn, and since no control changes the
state while a run is `running`, what observers ask for then is just marked down (`mark`).

All that happens is written to a log: what observers were told, the delays, and notes.
-/

namespace BlockCalculus

/-- The state of a controller. -/
inductive RunState where
  | idle
  | running
  | paused
  | completed
  | halted
  | errored
  deriving DecidableEq, Repr

/-- The name of a state. -/
def RunState.name : RunState → String
  | idle => "idle"
  | running => "running"
  | paused => "paused"
  | completed => "completed"
  | halted => "halted"
  | errored => "errored"

/-- How fast a run goes on after a step. -/
inductive Speed where
  | instant
  | fast
  | slow
  deriving DecidableEq, Repr

namespace Speed

/-- Every speed. -/
def all : List Speed := [instant, fast, slow]

/-- The name of a speed. -/
def name : Speed → String
  | instant => "instant"
  | fast => "fast"
  | slow => "slow"

/-- The speed of a given name. -/
def ofName? (s : String) : Option Speed :=
  all.find? fun v => v.name == s

end Speed

/-- What can be asked of a controller. -/
inductive Control where
  /-- Pause at the next step. -/
  | pause
  /-- Go on after a pause. -/
  | resume
  /-- Stop the run. -/
  | halt
  /-- Go on, and pause at the next step. -/
  | singleStep
  /-- Pause at a block, or no longer. -/
  | setBreakpoint (id : String) (enabled : Bool)
  /-- Pause at no block for the rest of the run, or again. -/
  | ignoreBreakpoints (ignore : Bool)
  | setSpeed (speed : Speed)
  deriving DecidableEq, Repr

/-- What observers are told. -/
inductive Notice where
  | step (index : Nat) (block : Block) (result : Int)
  | state (state : RunState)
  | complete (result : Int)

/-- What an observer does about a notice. -/
inductive Reaction where
  | control (c : Control)
  | fail (f : Fault)

/-- What was told so far, in order, each with the label of the observer that was told. -/
abbrev Tellings := List (String × Notice)

/-- An observer, with the label under which the log shows what it was told. What it does about a
notice may depend on what was told before the notice went out. -/
structure Observer where
  label : String := ""
  react : Tellings → Notice → List Reaction := fun _ _ => []

/-- An entry of the log. -/
inductive LogEntry where
  /-- An observer was told something. -/
  | told (observer : String) (n : Notice)
  /-- A run was delayed for some milliseconds. -/
  | slept (milliseconds : Int)
  /-- A note. -/
  | note (text : String)

/-- What an entry of the log says was told. -/
def LogEntry.telling? : LogEntry → Option (String × Notice)
  | told observer n => some (observer, n)
  | _ => none

/-- What a controller is set up with (`ControllerOptions`): a catalogue, how to evaluate, the delay
after a step for every speed (none is no delay), and observers. -/
structure Settings where
  catalog : Catalog := .standard
  options : EvalOptions := { trace := true }
  delays : List (Speed × Int) := [(.slow, 500), (.fast, 100), (.instant, 0)]
  observers : List Observer := []

/-- The delay for a speed; the last one set counts. -/
def Settings.delay (s : Settings) (speed : Speed) : Int :=
  ((s.delays.reverse.find? fun d => d.1 == speed).map Prod.snd).getD 0

/-- A controller. -/
structure Controller where
  settings : Settings
  state : RunState := .idle
  speed : Speed := .instant
  /-- Breakpoints that were asked for. -/
  breakpoints : List String := []
  /-- Breakpoints of the tree when the last run started. -/
  treeBreakpoints : List String := []
  ignoring : Bool := false
  /-- The next step is to be followed by a pause. -/
  pauseNext : Bool := false
  /-- The run is to stop. -/
  halting : Bool := false
  /-- A pause is over, or no longer needed. -/
  released : Bool := false
  /-- The number of steps reported in the last run. -/
  steps : Nat := 0
  result : Option Int := none
  error : Option EvalError := none
  /-- The block of the last step of a run in progress. -/
  highlight : Option String := none
  log : Array LogEntry := #[]

/-- A controller after it did something, and how that failed if it did. -/
abbrev Effect := Controller × Option Fault

/-- Goes on unless something failed. -/
def Effect.andThen (e : Effect) (next : Controller → Effect) : Effect :=
  match e with
  | (c, none) => next c
  | (c, some f) => (c, some f)

namespace Controller

/-- Whether a run is in progress (`StepController.is_running`). -/
def isRunning (c : Controller) : Bool :=
  c.state == .running || c.state == .paused

/-- Whether a run pauses at a block. -/
def pausesAt (c : Controller) (id : String) : Bool :=
  (c.breakpoints.contains id || c.treeBreakpoints.contains id) && !c.ignoring

/-- Writes to the log. -/
def write (entry : LogEntry) (c : Controller) : Controller :=
  { c with log := c.log.push entry }

/-- What observers were told so far. -/
def tellings (c : Controller) : Tellings :=
  c.log.toList.filterMap LogEntry.telling?

/-! ## Controls while nothing is paused -/

/-- Marks down what was asked for. The state stays what it is. -/
def mark (control : Control) (c : Controller) : Controller :=
  match control with
  | .pause => if c.state = .running then { c with pauseNext := true } else c
  | .resume => c
  | .halt =>
    if c.isRunning then
      { c.write (.note "Halt requested") with
        halting := true
        pauseNext := false
        released := true }
    else c
  | .singleStep => { c with pauseNext := true }
  | .setBreakpoint id enabled =>
    let others := c.breakpoints.filter (· != id)
    { c with breakpoints := if enabled then others ++ [id] else others }
  | .ignoreBreakpoints ignore => { c with ignoring := ignore }
  | .setSpeed speed => { c with speed }

/-! ## Observers -/

/-- Carries reactions out, one after the other, up to the first that fails. -/
def carryOut (act : Control → Controller → Effect) : List Reaction → Controller → Effect
  | [], c => (c, none)
  | .fail f :: _, c => (c, some f)
  | .control control :: rest, c => (act control c).andThen (carryOut act rest)

/-- Tells observers, one after the other, up to the first that fails. `past` was told before. -/
def tell (act : Control → Controller → Effect) (past : Tellings) (n : Notice) :
    List Observer → Controller → Effect
  | [], c => (c, none)
  | o :: rest, c =>
    (carryOut act (o.react past n) (c.write (.told o.label n))).andThen (tell act past n rest)

/-- Takes on another state, and notes that. -/
def become (state : RunState) (c : Controller) : Controller :=
  { c.write (.note ("Run state " ++ c.state.name ++ " -> " ++ state.name)) with state }

/-- Ends a pause. -/
def release (c : Controller) : Effect :=
  let quietly (control : Control) (c : Controller) : Effect := (c.mark control, none)
  (tell quietly c.tellings (.state .running) c.settings.observers (c.become .running)).andThen
    fun c => ({ c with released := true }, none)

/-- Does what was asked for. -/
def apply (control : Control) (c : Controller) : Effect :=
  let marked := c.mark control
  if c.state = .paused ∧ (control = .resume ∨ control = .singleStep) then marked.release
  else (marked, none)

/-- Tells every observer. -/
def notify (n : Notice) (c : Controller) : Effect :=
  tell apply c.tellings n c.settings.observers c

/-- Takes on another state and tells every observer (`StepController._set_state`). Staying in the
same state is no news. -/
def enter (state : RunState) (c : Controller) : Effect :=
  if c.state = state then (c, none) else (c.become state).notify (.state state)

end Controller

end BlockCalculus
