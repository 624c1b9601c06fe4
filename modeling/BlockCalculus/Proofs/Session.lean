import BlockCalculus.Proofs.Observed
import BlockCalculus.Proofs.Walk

/-!
# Sessions

A session is a controller at work on a run. What happens in it comes one after the other: someone
asks the controller for something, or the run gets a turn (`Act`). Between two turns anything may be
asked for, in any order, so a list of acts is one interleaving of a run with all that is asked of
its controller, and `Session.after` is where it leads.

Here is what a turn does, for quiet observers and a tree that nobody edits:

* `Scene.now_of_at?`, `Scene.view_of_at?`: what a walk looks at is what it came upon.
* `advance_cases`: a walk goes on to its next step, to its value or to its error.
* `report_quiet`: a step is reported and followed by a pause or a delay.
* `closeHalted_quiet` and the like: how a run ends.
-/

namespace BlockCalculus

/-- Something that happens in a session. -/
inductive Act where
  /-- Someone asks the controller for something. -/
  | ask (control : Control)
  /-- The run gets a turn. -/
  | turn
  deriving DecidableEq, Repr

/-- A controller, a run under it, and the tree of the run. -/
structure Session where
  controller : Controller
  run : Run
  tree : Block

namespace Session

/-- A run on a tree that is about to begin. -/
def scheduled (c : Controller) (tree : Block) (inputs : List Int) (speed : Option Speed) :
    Session :=
  ⟨c, { root := ⟨[], tree⟩, inputs, speed }, tree⟩

/-- The session after something happened. -/
def act (s : Session) : Act → Session
  | .ask control => { s with controller := (s.controller.apply control).1 }
  | .turn =>
    let t := s.controller.turn s.run s.tree
    ⟨t.controller, s.run.after t, t.scene.tree⟩

/-- The session after all that happened, in order. -/
def after (s : Session) (acts : List Act) : Session :=
  acts.foldl act s

theorem act_turn_of_turn_eq {s : Session} (h : s.controller.turn s.run s.tree =
    ⟨s.run.phase, s.controller, s.run.scene s.tree⟩) : s.act .turn = s := by
  unfold act
  dsimp only
  rw [h]
  rfl

/-- In a pause that nobody ended, a turn changes nothing. -/
theorem act_turn_of_parked {s : Session} (hcancel : s.run.cancelling = false)
    {rest : Unit → Walk Int} (hphase : s.run.phase = .parked rest)
    (hheld : s.controller.released = false) : s.act .turn = s := by
  refine act_turn_of_turn_eq ?_
  rw [Controller.turn, hphase, hcancel]
  dsimp only
  rw [if_neg (by simp [hheld])]

end Session

/-! ## Faults from inside an evaluation -/

namespace Fault

/-- What a controller keeps as the error of a run that a fault broke off. -/
def error? : Fault → Option EvalError
  | evaluation e => some e
  | nesting => some .recursionLimit
  | _ => none

/-- The state in which such a fault leaves a run, unless the state stays what it is. -/
def lastState? : Fault → Option RunState
  | halted _ | cancelled => some .halted
  | quit .. => none
  | _ => some .errored

/-- How such a fault ends a run. -/
def ending : Fault → RunEnding
  | halted _ => .halted
  | cancelled => .cancelled
  | nesting => .failed (.evaluation .recursionLimit)
  | f => .failed f

end Fault

/-! ## Scenes that nobody edits -/

namespace Scene

variable {scene : Scene} {site : Site}

/-- A block that is where it was is found there. -/
theorem inPlace?_of_at? (hs : scene.tree.clearTrace.at? site.position = some site.block) :
    ∃ b, scene.tree.at? site.position = some b ∧ b.clearTrace = site.block ∧
      scene.inPlace? site = some b := by
  rw [Block.clearTrace, Block.at?_mapHeads] at hs
  obtain ⟨b, hb, hclear⟩ := Option.map_eq_some_iff.mp hs
  refine ⟨b, hb, hclear, ?_⟩
  -- Forgetting notes leaves the serial number alone.
  have hserial : b.head.serial = site.block.head.serial := by
    rw [← hclear, Block.head_mapHeads]
  rw [inPlace?, hb, Option.filter_some, hserial, beq_self_eq_true, if_pos rfl]

theorem now_of_at? (hs : scene.tree.clearTrace.at? site.position = some site.block) :
    scene.tree.at? site.position = some (scene.now site) := by
  obtain ⟨b, hb, -, hplace⟩ := inPlace?_of_at? hs
  rw [now, hplace, hb]

/-- Looking at a block shows what the walk came upon. -/
theorem view_of_at? (hs : scene.tree.clearTrace.at? site.position = some site.block) :
    scene.view site = site.block := by
  obtain ⟨b, -, hclear, hplace⟩ := inPlace?_of_at? hs
  rw [view, now, hplace, hclear]

/-- A step is noted where it was taken. -/
theorem trace_of_at? (on : Bool) {s : Step}
    (hs : scene.tree.clearTrace.at? s.position = some s.block) :
    scene.trace on s = { scene with tree := Walk.trace on s scene.tree } := by
  obtain ⟨b, -, -, hplace⟩ := inPlace?_of_at? hs
  cases on with
  | false => rfl
  | true => simp [trace, record, hplace, Walk.trace]

end Scene

namespace Controller

/-! ## Walking on -/

/-- **Walking on along the tree leads to a value, to an error, or to a step**, and the rest of the
walk is along the tree as well. -/
theorem advance_cases {c : Controller} {scene : Scene} {w : Walk Int}
    (hw : w.Along c.settings.catalog scene.tree.clearTrace) :
    (∃ n, w.steps c.settings.catalog = [] ∧ w.ending c.settings.catalog = .ok n ∧
        advance w scene c = c.closeCompleted n scene) ∨
      (∃ e, w.steps c.settings.catalog = [] ∧ w.ending c.settings.catalog = .error e ∧
        advance w scene c = c.closeRaised e.fault scene) ∨
      ∃ (s : Step) (rest : Unit → Walk Int),
        w.steps c.settings.catalog = s :: (rest ()).steps c.settings.catalog ∧
        w.ending c.settings.catalog = (rest ()).ending c.settings.catalog ∧
        scene.tree.clearTrace.at? s.position = some s.block ∧
        (rest ()).Along c.settings.catalog scene.tree.clearTrace ∧
        advance w scene c = c.report s rest (scene.trace c.settings.options.trace s) := by
  induction w with
  | done n => exact .inl ⟨n, rfl, rfl, rfl⟩
  | fail e => exact .inr (.inl ⟨e, rfl, rfl, rfl⟩)
  | step s rest _ => exact .inr (.inr ⟨s, rest, rfl, rfl, hw.1, hw.2, rfl⟩)
  | wait rest _ => exact hw.elim
  | look site next ih =>
    simp only [Walk.steps, Walk.ending, advance, Scene.view_of_at? hw.1]
    exact ih site.block hw.2
  | consult kind next ih => exact ih _ hw

/-! ## Reporting a step -/

/-- The controller once it has reported a step to quiet observers. -/
def reported (b : Block) (result : Int) (c : Controller) : Controller :=
  { c with steps := c.steps + 1, highlight := some b.head.id }.announce
    (.step (c.steps + 1) b result)

/-- The controller once it has begun a pause at a block under quiet observers. -/
def parkedAt (b : Block) (c : Controller) : Controller :=
  let noted :=
    if c.pausesAt b.head.id then
      c.write (.note ("Breakpoint hit at " ++ b.head.label ++ " (" ++ b.head.id ++ ")"))
    else c
  { noted with pauseNext := false, released := false }.entered .paused

theorem entered_released (state : RunState) (c : Controller) :
    (c.entered state).released = c.released := by
  unfold entered
  split <;> rfl

theorem park_quiet {c : Controller} (hq : c.Quiet) (b : Block) (rest : Unit → Walk Int)
    (scene : Scene) : c.park b rest scene = ⟨.parked rest, c.parkedAt b, scene⟩ := by
  unfold park parkedAt
  dsimp only
  rw [enter_quiet]
  · dsimp only
    rw [if_neg (by rw [entered_released]; simp)]
  · split
    · exact hq
    · exact hq

/-- **A step that is not called off is reported, and then the run pauses or is delayed.** -/
theorem report_quiet {c : Controller} (hq : c.Quiet) (hrun : c.halting = false) (s : Step)
    (rest : Unit → Walk Int) (scene : Scene) :
    c.report s rest scene =
      let b := scene.now s.toSite
      let c' := c.reported b s.result
      if c'.pausesAt b.head.id || c'.pauseNext then ⟨.parked rest, c'.parkedAt b, scene⟩
      else c'.delay rest scene := by
  unfold report
  rw [if_neg (by simp [hrun])]
  dsimp only
  rw [notify_quiet (by exact hq)]
  dsimp only
  rw [park_quiet (by exact hq)]
  rfl

/-! ## Endings -/

theorem close_quiet {c : Controller} (hq : c.Quiet) (state : RunState) (ending : RunEnding)
    (scene : Scene) :
    c.close state ending scene = ⟨.finished ending, (c.entered state).settle, scene⟩ := by
  unfold close
  rw [enter_quiet hq]
  rfl

theorem closeHalted_quiet {c : Controller} (hq : c.Quiet) (scene : Scene) :
    c.closeHalted scene =
      ⟨.finished .halted,
        ((c.write (.note ("Run halted after " ++ toString c.steps ++ " steps"))).entered
          .halted).settle, scene⟩ :=
  close_quiet (by exact hq) _ _ _

/-- The controller when a fault has broken an evaluation off and the run is about to end. -/
def broken (f : Fault) (c : Controller) : Controller :=
  let noted :=
    match f with
    | .halted _ => c.write (.note ("Run halted after " ++ toString c.steps ++ " steps"))
    | _ => c
  { noted with error := f.error?.or c.error }

/-- **How a fault that breaks an evaluation off ends the run.** -/
theorem closeRaised_eq (f : Fault) (scene : Scene) (c : Controller) :
    c.closeRaised f scene =
      f.lastState?.elim ⟨.finished f.ending, c.settle, scene⟩
        fun state => (c.broken f).close state f.ending scene := by
  cases f <;> rfl

theorem closeRaised_phase (f : Fault) (scene : Scene) (c : Controller) :
    ∃ ending, (c.closeRaised f scene).phase = .finished ending := by
  rw [closeRaised_eq]
  cases f.lastState? with
  | none => exact ⟨_, rfl⟩
  | some state => exact ⟨_, rfl⟩

/-- A run whose evaluation failed ends with the fault, and an error that can be told is kept. -/
theorem closeRaised_fault (e : Failure) (scene : Scene) (c : Controller) :
    c.closeRaised e.fault scene =
      { c with error := e.fault.error?.or c.error }.close .errored (.failed e.fault) scene := by
  cases e with
  | raised cause message => rfl
  | error e =>
    by_cases h : e.isTellable = true
    · rw [Failure.fault_of_isTellable h]
      rfl
    · rw [Failure.fault_of_not_isTellable h]
      rfl

theorem closeRaised_quiet {c : Controller} (hq : c.Quiet) (e : Failure) (scene : Scene) :
    c.closeRaised e.fault scene =
      ⟨.finished (.failed e.fault),
        ({ c with error := e.fault.error?.or c.error }.entered .errored).settle, scene⟩ := by
  rw [closeRaised_fault]
  exact close_quiet (by exact hq) _ _ _

theorem closeCompleted_quiet {c : Controller} (hq : c.Quiet) (n : Int) (scene : Scene) :
    c.closeCompleted n scene =
      ⟨.finished (.value n),
        ({ c.settle with result := some n }.entered .completed).announce (.complete n), scene⟩ := by
  have hentered : ({ c.settle with result := some n }.entered .completed).Quiet := by
    unfold entered
    split <;> exact hq
  unfold closeCompleted
  rw [enter_quiet (by exact hq), Effect.andThen]
  dsimp only
  rw [notify_quiet hentered]
  rfl

/-! ## Beginning -/

/-- The controller once it has got ready for a run on a block under quiet observers. -/
def prepared (speed : Option Speed) (root : Block) (c : Controller) : Controller :=
  { c with
    speed := speed.getD c.speed
    halting := false
    released := false
    steps := 0
    result := none
    error := none
    treeBreakpoints := root.breakpoints }.entered .running

theorem prepare_quiet {c : Controller} (hq : c.Quiet) (hrun : c.isRunning = false)
    (speed : Option Speed) (root : Block) :
    c.prepare speed root = (c.prepared speed root, none) := by
  unfold prepare prepared
  rw [if_neg (by simp [hrun])]
  exact enter_quiet (by exact hq) _

end Controller

end BlockCalculus
