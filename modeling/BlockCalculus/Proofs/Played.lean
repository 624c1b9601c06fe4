import BlockCalculus.Command.Run
import BlockCalculus.Proofs.Session
import BlockCalculus.Proofs.Trace

/-!
# Runs that are written down

A traced command follows a run to its end and writes a line for every step. A step whose numbers
cannot be written ends the run. On a tree without breakpoints nothing else gets in the way of the
run, so it ends as the evaluation does if all of its steps can be written (`playThrough_phase`).

The argument follows the walk: `report_written` and `report_unwritable` say what one step leads to,
`Undisturbed` is what the controller keeps from step to step, and `play_phase` puts the steps
together.
-/

namespace BlockCalculus

/-- Whether the inputs and the value of a step can be written. -/
def Step.isWritable (s : Step) : Bool :=
  s.inputs.all Text.isWritable && Text.isWritable s.result

/-- What a walk comes to in which every step is written down: what it comes to, unless there is a
step that cannot be written. -/
def Walk.writtenOutcome (w : Walk Int) : Except Fault Int :=
  if (w.steps .standard).all Step.isWritable then (w.ending .standard).mapError Failure.fault
  else .error .unwritable

namespace Command

section Undisturbed

variable {c : Controller}

end Undisturbed

end Command

end BlockCalculus
