import BlockCalculus.Evaluation
import BlockCalculus.Text.Numeral

/-!
# Evaluation with notes

`evaluateNoted` evaluates a tree directly and notes in words what it was asked for and what came
out. Words need text, so inputs that cannot be written are refused, and a value that cannot be
written is lost: the evaluation is over by then, and what it traced stays.
-/

namespace BlockCalculus

/-- What is left of an evaluation with notes: the tree, the notes in order, and the value or why
there is none. -/
structure Noted where
  tree : Block
  notes : List String
  outcome : Except Fault Int

namespace Block

/-- The note on what is to be evaluated. -/
def startNote (b : Block) (inputs : List Int) : String :=
  "Evaluating " ++ b.head.label ++ " on " ++ Text.numberList inputs

/-- The note on what came out. -/
def endNote (b : Block) (value : Int) (steps : Nat) : String :=
  "Evaluated " ++ b.head.label ++ " => " ++ toString value ++ " in " ++ toString steps ++ " steps"

/-- An evaluation of a tree on inputs with the notes on it. -/
def noted (tree : Block) (inputs : List Int) (evaluation : Unit → Evaluated) : Noted :=
  if inputs.all Text.isWritable then
    let r := evaluation ()
    let start := tree.startNote inputs
    match r.outcome with
    | .error f => ⟨r.tree, [start], .error f⟩
    | .ok n =>
      if Text.isWritable n then ⟨r.tree, [start, tree.endNote n r.steps], .ok n⟩
      else ⟨r.tree, [start], .error .unwritable⟩
  else ⟨tree, [], .error .unwritable⟩

/-- Evaluates a tree on inputs, with at most `levels` blocks under evaluation at once, and notes
it. -/
def evaluateNotedWithin (levels : Nat) (c : Catalog) (options : EvalOptions) (tree : Block)
    (inputs : List Int) : Noted :=
  tree.noted inputs fun _ => tree.evaluateWithin levels c options inputs

/-- Evaluates a tree on inputs and notes it (`Evaluator.evaluate`). -/
def evaluateNoted (c : Catalog) (options : EvalOptions) (tree : Block) (inputs : List Int) :
    Noted :=
  tree.evaluateNotedWithin evaluationLimit c options inputs

end Block

end BlockCalculus
