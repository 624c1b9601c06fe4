import BlockCalculus.Block
import BlockCalculus.Evaluation.Error

/-!
# Rules of one's own

A catalogue may be given rules that are not among the seven (`BlockRule`). Such a rule is whatever
its author makes of it, so it is a parameter here: for a block and inputs it has a script of what
it does, one act after the other, each of which may depend on what the acts before came to. It may
look at its block, have the block in one of its slots or its own block evaluated, suspend for a
turn, and at last give a value or fail.

A script does not see who follows it, nor what earlier evaluations noted on its block, and it does
not go on after an evaluation that fails: these are the rules that serve direct and stepped
evaluation alike.
-/

namespace BlockCalculus

/-- What a rule of one's own does. -/
inductive Script where
  | give (value : Int)
  | fail (e : Failure)
  /-- Suspends for a turn. -/
  | wait (rest : Unit → Script)
  /-- Looks at the block that is being evaluated, as it is by then. -/
  | look (next : Block → Script)
  /-- Has the block in a slot evaluated on inputs, or the same block again if no slot is named. -/
  | evaluate (slot : Option String) (inputs : List Int) (next : Int → Script)

end BlockCalculus
