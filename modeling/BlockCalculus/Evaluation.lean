import BlockCalculus.Evaluation.Rule
import BlockCalculus.Nesting

/-!
# Evaluating trees

A tree is evaluated directly (`evaluate`) or step by step (`evaluateStepped`). Both follow the same
walk; a traced evaluation notes on every block of the tree what it got and gave last, up to the
point where the evaluation ends, however it ends. How many blocks may be under evaluation at once is
a parameter (`evaluateWithin`, `evaluateSteppedWithin`), for which `evaluationLimit` stands.
-/

namespace BlockCalculus

/-- How to evaluate: whether to note inputs and outputs on the blocks, and how many candidates a
search may try. -/
structure EvalOptions where
  trace : Bool := false
  ceiling : Int := 100
  deriving DecidableEq, Repr

/-- The walk that evaluates the block at a site on inputs, with at most `levels` blocks under
evaluation at once. What earlier evaluations noted on the blocks plays no part in it. -/
def Site.walkWithin (levels : Nat) (options : EvalOptions) (site : Site) (inputs : List Int) :
    Walk Int :=
  BlockCalculus.walk options.ceiling levels ⟨site.position, site.block.clearTrace⟩ inputs

/-- The walk that evaluates the block at a site on inputs. -/
def Site.walk (options : EvalOptions) (site : Site) (inputs : List Int) : Walk Int :=
  site.walkWithin evaluationLimit options inputs

/-- The walk that evaluates a tree on inputs, with at most `levels` blocks under evaluation at
once. -/
def Block.walkWithin (levels : Nat) (options : EvalOptions) (tree : Block) (inputs : List Int) :
    Walk Int :=
  Site.walkWithin levels options ⟨[], tree⟩ inputs

/-- The walk that evaluates a tree on inputs. -/
def Block.walk (options : EvalOptions) (tree : Block) (inputs : List Int) : Walk Int :=
  tree.walkWithin evaluationLimit options inputs

/-- What is left of an evaluation: the tree, the number of steps, and the value or why there is
none. -/
structure Evaluated where
  tree : Block
  steps : Nat
  outcome : Except Fault Int

namespace Walk

/-- Takes a step on a tree: notes it if the evaluation is traced. -/
def trace (on : Bool) (s : Step) (tree : Block) : Block :=
  if on then s.record tree else tree

/-- Follows a walk to its end. A walk that waits cannot be followed. -/
def follow (c : Catalog) (on : Bool) : Walk Int → Block → Nat → Evaluated
  | done n, tree, count => ⟨tree, count, .ok n⟩
  | fail e, tree, count => ⟨tree, count, .error e.fault⟩
  | step s rest, tree, count => follow c on (rest ()) (trace on s tree) (count + 1)
  | wait _, tree, count => ⟨tree, count, .error .suspended⟩
  | look site next, tree, count => follow c on (next site.block) tree count
  | consult kind next, tree, count => follow c on (next (c.lookup? kind)) tree count

/-- What is left of a stepped evaluation: the tree, the steps in order, and the value or why there
is none. -/
structure Stepped where
  tree : Block
  steps : List Step
  outcome : Except Fault Int

/-- Follows a walk step by step. If `halt` is a number of steps and words, the walk is called off
in these words as soon as it has taken that many steps. Waiting takes no step. -/
def followStepped (c : Catalog) (on : Bool) (halt : Option (Nat × String)) :
    Walk Int → Block → List Step → Stepped
  | done n, tree, taken => ⟨tree, taken.reverse, .ok n⟩
  | fail e, tree, taken => ⟨tree, taken.reverse, .error e.fault⟩
  | step s rest, tree, taken =>
    let tree' := trace on s tree
    match halt with
    | some (k, message) =>
      if taken.length + 1 = k then ⟨tree', (s :: taken).reverse, .error (.halted message)⟩
      else followStepped c on halt (rest ()) tree' (s :: taken)
    | none => followStepped c on halt (rest ()) tree' (s :: taken)
  | wait rest, tree, taken => followStepped c on halt (rest ()) tree taken
  | look site next, tree, taken => followStepped c on halt (next site.block) tree taken
  | consult kind next, tree, taken =>
    followStepped c on halt (next (c.lookup? kind)) tree taken

end Walk

namespace Block

/-- Evaluates a tree on inputs, with at most `levels` blocks under evaluation at once. -/
def evaluateWithin (levels : Nat) (c : Catalog) (options : EvalOptions) (tree : Block)
    (inputs : List Int) : Evaluated :=
  (tree.walkWithin levels options inputs).follow c options.trace tree 0

/-- Evaluates a tree on inputs. -/
def evaluate (c : Catalog) (options : EvalOptions) (tree : Block) (inputs : List Int) :
    Evaluated :=
  tree.evaluateWithin evaluationLimit c options inputs

/-- Evaluates a tree on inputs step by step, with at most `levels` blocks under evaluation at
once. -/
def evaluateSteppedWithin (levels : Nat) (c : Catalog) (options : EvalOptions)
    (halt : Option (Nat × String)) (tree : Block) (inputs : List Int) : Walk.Stepped :=
  (tree.walkWithin levels options inputs).followStepped c options.trace halt tree []

/-- Evaluates a tree on inputs step by step (`Evaluator.evaluate_stepped`). -/
def evaluateStepped (c : Catalog) (options : EvalOptions) (halt : Option (Nat × String))
    (tree : Block) (inputs : List Int) : Walk.Stepped :=
  tree.evaluateSteppedWithin evaluationLimit c options halt inputs

end Block

end BlockCalculus
