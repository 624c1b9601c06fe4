import BlockCalculus.Evaluation.Walk

/-!
# Evaluation rules

`walk` evaluates a block on inputs. It looks at the block, consults the catalogue on its kind,
applies the rule of the entry, and reports the value as a step once the rule has given it. Rules
evaluate the blocks in the slots, and primitive recursion the block itself, through `walk` again,
with one level less to descend.

Nothing is checked ahead: what is missing or does not fit is found when the walk gets there. Nor is
anything kept that can be looked at again: what is in a slot is what is in it when its turn comes.
Only a search keeps to the function that it began with.
-/

namespace BlockCalculus

/-- Evaluates the block at a site on inputs. -/
abbrev Evaluator := Site → List Int → Walk Int

namespace Rule

/-- The site of the occupant of a slot (`_require_child`). -/
def occupant (site : Site) (slot : String) : Walk Site :=
  .look site fun b =>
    match Slot.seek? slot b.slots with
    | some (i, c) => .done ⟨site.position ++ [i], c⟩
    | none => .fail (.error (.missingSlot b.head.kind slot b.head.id))

/-- Evaluates the occupant of a slot. -/
def inSlot (eval : Evaluator) (site : Site) (slot : String) (inputs : List Int) : Walk Int :=
  (occupant site slot).bind fun found => eval found inputs

/-- The value of a parameter (`_require_value`). -/
def parameter (b : Block) (name : String) : Walk Int :=
  match b.param? name with
  | some n => .done n
  | none => .fail (.error (.missingParameter b.head.kind name b.head.id))

/-- One more than the only input (`_successor_rule`). -/
def successor (b : Block) (inputs : List Int) : Walk Int :=
  match inputs with
  | [x] => .done (x + 1)
  | _ => .fail (.error (.arity b.head.kind inputs.length b.head.id))

/-- The input whose number is the parameter `i`, counted from one (`_projection_rule`). -/
def projection (b : Block) (inputs : List Int) : Walk Int :=
  if inputs.isEmpty then .fail (.error (.noInputs b.head.kind b.head.id))
  else
    (parameter b "i").bind fun i =>
      match if 1 ≤ i then inputs[(i - 1).toNat]? else none with
      | some x => .done x
      | none => .fail (.error (.parameterOutOfRange b.head.kind "i" i inputs.length b.head.id))

/-- The values of `count` parts of a composition, from number `first` on. -/
def parts (eval : Evaluator) (site : Site) (inputs : List Int) :
    (count first : Nat) → Walk (List Int)
  | 0, _ => .done []
  | count + 1, first =>
    (inSlot eval site ("g" ++ toString first) inputs).bind fun y =>
      (parts eval site inputs count (first + 1)).bind fun ys => .done (y :: ys)

/-- The outer function on the values of the parts, in the order of their numbers
(`_composition_rule`). -/
def composition (eval : Evaluator) (site : Site) (inputs : List Int) : Walk Int :=
  (parameter site.block "m").bind fun m =>
    (parts eval site inputs m.toNat 1).bind fun ys => inSlot eval site "f" ys

/-- Recursion on the last input (`_primitive_recursion_rule`): at most zero gives the base case on
the other inputs; a larger one gives the recursive case on the other inputs, its predecessor, and
the value there. -/
def primitiveRecursion (eval : Evaluator) (site : Site) (inputs : List Int) : Walk Int :=
  match inputs.getLast? with
  | none => .fail (.error (.noInputs site.block.head.kind site.block.head.id))
  | some n =>
    let others := inputs.dropLast
    if n ≤ 0 then inSlot eval site Catalog.baseCase.name others
    else
      (eval site (others ++ [n - 1])).bind fun z =>
        inSlot eval site Catalog.recursiveCase.name (others ++ [n - 1, z])

/-- The first of `count` candidates, from `first` on, at which the function at a site gives zero,
or else what `exhausted` gives. -/
def search (eval : Evaluator) (f : Site) (inputs : List Int) (exhausted : Walk Int) :
    (count first : Nat) → Walk Int
  | 0, _ => exhausted
  | count + 1, first =>
    (eval f (inputs ++ [(first : Int)])).bind fun y =>
      if y = 0 then .done first else search eval f inputs exhausted count (first + 1)

/-- The least candidate below the ceiling at which the function gives zero
(`_minimization_rule`). -/
def minimization (ceiling : Int) (eval : Evaluator) (site : Site) (inputs : List Int) : Walk Int :=
  (occupant site "f").bind fun f =>
    search eval f inputs (.look site fun b => .fail (.error (.nonConvergence ceiling b.head.id)))
      ceiling.toNat 0

/-- The body of a named block (`_custom_rule`). -/
def custom (eval : Evaluator) (site : Site) (inputs : List Int) : Walk Int :=
  match Slot.seek? Catalog.customBody.name site.block.slots with
  | some (i, c) => eval ⟨site.position ++ [i], c⟩ inputs
  | none => .fail (.error (.emptyCustom site.block.head.name site.block.head.id))

/-- Goes by the script of a rule of one's own. What evaluations noted on the block is not shown to
it. -/
def perform (eval : Evaluator) (site : Site) : Script → Walk Int
  | .give n => .done n
  | .fail e => .fail e
  | .wait rest => .wait fun _ => perform eval site (rest ())
  | .look next => .look site fun b => perform eval site (next b.clearTrace)
  | .evaluate none inputs next => (eval site inputs).bind fun n => perform eval site (next n)
  | .evaluate (some slot) inputs next =>
    (inSlot eval site slot inputs).bind fun n => perform eval site (next n)

/-- The value of a block by a rule. The site shows the block as it is when the rule begins. -/
def apply (ceiling : Int) (rule : Rule) (eval : Evaluator) (site : Site) (inputs : List Int) :
    Walk Int :=
  match rule with
  | .ofKind .zero => .done 0
  | .ofKind .successor => successor site.block inputs
  | .ofKind .projection => projection site.block inputs
  | .ofKind .composition => composition eval site inputs
  | .ofKind .primitiveRecursion => primitiveRecursion eval site inputs
  | .ofKind .minimization => minimization ceiling eval site inputs
  | .ofKind .custom => custom eval site inputs
  | .own script => perform eval site (script site.block.clearTrace inputs)

end Rule

/-- Evaluates a block with at most `levels` blocks under evaluation at once, and searches that try
the candidates below `ceiling` (`Evaluator.eval_block`). -/
def walk (ceiling : Int) : (levels : Nat) → Evaluator
  | 0 => fun _ _ => .fail (.error .recursionLimit)
  | levels + 1 => fun site inputs =>
    .look site fun b =>
      .consult b.head.kind fun
        | none => .fail (.error (.unknownKind b.head.kind))
        | some entry =>
          (entry.rule.apply ceiling (walk ceiling levels) ⟨site.position, b⟩ inputs).bind fun r =>
            .step ⟨⟨site.position, b⟩, inputs, r⟩ fun _ => .done r

end BlockCalculus
