import BlockCalculus.Block

/-!
# Numbers of inputs

The number of inputs of the root determines that of every block of a tree, slot by slot:
`SlotShape.inputs` is the rule of one slot, and `propagate` applies it from the root down.
`describe` names the inputs that the occupant of a slot gets.
-/

namespace BlockCalculus

namespace SlotShape

/-- The number of inputs of a slot's occupant, inside a block that has `outer` inputs
(`get_input_count_of_slot`). -/
def inputs (shape : SlotShape) (outer : Int) : Int :=
  match shape.exact, shape.shift with
  | some n, _ => n
  | none, some d => outer + d
  | none, none => outer

/-- The names `letter1`, `letter2`, ... up to `count`. -/
def numbered (letter : String) (count : Int) : List String :=
  (List.range count.toNat).map fun i => letter ++ toString (i + 1)

/-- The names of `count` inputs: plain ones, results of the parts of a composition, ones that end
in the candidate of a search, or ones that end in the counter and the previous value of a
recursion. -/
def inputNames (descriptor count : Int) : List String :=
  if descriptor = 1 then numbered "g" count
  else if descriptor = 2 then numbered "x" (count - 1) ++ ["n"]
  else if descriptor = 3 then numbered "x" (count - 2) ++ ["y", "z"]
  else numbered "x" count

/-- The names of the inputs of a slot's occupant (`describe_slot_inputs`). -/
def describe (shape : SlotShape) (outer : Int) : String :=
  String.intercalate ", " (inputNames shape.descriptor (shape.inputs outer))

end SlotShape

namespace Block

mutual

/-- Gives the root a number of inputs, and every other block the number that follows from it
(`propagate_input_count`). -/
def propagate (count : Int) : Block → Block
  | ⟨head, slots⟩ => ⟨{ head with inputCount := count }, propagateAll count slots⟩

/-- Gives the blocks in slots the numbers of inputs that follow from that of the block around. -/
def propagateAll (outer : Int) : List Slot → List Slot
  | [] => []
  | ⟨shape, none⟩ :: rest => ⟨shape, none⟩ :: propagateAll outer rest
  | ⟨shape, some b⟩ :: rest =>
    ⟨shape, some (propagate (shape.inputs outer) b)⟩ :: propagateAll outer rest

end

end Block

end BlockCalculus
