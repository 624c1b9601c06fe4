import BlockCalculus.Kind

/-!
# Blocks

A tree is made of blocks. A block has a head, which holds all that belongs to the block itself,
and slots, each of which is empty or holds a block. The shape of a slot says by what name it is
found, and how the number of inputs of its occupant follows from that of the block around it.

Blocks are values: an operation on a tree gives a new tree. `Position` addresses a block of a tree
by slot indices from the root, `at?` finds it and `modifyAt` changes it there.
-/

namespace BlockCalculus

/-- What checking a block can find wrong with it. -/
inductive Problem where
  /-- The block in one of the slots has problems. -/
  | inChildren
  /-- A slot is empty. -/
  | missing (slot : String)
  | unknownKind (kind : Kind)
  | successorInputs (count : Int)
  | projectionInputs
  | projectionIndexMissing
  | projectionIndexRange (count index : Int)
  | compositionSizeMissing
  | compositionSizeNegative (size : Int)
  | recursionInputs
  deriving DecidableEq, Repr

/-- A problem in words. -/
def Problem.message : Problem → String
  | inChildren => "Error(s) in children"
  | missing slot => "Missing " ++ slot ++ "."
  | unknownKind kind => "Unknown block type: " ++ kind.name
  | successorInputs count =>
    "Successor block requires exactly one input, but has " ++ toString count ++ "."
  | projectionInputs => "Projection block requires at least one input."
  | projectionIndexMissing => "Projection block requires 'i' value."
  | projectionIndexRange count index =>
    "Projection block 'i' value must be between 1 and " ++ toString count ++ ", but is " ++
      toString index ++ "."
  | compositionSizeMissing => "Composition block requires 'm' value."
  | compositionSizeNegative size =>
    "Composition block 'm' value must be at least 0, but is " ++ toString size ++ "."
  | recursionInputs => "Primitive Recursion block requires at least one input."

/-- The shape of a slot: its name, which of the input descriptions its occupant gets, and the rule
for its occupant's number of inputs. That number is `exact` if it is set, else the number of the
block around it, moved by `shift` if that is set. -/
structure SlotShape where
  name : String
  descriptor : Int := 0
  exact : Option Int := none
  shift : Option Int := none
  deriving DecidableEq, Repr

/-- A parameter of a block (`NumValue`). The minimum is advice for editors; any value can be
stored. -/
structure Param where
  name : String
  value : Int
  minimum : Int := 0
  deriving DecidableEq, Repr

/-- The value of the first parameter of a name. -/
def Param.value? (name : String) (params : List Param) : Option Int :=
  (params.find? fun p => p.name == name).map Param.value

/-- What belongs to a block itself. The serial number tells the blocks of a tree apart: a block
keeps it for good, whatever is changed about the block, its id included. The number of inputs and
the depth follow from the place in the tree, the problems from the last check, and the last input
and output from the last traced evaluation. -/
structure Head where
  kind : Kind
  id : String
  serial : Nat := 0
  name : Option String := none
  params : List Param := []
  inputCount : Int := 0
  depth : Int := 0
  collapsed : Bool := false
  immutable : Bool := false
  breakpoint : Bool := false
  problems : List Problem := []
  lastInput : Option (List Int) := none
  lastOutput : Option Int := none
  deriving DecidableEq, Repr

mutual

/-- A block with the blocks below it. -/
structure Block where
  head : Head
  slots : List Slot

/-- A place for a block inside another one. -/
structure Slot where
  shape : SlotShape
  occupant : Option Block

end

/-- What a block is called (`Block.label`): its name, or its kind in capitals if it has none. -/
def Head.label (h : Head) : String :=
  match h.name with
  | some name => if name = "" then h.kind.caption else name
  | none => h.kind.caption

/-- The first slot of a name, if it is occupied: its index and its occupant. -/
def Slot.seek? (name : String) : List Slot → Option (Nat × Block)
  | [] => none
  | s :: rest =>
    if s.shape.name = name then s.occupant.map fun b => (0, b)
    else (seek? name rest).map fun found => (found.1 + 1, found.2)

/-- The position of a block in a tree: the index of a slot for every level below the root. -/
abbrev Position := List Nat

namespace Block

/-- The first slot of a name (`Block.slot`). -/
def slot? (name : String) (b : Block) : Option Slot :=
  b.slots.find? fun s => s.shape.name == name

/-- The occupant of the first slot of a name (`Block.child`). -/
def child? (name : String) (b : Block) : Option Block :=
  (b.slot? name).bind Slot.occupant

/-- The value of the first parameter of a name (`Block.num_value`). -/
def param? (name : String) (b : Block) : Option Int :=
  Param.value? name b.head.params

/-- Puts a block, or nothing, into the first slot of a name. Without such a slot, nothing
changes. -/
def place (name : String) (occupant : Option Block) (b : Block) : Block :=
  { b with slots := go b.slots }
where
  go : List Slot → List Slot
    | [] => []
    | s :: rest =>
      if s.shape.name = name then { s with occupant } :: rest else s :: go rest

/-! ## Positions -/

/-- The block at a position. -/
def at? : Position → Block → Option Block
  | [], b => some b
  | i :: rest, b =>
    match b.slots[i]? with
    | some ⟨_, some c⟩ => at? rest c
    | _ => none

@[simp] theorem at?_nil (b : Block) : b.at? [] = some b := by
  rw [at?]

/-- A position leads on from where its first part leads. -/
theorem at?_append (p q : Position) (b : Block) : b.at? (p ++ q) = (b.at? p).bind (at? q) := by
  induction p generalizing b with
  | nil => simp
  | cons i rest ih =>
    rw [List.cons_append, at?, at?]
    split
    · exact ih _
    · rfl

/-- Changes the block at a position. Without a block there, nothing changes. -/
def modifyAt (f : Block → Block) : Position → Block → Block
  | [], b => f b
  | i :: rest, b =>
    { b with slots := b.slots.modify i fun s =>
        { s with occupant := s.occupant.map (modifyAt f rest) } }

/-- The position that slot names lead to, each the first slot of its name. -/
def locate? : List String → Block → Option Position
  | [], _ => some []
  | name :: rest, b =>
    match Slot.seek? name b.slots with
    | some (i, c) => (locate? rest c).map (i :: ·)
    | none => none

/-! ## Sizes -/

mutual

/-- The number of blocks of a tree. -/
def size : Block → Nat
  | ⟨_, slots⟩ => sizeAll slots + 1

/-- The number of blocks in slots. -/
def sizeAll : List Slot → Nat
  | [] => 0
  | ⟨_, none⟩ :: rest => sizeAll rest
  | ⟨_, some b⟩ :: rest => size b + sizeAll rest

end

theorem size_eq (b : Block) : b.size = sizeAll b.slots + 1 := by
  obtain ⟨head, slots⟩ := b
  rw [size]

mutual

/-- The number of levels of a tree. -/
def height : Block → Nat
  | ⟨_, slots⟩ => heightAll slots + 1

/-- The number of levels in slots. -/
def heightAll : List Slot → Nat
  | [] => 0
  | ⟨_, none⟩ :: rest => heightAll rest
  | ⟨_, some b⟩ :: rest => max (height b) (heightAll rest)

end

/-! ## Changing every head -/

mutual

/-- Changes the head of every block of a tree. -/
def mapHeads (f : Head → Head) : Block → Block
  | ⟨head, slots⟩ => ⟨f head, mapHeadsAll f slots⟩

/-- Changes the head of every block in slots. -/
def mapHeadsAll (f : Head → Head) : List Slot → List Slot
  | [] => []
  | ⟨shape, none⟩ :: rest => ⟨shape, none⟩ :: mapHeadsAll f rest
  | ⟨shape, some b⟩ :: rest => ⟨shape, some (mapHeads f b)⟩ :: mapHeadsAll f rest

end

/-- Forgets what traced evaluations left behind (`clear_execution_data`). -/
def clearTrace (b : Block) : Block :=
  b.mapHeads fun h => { h with lastInput := none, lastOutput := none }

mutual

/-- Gives the root a depth, and every other block one more than the block around it
(`set_depth`). -/
def setDepth (depth : Int) : Block → Block
  | ⟨head, slots⟩ => ⟨{ head with depth }, setDepthAll (depth + 1) slots⟩

/-- Gives the blocks in slots a depth. -/
def setDepthAll (depth : Int) : List Slot → List Slot
  | [] => []
  | ⟨shape, none⟩ :: rest => ⟨shape, none⟩ :: setDepthAll depth rest
  | ⟨shape, some b⟩ :: rest => ⟨shape, some (setDepth depth b)⟩ :: setDepthAll depth rest

end

end Block

end BlockCalculus
