import BlockCalculus.Block.Arity
import BlockCalculus.Build

/-!
# Editing trees

Changing a parameter can change the slots a block should have. `reconcile` lays slots out anew and
keeps the occupants whose slot is still there; `refresh` does so for a block whose catalogue entry
asks for it. A block with new slots gets a new id.

`remove` and `replace` answer with an edited copy. They descend through the tree, so they refuse
trees that nest too deep.
-/

namespace BlockCalculus

namespace Slot

/-- The occupant of the last slot of a name. -/
def lastOccupant? (name : String) (slots : List Slot) : Option Block :=
  (slots.reverse.find? fun s => s.shape.name == name).bind Slot.occupant

/-- Slots of a new layout, with the occupants of the old slots of the same names
(`reconcile_slots`). -/
def reconcile (old : List Slot) (layout : List SlotShape) : List Slot :=
  layout.map fun shape => ⟨shape, lastOccupant? shape.name old⟩

/-- The shapes of slots. -/
def shapes (slots : List Slot) : List SlotShape :=
  slots.map Slot.shape

end Slot

namespace Block

/-- Fails on a tree that nests too deep to descend through. -/
def bounded (b : Block) : Except Fault Unit :=
  if b.height ≤ nestingLimit then .ok () else .error .nesting

/-! ## Parameters -/

/-- Gives the slots of a block that just got them: its occupants get the numbers of inputs and the
depths that follow from the block. -/
def settle (head : Head) : List Slot → List Slot :=
  List.map fun s =>
    { s with occupant := s.occupant.map fun b =>
        (b.propagate (s.shape.inputs head.inputCount)).setDepth (head.depth + 1) }

/-- Lays the slots of a block out anew if its entry makes them follow from its parameters
(`refresh_dynamic_children`). The answer says whether that changed anything. -/
def refresh (c : Catalog) (b : Block) : Build (Bool × Block) := do
  let entry ← Build.ofExcept (c.get b.head.kind)
  if !entry.counted then return (false, b)
  let slots := Slot.reconcile b.slots (entry.layout b.head.params)
  if Slot.shapes slots = Slot.shapes b.slots then return (false, b)
  let number ← Build.issue
  return (true, ⟨{ b.head with id := freshId number }, settle b.head slots⟩)

/-- Gives the first parameter of a name a value. -/
def storeParam (name : String) (value : Int) : List Param → List Param
  | [] => []
  | p :: rest =>
    if p.name = name then { p with value } :: rest else p :: storeParam name value rest

/-- Gives a parameter a value and lays the slots out anew (`set_num_value`). The answer is the block
reached, and why the work stopped there if it did: a value that was stored stays stored when the
catalogue has no entry for the block. -/
def setParam (c : Catalog) (name : String) (value : Int) (b : Block) :
    StateM Desk (Block × Option Fault) := do
  if (b.param? name).isNone then return (b, some (.noParameter b.head.kind name))
  let stored : Block := { b with head.params := storeParam name value b.head.params }
  match ← (refresh c stored).run with
  | .ok (_, refreshed) => return (refreshed, none)
  | .error f => return (stored, some f)

/-! ## Removing and replacing -/

/-- Empties the first slot that holds a block of an id. -/
def emptyFirst? (id : String) : List Slot → Option (List Slot)
  | [] => none
  | s :: rest =>
    match s.occupant with
    | some b =>
      if b.head.id = id then some ({ s with occupant := none } :: rest)
      else (emptyFirst? id rest).map (s :: ·)
    | none => (emptyFirst? id rest).map (s :: ·)

mutual

/-- Takes a block of an id out of its slot. The slots of a block come before those of the blocks
in them. -/
def detach? (id : String) : Block → Option Block
  | ⟨head, slots⟩ =>
    match emptyFirst? id slots with
    | some slots' => some ⟨head, slots'⟩
    | none => (detachIn? id slots).map fun slots' => ⟨head, slots'⟩

/-- Takes a block of an id out of its slot somewhere below slots. -/
def detachIn? (id : String) : List Slot → Option (List Slot)
  | [] => none
  | ⟨shape, none⟩ :: rest => (detachIn? id rest).map (⟨shape, none⟩ :: ·)
  | ⟨shape, some b⟩ :: rest =>
    match detach? id b with
    | some b' => some (⟨shape, some b'⟩ :: rest)
    | none => (detachIn? id rest).map (⟨shape, some b⟩ :: ·)

end

/-- The tree without the block of an id and what is below it. The root is never removed. -/
def erase (id : String) (b : Block) : Block :=
  (b.detach? id).getD b

/-- A copy of a tree (`clone_block`). -/
def copy (b : Block) : Except Fault Block :=
  if b.height ≤ copyLimit then .ok b else .error .nesting

/-- A copy of a tree without the block of an id (`remove_block_by_id`). -/
def remove (id : String) (b : Block) : Except Fault Block :=
  b.copy.map (erase id)

/-- A copy of a tree with another occupant in the first slot of a name (`replace_slot_block`). -/
def replace (slot : String) (occupant : Option Block) (b : Block) : Except Fault Block :=
  b.copy.map (place slot occupant)

end Block

end BlockCalculus
