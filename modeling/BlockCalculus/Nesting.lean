/-!
# How deep things may nest

Documents and trees come from outside, so every recursive operation on them is bounded by the
number of levels it may descend. What nests deeper is refused as such, never cut short. Operations
differ in how much of the stack a level takes, so each kind of them has a limit of its own.
-/

namespace BlockCalculus

/-- The number of levels that texts and trees may nest for operations that make one call for a
level: reading a text, checking a document (`validate_block_data`), checking a tree
(`check_for_errors`), serialising it (`block_to_dict`) and looking for a block in it
(`is_descendant`). -/
def nestingLimit : Nat := 900

/-- The number of levels that a serialised tree may nest to be loaded, which makes two calls for a
level (`_load_block`). -/
def loadLimit : Nat := 498

/-- The number of levels that a tree may nest to be copied, which makes about ten calls for a level
(`clone_block`). -/
def copyLimit : Nat := 100

/-- The number of blocks that may be under evaluation at once, each one inside the previous. -/
def evaluationLimit : Nat := 325

theorem loadLimit_le : loadLimit ≤ nestingLimit := by decide

theorem copyLimit_lt : copyLimit < loadLimit := by decide

end BlockCalculus
