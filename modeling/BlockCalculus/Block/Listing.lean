import BlockCalculus.Block
import BlockCalculus.Fault

/-!
# Listing the blocks of a tree

`listing` lists the blocks of a tree in pre-order: a block, then what is in its slots, slot by
slot. It keeps the blocks still to visit on a stack of its own, so no tree is too deep for it.
What addresses a block by its id goes by the listing and takes the first block of that id.

`isBelow?` looks for an id strictly below a block by descending, so it is bounded by a number of
levels.
-/

namespace BlockCalculus

/-- The occupants of slots, in order. -/
def Slot.occupants (slots : List Slot) : List Block :=
  slots.filterMap Slot.occupant

/-- The number of blocks on a stack of blocks to visit. -/
def Block.pending : List Block → Nat
  | [] => 0
  | b :: rest => b.size + pending rest

theorem Block.pending_append (stack rest : List Block) :
    Block.pending (stack ++ rest) = Block.pending stack + Block.pending rest := by
  induction stack with
  | nil => simp [pending]
  | cons b stack ih => simp [pending, ih, Nat.add_assoc]

theorem Block.pending_occupants (slots : List Slot) :
    Block.pending (Slot.occupants slots) = Block.sizeAll slots := by
  induction slots with
  | nil => simp [Slot.occupants, pending, sizeAll]
  | cons s rest ih =>
    obtain ⟨shape, occupant⟩ := s
    cases occupant with
    | none => simpa [Slot.occupants, sizeAll] using ih
    | some b =>
      simp only [Slot.occupants] at ih
      simp [Slot.occupants, pending, sizeAll, ih]

namespace Block

/-- The blocks of the trees on a stack, in pre-order. -/
def listingOf (stack : List Block) : List Block :=
  match stack with
  | [] => []
  | b :: rest => b :: listingOf (Slot.occupants b.slots ++ rest)
termination_by pending stack
decreasing_by
  rw [pending_append, pending_occupants, pending, size_eq]
  omega

/-- The blocks of a tree, in pre-order (`iter_blocks`). -/
def listing (b : Block) : List Block :=
  listingOf [b]

/-- The first block of an id (`find_block`). -/
def find? (id : String) (b : Block) : Option Block :=
  b.listing.find? fun c => c.head.id == id

/-- The ids of the blocks that have a breakpoint, each once (`collect_breakpoints`). -/
def breakpoints (b : Block) : List String :=
  ((b.listing.filter fun c => c.head.breakpoint).map fun c => c.head.id).eraseDups

mutual

/-- Whether an id occurs strictly below a block, or `none` if the search would have to descend
more than `levels` levels. The search ends at the first occurrence. -/
def isBelow? (id : String) (levels : Nat) : Block → Option Bool
  | ⟨_, slots⟩ =>
    match levels with
    | 0 => none
    | levels + 1 => isBelowAny? id levels slots

/-- Whether an id occurs in slots or below. -/
def isBelowAny? (id : String) (levels : Nat) : List Slot → Option Bool
  | [] => some false
  | ⟨_, none⟩ :: rest => isBelowAny? id levels rest
  | ⟨_, some b⟩ :: rest =>
    if b.head.id = id then some true
    else
      match isBelow? id levels b with
      | some false => isBelowAny? id levels rest
      | answer => answer

end

/-- Whether an id occurs strictly below a block (`is_descendant`). -/
def isBelow (id : String) (b : Block) : Except Fault Bool :=
  match isBelow? id nestingLimit b with
  | some answer => .ok answer
  | none => .error .nesting

/-! ## Changing one block -/

mutual

/-- Changes the head of the first block whose head has a property. -/
def updateFirst? (p : Head → Bool) (f : Head → Head) : Block → Option Block
  | ⟨head, slots⟩ =>
    if p head then some ⟨f head, slots⟩
    else (updateFirstIn? p f slots).map fun slots' => ⟨head, slots'⟩

/-- Changes the head of the first block in slots whose head has a property. -/
def updateFirstIn? (p : Head → Bool) (f : Head → Head) : List Slot → Option (List Slot)
  | [] => none
  | ⟨shape, none⟩ :: rest => (updateFirstIn? p f rest).map (⟨shape, none⟩ :: ·)
  | ⟨shape, some b⟩ :: rest =>
    match updateFirst? p f b with
    | some b' => some (⟨shape, some b'⟩ :: rest)
    | none => (updateFirstIn? p f rest).map (⟨shape, some b⟩ :: ·)

end

/-- Flips the breakpoint of the first block of an id (`toggle_breakpoint`). The answer is the new
flag and the tree. -/
def toggleBreakpoint (id : String) (b : Block) : Except Fault (Bool × Block) :=
  let isIt (h : Head) : Bool := h.id == id
  let flip (h : Head) : Head := { h with breakpoint := !h.breakpoint }
  match b.find? id, b.updateFirst? isIt flip with
  | some c, some b' => .ok (!c.head.breakpoint, b')
  | _, _ => .error (.noBlock id)

end Block

end BlockCalculus
