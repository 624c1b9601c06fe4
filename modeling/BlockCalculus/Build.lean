import BlockCalculus.Catalog

/-!
# Building blocks

New blocks are numbered, which gives them fresh ids, and loading a document can raise warnings.
Both live on a `Desk`. A `Build` works at a desk and may fail; what it did at the desk before it
failed stays done.
-/

namespace BlockCalculus

/-- How many numbers were issued so far, and the warnings raised so far, in order. -/
structure Desk where
  issued : Nat := 0
  warnings : List String := []
  deriving DecidableEq, Repr

/-- The id that goes with the number `n` (`new_block_id`). -/
def freshId (n : Nat) : String :=
  "b" ++ toString n

/-- Work that takes numbers, raises warnings, and may fail. -/
abbrev Build := ExceptT Fault (StateM Desk)

namespace Build

/-- A new number. -/
def issue : Build Nat := do
  let desk ← get
  set { desk with issued := desk.issued + 1 }
  return desk.issued + 1

/-- Raises a warning. -/
def warn (text : String) : Build Unit :=
  modify fun desk => { desk with warnings := desk.warnings ++ [text] }

/-- Takes over the outcome of work that needs no desk. -/
def ofExcept {α : Type} : Except Fault α → Build α
  | .ok a => pure a
  | .error f => throw f

end Build

namespace Catalog

/-- Empty slots of the given shapes. -/
def emptySlots (layout : List SlotShape) : List Slot :=
  layout.map fun shape => ⟨shape, none⟩

/-- A new block of a kind, with default parameters and empty slots (`create_block`). -/
def create (c : Catalog) (kind : Kind) (inputCount depth : Int := 0)
    (name : Option String := none) : Build Block := do
  let entry ← Build.ofExcept (c.get kind)
  let serial ← Build.issue
  let params := entry.newParams
  let head : Head :=
    { kind, id := freshId serial, serial, name, params, inputCount, depth
      collapsed := kind == .custom }
  return ⟨head, emptySlots (entry.layout params)⟩

end Catalog

end BlockCalculus
