import BlockCalculus.Document.Codec

/-!
# Libraries of custom blocks

A library keeps custom blocks under their names, serialised, so that every block taken from it is
a new copy with ids of its own. Registering a name again replaces the block and keeps its place.
-/

namespace BlockCalculus

/-- A library (`CustomBlockLibrary`): the catalogue its blocks are loaded by, and the serialised
blocks by name. -/
structure Library where
  catalog : Catalog := .standard
  entries : Json.Members := []

namespace Library

/-- The names in a library, in the order of their first registration. -/
def order (lib : Library) : List String :=
  lib.entries.map Prod.fst

/-- The names in a library, sorted (`CustomBlockLibrary.names`). -/
def names (lib : Library) : List String :=
  lib.order.mergeSort fun a b => decide (a ≤ b)

@[simp] theorem mem_names {lib : Library} {name : String} :
    name ∈ lib.names ↔ name ∈ lib.order :=
  List.mem_mergeSort

/-- Registers a custom block under its name (`CustomBlockLibrary.register`). -/
def register (b : Block) (lib : Library) : Except Fault Library :=
  if b.head.kind ≠ .custom then .error (.notCustom b.head.kind)
  else
    match b.head.name with
    | none | some "" => .error .unnamed
    | some name => b.encode.map fun data => { lib with entries := lib.entries.put name data }

/-- Registers a copy of a tree as the body of a new custom block, and answers that block
(`CustomBlockLibrary.define`). -/
def define (name : String) (body : Block) (lib : Library) : Build (Block × Library) := do
  let b ← lib.catalog.create .custom 0 0 (some name)
  let copy ← Build.ofExcept body.copy
  if (b.slot? Catalog.customBody.name).isNone then throw .noBody
  let b := (b.place Catalog.customBody.name (some copy)).setDepth 0
  return (b, ← Build.ofExcept (lib.register b))

/-- The block under a name, unless it has one of its own. -/
def named (name : String) (b : Block) : Block :=
  match b.head.name with
  | none | some "" => { b with head.name := some name }
  | some _ => b

/-- Registers a serialised custom block, under its own name if it has one
(`CustomBlockLibrary.register_data`). -/
def registerData (name : String) (data : Json) (lib : Library) : Build Library := do
  let b ← Block.ofJson lib.catalog 0 data
  Build.ofExcept (lib.register (named name b))

/-- Registers serialised custom blocks, one after the other. -/
def registerAll : Json.Members → Library → Build Library
  | [], lib => return lib
  | (name, data) :: rest, lib => do registerAll rest (← registerData name data lib)

/-- A new copy of a registered block (`CustomBlockLibrary.instantiate`). -/
def instantiate (name : String) (inputCount depth : Int) (lib : Library) : Build Block := do
  match Json.Members.get? name lib.entries with
  | none => throw (.unknownCustom name)
  | some data => return (← Block.ofJson lib.catalog depth data).propagate inputCount

end Library

end BlockCalculus
