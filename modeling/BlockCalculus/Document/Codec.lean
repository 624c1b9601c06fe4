import BlockCalculus.Document.Check
import BlockCalculus.Validation

/-!
# Blocks as JSON

`Block.toJson` serialises a tree: all of it but depths, problems, minimums and traces.
`Block.ofJson` loads a serialised tree. Loaded blocks get fresh ids, a block before the blocks in
it. Slots and minimums come from the catalogue, so a tree that was saved with other slots is
repaired, with a warning, and not refused.
-/

namespace BlockCalculus

/-! ## Writing -/

/-- A member that is there only if it has a value. -/
def Json.member? (key : String) (value : Option Json) : Json.Members :=
  value.toList.map fun v => (key, v)

/-- A parameter as JSON. -/
def Param.toJson (p : Param) : Json :=
  .obj [("name", .str p.name), ("value", .int p.value)]

/-- A slot as JSON, given its occupant as JSON. -/
def SlotShape.toJson (shape : SlotShape) (occupant : Json) : Json :=
  .obj ([("name", .str shape.name), ("block", occupant),
         ("input_descriptor_index", .int shape.descriptor)] ++
    Json.member? "input_set" (shape.exact.map .int) ++
    Json.member? "input_mod" (shape.shift.map .int))

/-- A head as JSON, given the slots as JSON. -/
def Head.toJson (h : Head) (slots : List Json) : Json :=
  .obj ([("id", .str h.id), ("type", .str h.kind.name), ("children", .arr slots),
         ("num_values", .arr (h.params.map Param.toJson)), ("collapsed", .bool h.collapsed),
         ("immutable", .bool h.immutable), ("hasBreakpoint", .bool h.breakpoint),
         ("inputCount", .int h.inputCount)] ++
    Json.member? "name" (h.name.map .str))

namespace Block

mutual

/-- A tree as JSON (`block_to_dict`). -/
def toJson : Block → Json
  | ⟨head, slots⟩ => head.toJson (toJsonAll slots)

/-- Slots as JSON. -/
def toJsonAll : List Slot → List Json
  | [] => []
  | ⟨shape, none⟩ :: rest => shape.toJson .null :: toJsonAll rest
  | ⟨shape, some b⟩ :: rest => shape.toJson (toJson b) :: toJsonAll rest

end

/-- Serialises a tree that does not nest too deep. -/
def encode (b : Block) : Except Fault Json :=
  b.bounded.map fun _ => b.toJson

/-! ## Reading -/

/-- The stored value of a parameter: the last one under its name. -/
def storedParam? (name : String) (data : Json) : Option Int :=
  let entries := ((data.get? "num_values").bind Json.arr?).getD []
  (entries.reverse.find? fun e => (e.getD "name").str? == some name).bind fun e =>
    (e.getD "value").int?

/-- The parameters of a loaded block: those of the entry, with stored values where there are. -/
def loadParams (entry : Entry) (data : Json) : List Param :=
  entry.params.map fun p => ⟨p.name, (storedParam? p.name data).getD p.default, p.minimum⟩

/-- Whether a flag is set. -/
def flag (key : String) (data : Json) : Bool :=
  (data.getD key).isSet

/-- The head of a loaded block. -/
def loadHead (kind : Kind) (serial : Nat) (params : List Param) (depth : Int) (data : Json) :
    Head :=
  { kind, id := freshId serial, serial, params, depth
    name := (data.getD "name").str?
    inputCount := ((data.get? "inputCount").bind Json.int?).getD 0
    collapsed := flag "collapsed" data
    immutable := flag "immutable" data
    breakpoint := flag "hasBreakpoint" data }

/-- The warning that a block got other slots than it was saved with. -/
def repairWarning (h : Head) : String :=
  "Repaired slot layout of " ++ h.label ++ " block while loading"

/-- A stored slot, its occupant loaded by `load`. -/
def loadSlot (load : Json → Build Block) (data : Json) : Build Slot := do
  let shape : SlotShape := { name := ((data.getD "name").str?).getD "" }
  match data.present? "block" with
  | some block => return ⟨shape, some (← load block)⟩
  | none => return ⟨shape, none⟩

/-- Loads a serialised tree that has been checked (`_load_block`). -/
def load (c : Catalog) : (levels : Nat) → (depth : Int) → Json → Build Block
  | 0, _, _ => throw .nesting
  | levels + 1, depth, data => do
    let some kind := (data.getD "type").str?.bind Kind.ofName?
      | throw (.noKind (data.getD "type"))
    let entry ← Build.ofExcept (c.get kind)
    let serial ← Build.issue
    let params := loadParams entry data
    let head := loadHead kind serial params depth data
    let stored ← (((data.get? "children").bind Json.arr?).getD []).mapM
      (loadSlot (load c levels (depth + 1)))
    let layout := entry.layout params
    if (stored.map fun s => s.shape.name) ≠ layout.map SlotShape.name then
      Build.warn (repairWarning head)
    return ⟨head, Slot.reconcile stored layout⟩

/-- Checks and loads a serialised tree (`block_from_dict`). -/
def ofJson (c : Catalog) (depth : Int) (data : Json) : Build Block := do
  let findings ← Build.ofExcept (Document.checkBlock nestingLimit [] data)
  if findings.isEmpty then load c loadLimit depth data else throw (.invalidBlock findings)

end Block

end BlockCalculus
