import BlockCalculus.Document.Check

/-!
# Checking documents with notes at hand

`check` hands every part of a document its path and puts together the findings that come back. A
`Survey` makes the same check with notes at hand that all parts share: where in the document it is,
and what it has found so far. It enters a part, notes the flaws there, and leaves the part again.
Nothing but the order of these steps keeps the notes right.

A survey of a block also tells whether all is well. The word on that (`ok`) is passed on from part
to part, and a flaw anywhere settles it.

`surveyBlock` goes through a serialised block, `surveyDocument` through an editor document, and
`survey` passes a verdict on a document.
-/

namespace BlockCalculus

/-- The notes of a survey (`ValidationState`): where in the document it is, and the findings so far,
in order. -/
structure Notes where
  path : DocPath := []
  findings : List Finding := []
  deriving Repr

/-- Work on the way through a document. It may fail; what was noted before stays noted. -/
abbrev Survey := ExceptT Fault (StateM Notes)

namespace Survey

variable {α : Type}

/-- What a survey that begins with the given notes comes to, and the notes that it ends with. -/
def outcome (work : Survey α) (notes : Notes) : Except Fault α × Notes :=
  work.run.run notes

/-- Goes on to a part (`push_path`). -/
def enter (segment : Segment) : Survey Unit :=
  modify fun notes => { notes with path := notes.path ++ [segment] }

/-- Goes back from the part that was entered last (`pop_path`). -/
def leave : Survey Unit :=
  modify fun notes => { notes with path := notes.path.dropLast }

/-- Notes a flaw where the survey is (`add_error`). -/
def note (flaw : Flaw) (value : Json) : Survey Unit :=
  modify fun notes => { notes with findings := notes.findings ++ [⟨notes.path, flaw, value⟩] }

/-- Enters a part, works there, and leaves it. After a fault the survey stays where it is. -/
def within (segment : Segment) (work : Survey α) : Survey α := do
  enter segment
  let a ← work
  leave
  return a

/-- Notes a flaw where the survey is, so all is not well. -/
def complain (flaw : Flaw) (value : Json) : Survey Bool := do
  note flaw value
  return false

/-- Notes a flaw in a part, unless the part is `good`. -/
def require (good : Bool) (segment : Segment) (flaw : Flaw) (value : Json) (ok : Bool) :
    Survey Bool :=
  if good then return ok else within segment (complain flaw value)

end Survey

namespace Document

open Survey

/-! ## Parts of a block -/

/-- The kind has to be the name of a kind. -/
def surveyKind (block : Json) (ok : Bool) : Survey Bool :=
  match block.getD "type" with
  | .arr _ => throw (.structuredKind true)
  | .obj _ => throw (.structuredKind false)
  | value => require (value.str?.bind Kind.ofName?).isSome (.key "type") .unknownKind value ok

/-- A text member has to be a text, if it is present. -/
def surveyText (key : String) (block : Json) (ok : Bool) : Survey Bool :=
  match block.present? key with
  | none => return ok
  | some value => require value.str?.isSome (.key key) (.notText key) value ok

/-- The number of inputs has to be an integer, if it is there. -/
def surveyCount (block : Json) (ok : Bool) : Survey Bool :=
  match block.get? "inputCount" with
  | none => return ok
  | some value => require value.int?.isSome (.key "inputCount") .countNotInteger value ok

/-- Surveys parameters, the first of which has number `index`. -/
def surveyParamList : (index : Nat) → List Json → (ok : Bool) → Survey Bool
  | _, [], ok => return ok
  | index, entry :: rest, ok => do
    let ok ← require (isParam entry) (.item "num_values" index) .malformedParam entry ok
    surveyParamList (index + 1) rest ok

/-- The parameters have to be an array of parameters, if they are there. -/
def surveyParams (block : Json) (ok : Bool) : Survey Bool :=
  match block.get? "num_values" with
  | none => return ok
  | some value =>
    match value.arr? with
    | none => require false (.key "num_values") .paramsNotArray value ok
    | some entries => surveyParamList 0 entries ok

/-- Surveys the block in a slot by `inner`, if there is one. -/
def surveyOccupant (inner : Json → Survey Bool) (slot : Json) (ok : Bool) : Survey Bool :=
  match slot.present? "block" with
  | none => return ok
  | some block => do
    let well ← within (.key "block") (inner block)
    return well && ok

/-- The name of a slot has to be a new one. The names in `seen` are taken. -/
def surveyName (seen : List String) (name : String) (ok : Bool) : Survey Bool :=
  if seen.contains name then complain (.repeatedSlot name) (.str name) else return ok

/-- Surveys a slot. The block in it is surveyed whether or not the name is a new one. -/
def surveySlot (inner : Json → Survey Bool) (seen : List String) (slot : Json) (ok : Bool) :
    Survey Bool :=
  match (slot.get? "name").bind Json.str? with
  | none => complain .malformedSlot slot
  | some name => do
    let ok ← surveyName seen name ok
    surveyOccupant inner slot ok

/-- The names that are taken after a slot. -/
def taken (seen : List String) (slot : Json) : List String :=
  ((slot.get? "name").bind Json.str?).toList ++ seen

/-- Surveys slots, the first of which has number `index`. -/
def surveySlots (inner : Json → Survey Bool) :
    (index : Nat) → (seen : List String) → List Json → (ok : Bool) → Survey Bool
  | _, _, [], ok => return ok
  | index, seen, slot :: rest, ok => do
    let ok ← within (.item "children" index) (surveySlot inner seen slot ok)
    surveySlots inner (index + 1) (taken seen slot) rest ok

/-- The slots have to be an array of slots, if they are there. -/
def surveyChildren (inner : Json → Survey Bool) (block : Json) (ok : Bool) : Survey Bool :=
  match block.get? "children" with
  | none => return ok
  | some value =>
    match value.arr? with
    | none => require false (.key "children") .childrenNotArray value ok
    | some slots => surveySlots inner 0 [] slots ok

/-! ## Blocks and documents -/

/-- Surveys a serialised block and the blocks in it, at most `levels` deep, and tells whether all is
well (`validate_block_data`). -/
def surveyBlock : (levels : Nat) → Json → Survey Bool
  | 0, _ => throw .nesting
  | levels + 1, value =>
    match value.obj? with
    | none => complain .notBlock value
    | some _ => do
      let ok ← surveyKind value true
      let ok ← surveyText "id" value ok
      let ok ← surveyText "name" value ok
      let ok ← surveyCount value ok
      let ok ← surveyParams value ok
      surveyChildren (surveyBlock levels) value ok

/-- Surveys a saved block. If all is well with it, it has to be a custom block besides. -/
def surveyCustom (block : Json) : Survey Unit := do
  let well ← surveyBlock nestingLimit block
  let kind := block.getD "type"
  if well && kind.str? != some customName then note .savedNotCustom kind

/-- Surveys saved blocks. -/
def surveySaved : Json.Members → Survey Unit
  | [] => return
  | (name, block) :: rest => do
    within (.key name) (surveyCustom block)
    surveySaved rest

/-- The root has to be a block, if it is present. -/
def surveyRoot (doc : Json) : Survey Unit :=
  match doc.present? "rootBlock" with
  | none => return
  | some block => do
    let _ ← within (.key "rootBlock") (surveyBlock nestingLimit block)

/-- The custom blocks have to be an object of saved blocks, if they are there. -/
def surveyCustoms (doc : Json) : Survey Unit :=
  let customs := (doc.get? "customBlocks").getD (.obj [])
  within (.key "customBlocks") <|
    match customs.obj? with
    | none => note .customsNotObject customs
    | some saved => surveySaved saved

/-- Whether the value is an array of integers. -/
def isInputs (value : Json) : Bool :=
  value.arr?.any fun items => items.all fun i => i.int?.isSome

/-- Surveys an editor document. -/
def surveyDocument (doc : Json) : Survey Unit :=
  match doc.obj? with
  | none => note .notDocument doc
  | some _ => do
    let mark := doc.getD "fileType"
    let inputs := doc.getD "inputs"
    let count := doc.getD "inputCount"
    let _ ← require (mark.str? = some documentMark) (.key "fileType") .foreignMark mark true
    let _ ← require (isInputs inputs) (.key "inputs") .malformedInputs inputs true
    let _ ← require count.int?.isSome (.key "inputCount") .countNotInteger count true
    surveyRoot doc
    surveyCustoms doc

/-- Surveys an editor document with empty notes, and passes a verdict on it
(`validate_editor_state`). -/
def survey (doc : Json) : Except Fault Verdict :=
  match (surveyDocument doc).outcome {} with
  | (.error f, _) => .error f
  | (.ok (), notes) =>
    .ok (if notes.findings.isEmpty then .accepted else .rejected notes.findings)

end Document

end BlockCalculus
