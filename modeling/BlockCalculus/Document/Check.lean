import BlockCalculus.Fault

/-!
# Checking documents

A document is checked before anything is loaded from it. The check collects findings in the order
of the document and goes on after each, so a document is sound if and only if there are none. A
kind that is an array or an object is no finding but a fault, which ends the check.

`checkBlock` checks a serialised block and the blocks in it, at most `levels` deep; `check` collects
the findings on a whole editor document, and `validate` passes a verdict on it.
-/

namespace BlockCalculus

namespace Document

/-- The word for a custom block. -/
def customName : String := Kind.custom.name

/-! ## Parts of a block -/

/-- The kind has to be the name of a kind. -/
def checkKind (path : DocPath) (block : Json) : Except Fault (List Finding) :=
  match block.getD "type" with
  | .arr _ => .error (.structuredKind true)
  | .obj _ => .error (.structuredKind false)
  | value =>
    if (value.str?.bind Kind.ofName?).isSome then .ok []
    else .ok [⟨path ++ [.key "type"], .unknownKind, value⟩]

/-- A text member has to be a text, if it is present. -/
def checkText (key : String) (path : DocPath) (block : Json) : List Finding :=
  match block.present? key with
  | none => []
  | some value =>
    if value.str?.isSome then [] else [⟨path ++ [.key key], .notText key, value⟩]

/-- The number of inputs has to be an integer, if it is there. -/
def checkCount (path : DocPath) (block : Json) : List Finding :=
  match block.get? "inputCount" with
  | none => []
  | some value =>
    if value.int?.isSome then [] else [⟨path ++ [.key "inputCount"], .countNotInteger, value⟩]

/-- A parameter has a name and an integer value. -/
def isParam (entry : Json) : Bool :=
  ((entry.get? "name").bind Json.str?).isSome && ((entry.get? "value").bind Json.int?).isSome

/-- The findings on parameters, the first of which has number `index`. -/
def checkParamList (path : DocPath) : (index : Nat) → List Json → List Finding
  | _, [] => []
  | index, entry :: rest =>
    (if isParam entry then []
     else [⟨path ++ [.item "num_values" index], .malformedParam, entry⟩]) ++
      checkParamList path (index + 1) rest

/-- The parameters have to be an array of parameters, if they are there. -/
def checkParams (path : DocPath) (block : Json) : List Finding :=
  match block.get? "num_values" with
  | none => []
  | some value =>
    match value.arr? with
    | none => [⟨path ++ [.key "num_values"], .paramsNotArray, value⟩]
    | some entries => checkParamList path 0 entries

/-- The findings on slots, the first of which has number `index`. The names in `seen` are taken.
Blocks in slots are checked by `inner`. -/
def checkSlots (inner : DocPath → Json → Except Fault (List Finding)) (path : DocPath) :
    (index : Nat) → (seen : List String) → List Json → Except Fault (List Finding)
  | _, _, [] => .ok []
  | index, seen, slot :: rest => do
    let here := path ++ [.item "children" index]
    match (slot.get? "name").bind Json.str? with
    | none => do
      let others ← checkSlots inner path (index + 1) seen rest
      return ⟨here, .malformedSlot, slot⟩ :: others
    | some name => do
      let repeated : List Finding :=
        if seen.contains name then [⟨here, .repeatedSlot name, .str name⟩] else []
      let below ← match slot.present? "block" with
        | some block => inner (here ++ [.key "block"]) block
        | none => .ok []
      let others ← checkSlots inner path (index + 1) (name :: seen) rest
      return repeated ++ below ++ others

/-- The slots have to be an array of slots, if they are there. -/
def checkChildren (inner : DocPath → Json → Except Fault (List Finding)) (path : DocPath)
    (block : Json) : Except Fault (List Finding) :=
  match block.get? "children" with
  | none => .ok []
  | some value =>
    match value.arr? with
    | none => .ok [⟨path ++ [.key "children"], .childrenNotArray, value⟩]
    | some slots => checkSlots inner path 0 [] slots

/-! ## Blocks and documents -/

/-- The findings on a serialised block (`validate_block_data`). -/
def checkBlock : (levels : Nat) → DocPath → Json → Except Fault (List Finding)
  | 0, _, _ => .error .nesting
  | levels + 1, path, value =>
    match value.obj? with
    | none => .ok [⟨path, .notBlock, value⟩]
    | some _ => do
      let kind ← checkKind path value
      let children ← checkChildren (checkBlock levels) path value
      return kind ++ checkText "id" path value ++ checkText "name" path value ++
        checkCount path value ++ checkParams path value ++ children

/-- The document has to bear the mark of an editor document. -/
def checkMark (doc : Json) : List Finding :=
  let value := doc.getD "fileType"
  if value.str? = some documentMark then [] else [⟨[.key "fileType"], .foreignMark, value⟩]

/-- The inputs have to be an array of integers. -/
def checkInputs (doc : Json) : List Finding :=
  let value := doc.getD "inputs"
  match value.arr? with
  | some items =>
    if items.all fun i => i.int?.isSome then [] else [⟨[.key "inputs"], .malformedInputs, value⟩]
  | none => [⟨[.key "inputs"], .malformedInputs, value⟩]

/-- The number of inputs has to be an integer. -/
def checkInputCount (doc : Json) : List Finding :=
  let value := doc.getD "inputCount"
  if value.int?.isSome then [] else [⟨[.key "inputCount"], .countNotInteger, value⟩]

/-- The root has to be a block, if it is present. -/
def checkRoot (doc : Json) : Except Fault (List Finding) :=
  match doc.present? "rootBlock" with
  | some block => checkBlock nestingLimit [.key "rootBlock"] block
  | none => .ok []

/-- Saved blocks have to be custom blocks. -/
def checkSaved : Json.Members → Except Fault (List Finding)
  | [] => .ok []
  | (name, block) :: rest => do
    let here : DocPath := [.key "customBlocks", .key name]
    let found ← checkBlock nestingLimit here block
    let kind := block.getD "type"
    let foreign : List Finding :=
      if found.isEmpty && kind.str? != some customName then [⟨here, .savedNotCustom, kind⟩] else []
    let others ← checkSaved rest
    return found ++ foreign ++ others

/-- The custom blocks have to be an object of saved blocks, if they are there. -/
def checkCustoms (doc : Json) : Except Fault (List Finding) :=
  match doc.get? "customBlocks" with
  | none => .ok []
  | some value =>
    match value.obj? with
    | none => .ok [⟨[.key "customBlocks"], .customsNotObject, value⟩]
    | some saved => checkSaved saved

/-- The findings on an editor document. -/
def check (doc : Json) : Except Fault (List Finding) :=
  match doc.obj? with
  | none => .ok [⟨[], .notDocument, doc⟩]
  | some _ => do
    let root ← checkRoot doc
    let customs ← checkCustoms doc
    return checkMark doc ++ checkInputs doc ++ checkInputCount doc ++ root ++ customs

/-! ## Verdicts -/

/-- What the check of a document comes to (`ValidationResult`): whether the document is valid, and
the findings on it. -/
structure Verdict where
  valid : Bool
  findings : List Finding
  deriving Repr

/-- The verdict on a document without findings (`valid_result`). -/
def Verdict.accepted : Verdict :=
  { valid := true, findings := [] }

/-- The verdict on a document with findings (`invalid_result`). -/
def Verdict.rejected (findings : List Finding) : Verdict :=
  { valid := false, findings }

/-- Checks an editor document and passes a verdict on it (`validate_editor_state`). -/
def validate (doc : Json) : Except Fault Verdict := do
  let findings ← check doc
  if findings.isEmpty then return .accepted else return .rejected findings

end Document

end BlockCalculus
