import BlockCalculus.Files
import BlockCalculus.Json.Reader

/-!
# Findings on a document

Checking a document yields findings. Each one says where in the document it lies, what is wrong
there, and which value is at fault.
-/

namespace BlockCalculus

/-- One step of a path into a document: to a member of an object, or to an item of the array that
is a member. -/
inductive Segment where
  | key (name : String)
  | item (name : String) (index : Nat)
  deriving DecidableEq, Repr

/-- A segment as it is written. -/
def Segment.text : Segment → String
  | key name => name
  | item name index => name ++ "[" ++ toString index ++ "]"

/-- A path into a document, from the top. -/
abbrev DocPath := List Segment

/-- A path as it is written; the top is `$` (`ValidationState.current_path`). -/
def DocPath.text (path : DocPath) : String :=
  if path.isEmpty then "$" else String.intercalate "." (path.map Segment.text)

/-- The word that marks an editor document (`EDITOR_FILE_TYPE`). -/
def documentMark : String := "BRAM_EDITOR_STATE_V2"

/-- What is wrong with a part of a document. -/
inductive Flaw where
  | notBlock
  | unknownKind
  | notText (key : String)
  | countNotInteger
  | paramsNotArray
  | malformedParam
  | childrenNotArray
  | malformedSlot
  | repeatedSlot (name : String)
  | notDocument
  | foreignMark
  | malformedInputs
  | customsNotObject
  | savedNotCustom
  | malformedText (complaint : Json.Reader.Complaint)
  | malformedFile (path : String) (complaint : Json.Reader.Complaint)
  | unreadable (path : String) (cause : FileError)
  deriving DecidableEq, Repr

/-- A flaw in words. -/
def Flaw.message : Flaw → String
  | notBlock => "Block must be an object"
  | unknownKind => "Block must have a known 'type'"
  | notText key => "'" ++ key ++ "' must be a string"
  | countNotInteger => "inputCount must be an integer"
  | paramsNotArray => "num_values must be an array"
  | malformedParam => "num_values entries need a string 'name' and integer 'value'"
  | childrenNotArray => "children must be an array"
  | malformedSlot => "Slot must be an object with a string 'name'"
  | repeatedSlot name => "Duplicate slot name: " ++ name
  | notDocument => "Document must be an object"
  | foreignMark => "fileType must be " ++ documentMark
  | malformedInputs => "inputs must be an array of integers"
  | customsNotObject => "customBlocks must be an object"
  | savedNotCustom => "Saved custom blocks must have type Custom"
  | malformedText complaint => "Invalid JSON: " ++ complaint.message
  | malformedFile path complaint => "Could not read " ++ path ++ ": " ++ complaint.message
  | unreadable path cause => "Could not read " ++ path ++ ": " ++ cause.message path

/-- A flaw, where it lies, and the value at fault, `null` if there is none (`ValidationError`). -/
structure Finding where
  path : DocPath
  flaw : Flaw
  value : Json := .null
  deriving Repr

/-- A finding in one phrase. -/
def Finding.text (f : Finding) : String :=
  "ValidationError(" ++ Text.quoted f.path.text ++ ", " ++ Text.quoted f.flaw.message ++ ")"

/-- A finding in one line. -/
def Finding.line (f : Finding) : String :=
  f.path.text ++ ": " ++ f.flaw.message

end BlockCalculus
