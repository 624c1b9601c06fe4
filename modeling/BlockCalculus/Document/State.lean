import BlockCalculus.Document.Library
import BlockCalculus.Files
import BlockCalculus.Text.Blank

/-!
# Editor documents

An editor document stores a tree, inputs and a library. `EditorState.toJson` dumps one, and
`EditorState.load` loads one from a text, a file or a JSON value: it is checked, and then the
library, the tree and its numbers of inputs are set up. A document that is not sound gives findings
and no state.
-/

namespace BlockCalculus

/-- What an editor document stores. -/
structure EditorState where
  root : Option Block := none
  inputs : List Int := []
  inputCount : Int := 0
  library : Library := {}

/-- Where a document comes from. -/
inductive Source where
  /-- A text that starts with an opening brace, or the path of a file. -/
  | text (s : String)
  | path (s : String)
  | value (j : Json)

namespace EditorState

/-- A state as JSON (`dump_editor_state`). -/
def toJson (s : EditorState) : Except Fault Json := do
  let root ← s.root.mapM Block.encode
  return .obj ([("fileType", .str documentMark), ("inputs", .arr (s.inputs.map .int)),
      ("inputCount", .int s.inputCount), ("customBlocks", .obj s.library.entries)] ++
    Json.member? "rootBlock" root)

/-! ## Reading texts and files -/

/-- The value of a text. A malformed text is reported as `flaw` says. -/
def readText (flaw : Json.Reader.Complaint → Flaw) (text : String) :
    Except Fault (Except (List Finding) Json) :=
  match Json.read text with
  | .ok value => .ok (.ok value)
  | .error (.malformed complaint) => .ok (.error [{ path := [], flaw := flaw complaint }])
  | .error (.digits count) => .error (.tooManyDigits count)
  | .error .nesting => .error .nesting
  | .error .loneSurrogate => .error .loneSurrogate

/-- The text of a file, with plain line breaks. -/
def decodeFile (bytes : List UInt8) : Except Fault String :=
  match Text.decodeUtf8 bytes with
  | .ok cs => .ok (String.ofList (Text.plainLines cs))
  | .error e => .error (.undecodable e)

/-- The value of the file at a path. -/
def readFile (files : Files) (path : String) : Except Fault (Except (List Finding) Json) :=
  let shown := normalizePath path
  if path.toList.contains '\x00' then .error .nullInPath
  else
    match files shown with
    | .error e => .ok (.error [{ path := [], flaw := .unreadable shown e }])
    | .ok bytes => (decodeFile bytes).bind (readText (.malformedFile shown))

/-- Whether a text is a document rather than a path. -/
def isDocumentText (s : String) : Bool :=
  (Text.stripStart s.toList).head? == some '{'

/-- The value that a source stands for. -/
def readSource (files : Files) : Source → Except Fault (Except (List Finding) Json)
  | .path s => readFile files s
  | .text s | .value (.str s) =>
    if isDocumentText s then readText .malformedText s else readFile files s
  | .value j => .ok (.ok j)

/-! ## Loading -/

/-- The integers of an array. -/
def integers (j : Json) : List Int :=
  ((j.arr?).getD []).filterMap Json.int?

/-- Sets up the state of a sound document. -/
def ofSound (c : Catalog) (doc : Json) : Build EditorState := do
  let saved := ((doc.get? "customBlocks").bind Json.obj?).getD []
  let library ← Library.registerAll saved { catalog := c }
  let inputCount := max 0 (((doc.getD "inputCount").int?).getD 0)
  let root ← match doc.present? "rootBlock" with
    | some data => do
      let b ← Block.load c loadLimit 0 data
      some <$> Build.ofExcept ((b.propagate inputCount).checked c)
    | none => pure none
  return { root, inputs := integers (doc.getD "inputs"), inputCount, library }

/-- Checks a document and sets up its state. -/
def ofJson (c : Catalog) (doc : Json) : Build (Except (List Finding) EditorState) := do
  let verdict ← Build.ofExcept (Document.validate doc)
  if verdict.valid then return .ok (← ofSound c doc) else return .error verdict.findings

/-- Loads a document (`load_editor_state`). -/
def load (files : Files) (c : Catalog) (source : Source) :
    Build (Except (List Finding) EditorState) := do
  match ← Build.ofExcept (readSource files source) with
  | .ok doc => ofJson c doc
  | .error findings => return .error findings

end EditorState

end BlockCalculus
