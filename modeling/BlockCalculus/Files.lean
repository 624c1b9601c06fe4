import BlockCalculus.Text.Quoted

/-!
# Files

Files are known by what reading a path gives (`Files`). `normalizePath` is the form in which a path
is reported.

A folder that holds nothing but files, with nothing around it, is one way to know them:
`Folder.read` follows a path from there. The part `.` stays, `..` leaves the folder, and nothing
outside of it is known but the folders above.
-/

namespace BlockCalculus

/-- Why a file could not be read. -/
inductive FileError where
  | notFound
  | notFolder
  | isFolder
  | nameTooLong
  /-- Any other error, with the system's number and words for it. -/
  | other (code : Nat) (words : String)
  deriving DecidableEq, Repr

/-- The system's number for an error. -/
def FileError.code : FileError → Nat
  | notFound => 2
  | notFolder => 20
  | isFolder => 21
  | nameTooLong => 36
  | other code _ => code

/-- The system's words for an error. -/
def FileError.words : FileError → String
  | notFound => "No such file or directory"
  | notFolder => "Not a directory"
  | isFolder => "Is a directory"
  | nameTooLong => "File name too long"
  | other _ words => words

/-- An error on a path, in words. -/
def FileError.message (e : FileError) (path : String) : String :=
  "[Errno " ++ toString e.code ++ "] " ++ e.words ++ ": " ++ Text.quoted path

/-- What reading a path gives. -/
abbrev Files := String → Except FileError (List UInt8)

/-- The files of a folder, by name. -/
structure Folder where
  files : List (String × List UInt8)

/-! ## Paths -/

/-- The parts of a path between slashes. -/
def pathParts (path : String) : List String :=
  (path.toList.splitOn '/').map String.ofList

/-- The parts of a path that name something. -/
def namedParts (path : String) : List String :=
  (pathParts path).filter fun p => p != "" && p != "."

/-- The start of an absolute path: one slash, or two if it starts with exactly two. -/
def pathRoot (path : String) : String :=
  match path.toList with
  | '/' :: '/' :: '/' :: _ => "/"
  | '/' :: '/' :: _ => "//"
  | '/' :: _ => "/"
  | _ => ""

/-- A path without empty and `.` parts; the path of no parts is `.`. -/
def normalizePath (path : String) : String :=
  let text := pathRoot path ++ String.intercalate "/" (namedParts path)
  if text = "" then "." else text

/-! ## Reading -/

/-- Where a path has led so far: the folder itself, a folder outside of it, or a file. -/
inductive Place where
  | here
  | outside
  | file (bytes : List UInt8)

/-- The longest name of a file, in bytes. -/
def nameLimit : Nat := 255

/-- The longest path, in bytes. -/
def pathLimit : Nat := 4095

namespace Folder

/-- Follows one part of a path. -/
def follow (folder : Folder) (place : Place) (part : String) : Except FileError Place :=
  match place with
  | .file _ => .error .notFolder
  | .here =>
    if part = "" ∨ part = "." then .ok .here
    else if part = ".." then .ok .outside
    else if nameLimit < part.utf8ByteSize then .error .nameTooLong
    else
      match folder.files.find? fun f => f.1 == part with
      | some f => .ok (.file f.2)
      | none => .error .notFound
  | .outside =>
    if part = "" ∨ part = "." ∨ part = ".." then .ok .outside
    else if nameLimit < part.utf8ByteSize then .error .nameTooLong
    else .error .notFound

/-- The bytes of the file that a path leads to. -/
def read (folder : Folder) (path : String) : Except FileError (List UInt8) :=
  if path = "" then .error .notFound
  else if pathLimit < path.utf8ByteSize then .error .nameTooLong
  else
    let start : Place := if path.startsWith "/" then .outside else .here
    match (pathParts path).foldlM folder.follow start with
    | .error e => .error e
    | .ok (.file bytes) => .ok bytes
    | .ok _ => .error .isFolder

end Folder

end BlockCalculus
