import BlockCalculus.Document.State
import BlockCalculus.Text.Integer

/-!
# Inputs of a run

Inputs are given as a text or in a file. A text is a JSON array of integers, or else integers
between commas. A file is a JSON array of integers.
-/

namespace BlockCalculus.Command

/-- The inputs in an array (`_as_int`). -/
def inputsOfItems : List Json → Except Fault (List Int)
  | [] => .ok []
  | .int n :: rest => (inputsOfItems rest).map (n :: ·)
  | value :: _ => .error (.inputNotInteger value)

/-- One input between commas. -/
def inputOfPiece (cs : List Char) : Except Fault Int :=
  match Text.readInteger cs with
  | .ok n => .ok n
  | .error .malformed => .error (.notInteger (String.ofList cs))
  | .error (.digits count) => .error (.tooManyDigits count)

/-- Inputs between commas. Blank pieces do not count. -/
def inputsBetweenCommas (text : String) : Except Fault (List Int) :=
  (((text.toList.splitOn ',').map Text.strip).filter fun cs => !cs.isEmpty).mapM inputOfPiece

/-- Reads inputs from a text (`parse_input_string`). -/
def parseInputs (text : String) : Except Fault (List Int) :=
  match Json.read text with
  | .ok (.arr items) => inputsOfItems items
  | .ok _ | .error (.malformed _) => inputsBetweenCommas text
  | .error (.digits count) => .error (.tooManyDigits count)
  | .error .nesting => .error .nesting
  | .error .loneSurrogate => .error .loneSurrogate

/-- The inputs in an array of integers. -/
def inputsOfJson (value : Json) : Option (List Int) :=
  value.arr?.bind fun items => (inputsOfItems items).toOption

/-- Reads inputs from a file (`read_inputs_file`). A file that is missing or holds something else
gives none. -/
def readInputs (files : Files) (path : String) : Except Fault (Option (List Int)) :=
  if path.toList.contains '\x00' then .ok none
  else
    match files path with
    | .error _ => .ok none
    | .ok bytes =>
      match EditorState.decodeFile bytes with
      | .error _ => .ok none
      | .ok text =>
        match Json.read text with
        | .ok value => .ok (inputsOfJson value)
        | .error .nesting => .error .nesting
        | .error _ => .ok none

end BlockCalculus.Command
