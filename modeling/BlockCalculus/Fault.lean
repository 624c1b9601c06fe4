import BlockCalculus.Document.Finding
import BlockCalculus.Evaluation.Error
import BlockCalculus.Text.Utf8

/-!
# Faults

An operation that cannot be carried out answers with a fault. A fault is the cause; `message` puts
it into words.
-/

namespace BlockCalculus

/-- Why an operation failed. -/
inductive Fault where
  /-- An evaluation failed. -/
  | evaluation (e : EvalError)
  /-- A stepped evaluation was called off. -/
  | halted (message : String)
  /-- A rule suspended where nothing can resume it. -/
  | suspended
  /-- Something nests too deep to descend through. -/
  | nesting
  /-- A catalogue has no entry for a kind. -/
  | notRegistered (kind : Kind)
  /-- A catalogue has an entry for a kind already. -/
  | alreadyRegistered (kind : Kind)
  /-- A frozen catalogue takes no more entries. -/
  | frozen
  /-- A catalogue entry has no rule. -/
  | noRule (kind : Kind)
  /-- A catalogue entry has no check. -/
  | noCheck (kind : Kind)
  /-- A block has no parameter of a name. -/
  | noParameter (kind : Kind) (name : String)
  /-- A tree has no block of an id. -/
  | noBlock (id : String)
  /-- There is no kind of a name. -/
  | noKind (name : Json)
  /-- There is no speed of a name. -/
  | noSpeed (name : Json)
  /-- A serialised block is malformed. -/
  | invalidBlock (findings : List Finding)
  /-- The kind of a serialised block is an array or an object. -/
  | structuredKind (isArray : Bool)
  /-- Only custom blocks go into a library. -/
  | notCustom (kind : Kind)
  /-- A custom block without a name does not go into a library. -/
  | unnamed
  /-- A library has no entry of a name. -/
  | unknownCustom (name : String)
  /-- A custom block has no slot for its body. -/
  | noBody
  /-- Bytes are not UTF-8. -/
  | undecodable (e : Text.Utf8Error)
  /-- A path holds a null character. -/
  | nullInPath
  /-- An integer in text has too many digits. -/
  | tooManyDigits (count : Nat)
  /-- An integer has too many digits to be written. -/
  | unwritable
  /-- A text escapes half of a surrogate pair, which is no character. -/
  | loneSurrogate
  /-- A text is no integer. -/
  | notInteger (text : String)
  /-- An input is no integer. -/
  | inputNotInteger (value : Json)
  /-- Inputs were announced, but there is no text of them. -/
  | noInputText
  /-- A run is in progress. -/
  | alreadyRunning
  /-- A run was cancelled. -/
  | cancelled
  /-- An observer or a rule failed, for a cause and in words of its own. -/
  | raised (cause message : String)
  /-- An observer asked for the whole program to end, for a cause and in words of its own. No run
  handles that. -/
  | quit (cause message : String)
  deriving Repr

/-- The words of an evaluation that was called off without any. -/
def Fault.haltMessage : String := "Halted"

/-- The most characters of a quoted text that the fault `notInteger` shows. -/
def Fault.quoteLimit : Nat := 200

/-- A byte in hexadecimal. -/
def Fault.byteText (b : UInt8) : String :=
  "0x" ++ String.ofList (Text.hex 2 b.toNat)

/-- A fault in words. -/
def Fault.message : Fault → String
  | evaluation e => e.message
  | halted message => message
  | suspended => "Direct evaluation suspended; use evaluate_stepped instead"
  | nesting => "maximum recursion depth exceeded"
  | notRegistered kind => "Block type " ++ kind.name ++ " not registered"
  | alreadyRegistered kind => "Block type " ++ kind.name ++ " already registered"
  | frozen => "Block registry is frozen"
  | noRule kind => "Block " ++ kind.name ++ " missing evaluation rule"
  | noCheck kind => "Block " ++ kind.name ++ " missing validator"
  | noParameter kind name => kind.name ++ " block has no parameter '" ++ name ++ "'"
  | noBlock id => "No block with id " ++ id
  | noKind name => name.literal ++ " is not a valid BlockType"
  | noSpeed name => name.literal ++ " is not a valid Speed"
  | invalidBlock findings =>
    "Invalid block data: " ++ String.intercalate "; " (findings.map Finding.line)
  | structuredKind isArray => "unhashable type: " ++ (if isArray then "'list'" else "'dict'")
  | notCustom kind => "Only Custom blocks can be registered, got " ++ kind.name
  | unnamed => "Custom blocks need a name"
  | unknownCustom name => "Unknown custom block: " ++ name
  | noBody => "'NoneType' object has no attribute 'block'"
  | undecodable e =>
    "'utf-8' codec can't decode " ++
      (if e.length = 1 then "byte " ++ byteText e.byte ++ " in position " ++ toString e.offset
       else "bytes in position " ++ toString e.offset ++ "-" ++
        toString (e.offset + e.length - 1)) ++
      ": " ++ e.reason.message
  | nullInPath => "embedded null byte"
  | tooManyDigits count =>
    "Exceeds the limit (4300 digits) for integer string conversion: value has " ++
      toString count ++ " digits; use sys.set_int_max_str_digits() to increase the limit"
  | unwritable =>
    "Exceeds the limit (4300 digits) for integer string conversion; " ++
      "use sys.set_int_max_str_digits() to increase the limit"
  | loneSurrogate => "surrogates not allowed"
  | notInteger text =>
    "invalid literal for int() with base 10: " ++
      String.ofList ((Text.quoted text).toList.take quoteLimit)
  | inputNotInteger value => "Inputs must be integers, got " ++ value.literal
  | noInputText => "the JSON object must be str, bytes or bytearray, not list"
  | alreadyRunning => "An evaluation is already in progress"
  | cancelled => ""
  | raised _ message => message
  | quit _ message => message

/-- What comes out of a rule that fails. An evaluation error that cannot be put into words is
none. -/
def Failure.fault : Failure → Fault
  | error e => if e.isTellable then .evaluation e else .unwritable
  | raised cause message => .raised cause message

theorem Failure.fault_of_isTellable {e : EvalError} (h : e.isTellable = true) :
    (error e).fault = .evaluation e :=
  if_pos h

theorem Failure.fault_of_not_isTellable {e : EvalError} (h : ¬ e.isTellable = true) :
    (error e).fault = .unwritable :=
  if_neg h

theorem Failure.fault_ne_suspended (failure : Failure) : failure.fault ≠ .suspended := by
  cases failure with
  | raised cause message => exact nofun
  | error e =>
    by_cases h : e.isTellable = true
    · rw [fault_of_isTellable h]
      exact nofun
    · rw [fault_of_not_isTellable h]
      exact nofun

theorem Failure.fault_eq_evaluation_iff {failure : Failure} {e : EvalError} :
    failure.fault = .evaluation e ↔ failure = .error e ∧ e.isTellable = true := by
  cases failure with
  | raised cause message => simp [fault]
  | error e' =>
    by_cases h : e'.isTellable = true
    · rw [fault_of_isTellable h]
      constructor
      · rintro ⟨⟩
        exact ⟨rfl, h⟩
      · rintro ⟨⟨⟩, -⟩
        rfl
    · rw [fault_of_not_isTellable h]
      constructor
      · rintro ⟨⟩
      · rintro ⟨⟨⟩, h'⟩
        exact absurd h' h

end BlockCalculus
