import BlockCalculus.Kind
import BlockCalculus.Text.Numeral

/-!
# Errors of evaluation

Evaluating a block fails where the walk through the tree meets something it cannot go on with.
An error (`EvaluationError`) names the block it arose at, except for the last two causes. Its words
are put together when it arises, and they may tell of a number that cannot be written: then there
is no such error (`isTellable`).

A rule may also fail in a way of its own (`Failure`).
-/

namespace BlockCalculus

/-- The classes of evaluation errors. -/
inductive EvalCode where
  | missingSlot
  | arity
  | missingParameter
  | parameterOutOfRange
  | noInputs
  | nonConvergence
  | emptyCustom
  | recursionLimit
  | unknownKind
  deriving DecidableEq, Repr

/-- The name a class is reported under. -/
def EvalCode.name : EvalCode → String
  | missingSlot => "MissingSlot"
  | arity => "ArityError"
  | missingParameter => "MissingParameter"
  | parameterOutOfRange => "ParameterOutOfRange"
  | noInputs => "NoInputs"
  | nonConvergence => "NonConvergence"
  | emptyCustom => "EmptyCustom"
  | recursionLimit => "RecursionLimit"
  | unknownKind => "UnknownBlockType"

/-- Why an evaluation failed. `id` is the block at which it did. -/
inductive EvalError where
  /-- A slot that the block needs is empty or absent. -/
  | missingSlot (kind : Kind) (slot : String) (id : String)
  /-- A block that takes exactly one input got another number. -/
  | arity (kind : Kind) (got : Nat) (id : String)
  /-- A parameter that the block needs is absent. -/
  | missingParameter (kind : Kind) (name : String) (id : String)
  /-- A parameter is not between one and `high`. -/
  | parameterOutOfRange (kind : Kind) (name : String) (value : Int) (high : Nat) (id : String)
  /-- A block that takes at least one input got none. -/
  | noInputs (kind : Kind) (id : String)
  /-- No candidate below `limit` ended a search. -/
  | nonConvergence (limit : Int) (id : String)
  /-- A named block has no body. -/
  | emptyCustom (name : Option String) (id : String)
  /-- Too many blocks were under evaluation at once. -/
  | recursionLimit
  /-- The catalogue has no entry for the block's kind. -/
  | unknownKind (kind : Kind)
  deriving DecidableEq, Repr

namespace EvalError

/-- The class of an error. -/
def code : EvalError → EvalCode
  | missingSlot .. => .missingSlot
  | arity .. => .arity
  | missingParameter .. => .missingParameter
  | parameterOutOfRange .. => .parameterOutOfRange
  | noInputs .. => .noInputs
  | nonConvergence .. => .nonConvergence
  | emptyCustom .. => .emptyCustom
  | recursionLimit => .recursionLimit
  | unknownKind .. => .unknownKind

/-- An error in words. -/
def message : EvalError → String
  | missingSlot kind slot _ => slot ++ " block is missing in " ++ kind.name ++ "."
  | arity kind got _ =>
    kind.name ++ " block requires exactly one input(s), got " ++ toString got ++ "."
  | missingParameter kind name _ => kind.name ++ " block requires a value for '" ++ name ++ "'."
  | parameterOutOfRange kind name value high _ =>
    kind.name ++ " block '" ++ name ++ "' value must be between 1 and " ++ toString high ++
      ", but is " ++ toString value ++ "."
  | noInputs kind _ => kind.name ++ " block requires at least one input."
  | nonConvergence limit _ =>
    "Minimization did not converge within " ++ toString limit ++ " iterations."
  | emptyCustom (some name) _ =>
    if name = "" then "Custom block is empty." else "Custom block '" ++ name ++ "' is empty."
  | emptyCustom none _ => "Custom block is empty."
  | recursionLimit => "Evaluation exceeded the interpreter recursion limit."
  | unknownKind kind => "Unknown block type: " ++ kind.name

/-- Whether an error can be put into words: the numbers in it that are not counted can be
written. -/
def isTellable : EvalError → Bool
  | parameterOutOfRange _ _ value _ _ => Text.isWritable value
  | nonConvergence limit _ => Text.isWritable limit
  | _ => true

end EvalError

/-- Why a rule gives no value: by an evaluation error, or for a cause and in words of its own. -/
inductive Failure where
  | error (e : EvalError)
  | raised (cause message : String)
  deriving DecidableEq, Repr

end BlockCalculus
