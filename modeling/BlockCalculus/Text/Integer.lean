import BlockCalculus.Text.Digit
import BlockCalculus.Text.Numeral

/-!
# Integers in text

An integer is written by a sign, if any, and decimal digits of any script, with single underscores
between digits. The number of digits is limited, and that limit counts before anything that follows
the digits is looked at.
-/

namespace BlockCalculus.Text

/-- Why a text is no integer. -/
inductive IntegerError where
  | malformed
  | digits (count : Nat)
  deriving DecidableEq, Repr

/-- The longest start of a text that consists of digits and underscores, as digit values and
underscores (`none`), and the characters after it. -/
def spanNumeral : List Char → List (Option Nat) × List Char
  | [] => ([], [])
  | c :: rest =>
    let (ds, after) := spanNumeral rest
    if c = '_' then (none :: ds, after)
    else
      match digitValue? c with
      | some d => (some d :: ds, after)
      | none => ([], c :: rest)

/-- Whether every underscore stands between two digits. -/
def spaced : List (Option Nat) → Bool
  | [] => true
  | [d] => d.isSome
  | d :: e :: rest => (d.isSome || e.isSome) && spaced (e :: rest)

/-- Reads digits and underscores. -/
def readNumeral (cs : List Char) : Except IntegerError Nat :=
  let (ds, after) := spanNumeral cs
  match ds with
  | [] | none :: _ => .error .malformed
  | some _ :: _ =>
    let values := ds.filterMap id
    if !spaced ds then .error .malformed
    else if digitLimit < values.length then .error (.digits values.length)
    else if !after.isEmpty then .error .malformed
    else .ok (values.foldl (fun n d => 10 * n + d) 0)

/-- Reads an integer. -/
def readInteger (cs : List Char) : Except IntegerError Int :=
  match cs with
  | '-' :: rest => (readNumeral rest).map fun n => -(n : Int)
  | '+' :: rest => (readNumeral rest).map Int.ofNat
  | _ => (readNumeral cs).map Int.ofNat

end BlockCalculus.Text
