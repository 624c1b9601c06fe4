import BlockCalculus.Number.Binary64
import BlockCalculus.Text.Quoted

/-!
# JSON values

Documents are JSON values. Integers are exact and kept apart from numbers that have a fraction or
an exponent. The members of an object stay in the order in which their keys first appeared.

`put` adds a member or gives an existing key a new value in place, so keys never repeat
(`get?_put_self`, `get?_put_of_ne`). `literal` is the text by which a value is shown in messages.
-/

namespace BlockCalculus

/-- A JSON value. -/
inductive Json where
  | null
  | bool (b : Bool)
  | int (n : Int)
  | number (x : Binary64)
  | str (s : String)
  | arr (items : List Json)
  | obj (members : List (String × Json))
  deriving Repr, Inhabited

namespace Json

/-! ## Members -/

/-- The members of an object, in order. -/
abbrev Members := List (String × Json)

/-- The value stored under a key. -/
def Members.get? (key : String) : Members → Option Json
  | [] => none
  | (k, v) :: rest => if k = key then some v else get? key rest

/-- Gives a key its value: in place if the key is present, else at the end. -/
def Members.put (key : String) (value : Json) : Members → Members
  | [] => [(key, value)]
  | (k, v) :: rest => if k = key then (k, value) :: rest else (k, v) :: put key value rest

theorem Members.get?_put_self (key : String) (value : Json) (ms : Members) :
    (ms.put key value).get? key = some value := by
  induction ms with
  | nil => simp [put, get?]
  | cons m rest ih =>
    simp only [put]
    split
    · simp_all [get?]
    · simp_all [get?]

theorem Members.get?_put_of_ne {key other : String} (h : other ≠ key) (value : Json)
    (ms : Members) : (ms.put key value).get? other = ms.get? other := by
  induction ms with
  | nil => simp [put, get?, Ne.symm h]
  | cons m rest ih =>
    simp only [put]
    split
    · rename_i hk
      simp [get?, hk, Ne.symm h]
    · simp [get?, ih]

/-- The member of an object under a key. Other values have no members. -/
def get? (key : String) : Json → Option Json
  | obj members => Members.get? key members
  | _ => none

/-- The member of an object under a key, `null` if there is none. -/
def getD (key : String) (j : Json) : Json :=
  (j.get? key).getD null

/-- The member of an object under a key, unless it is absent or `null`. -/
def present? (key : String) (j : Json) : Option Json :=
  match j.get? key with
  | none | some null => none
  | some v => some v

/-! ## Views -/

/-- The integer a value is. Booleans and numbers with a fraction are none. -/
def int? : Json → Option Int
  | int n => some n
  | _ => none

/-- The text a value is. -/
def str? : Json → Option String
  | str s => some s
  | _ => none

/-- The items of an array. -/
def arr? : Json → Option (List Json)
  | arr items => some items
  | _ => none

/-- The members of an object. -/
def obj? : Json → Option Members
  | obj members => some members
  | _ => none

/-- Whether a value counts as set when it is read as a flag: everything does but `null`, false,
zeros and empty texts, arrays and objects. -/
def isSet : Json → Bool
  | null => false
  | bool b => b
  | int n => n != 0
  | number x => !x.isZero
  | str s => s != ""
  | arr items => !items.isEmpty
  | obj members => !members.isEmpty

/-! ## Values in messages -/

mutual

/-- A value as messages show it. -/
def literal : Json → String
  | null => "None"
  | bool b => if b then "True" else "False"
  | int n => toString n
  | number x => x.text
  | str s => Text.quoted s
  | arr items => "[" ++ String.intercalate ", " (literals items) ++ "]"
  | obj members => "\x7b" ++ String.intercalate ", " (memberLiterals members) ++ "\x7d"

def literals : List Json → List String
  | [] => []
  | j :: rest => literal j :: literals rest

def memberLiterals : List (String × Json) → List String
  | [] => []
  | (k, v) :: rest => (Text.quoted k ++ ": " ++ literal v) :: memberLiterals rest

end

end Json

end BlockCalculus
