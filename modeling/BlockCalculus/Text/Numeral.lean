/-!
# Integers as text

An integer has a text only if it has at most `digitLimit` digits, whether the text is read or
written. Counting is not limited, so an integer can come about that has no text (`isWritable`).
-/

namespace BlockCalculus.Text

/-- The most digits of an integer in text. -/
def digitLimit : Nat := 4300

/-- Whether an integer has few enough digits to be written. -/
def isWritable (n : Int) : Bool :=
  n.natAbs < Nat.pow 10 digitLimit

/-- There is a least number that is too long to be written, and one before it. -/
theorem exists_pow_digitLimit : ∃ n, Nat.pow 10 digitLimit = n + 1 := by
  -- The exponent is a variable here, so that nothing tries to compute the power.
  have hpos (digits : Nat) : 1 ≤ Nat.pow 10 digits := Nat.pow_pos (by decide)
  exact Nat.exists_eq_add_of_le' (hpos digitLimit)

theorem isWritable_eq_false {n : Int} (h : Nat.pow 10 digitLimit ≤ n.natAbs) :
    isWritable n = false :=
  decide_eq_false (Nat.not_lt.mpr h)

/-- Integers between commas. -/
def numbers (ns : List Int) : String :=
  String.intercalate ", " (ns.map toString)

/-- Integers between commas and in brackets. -/
def numberList (ns : List Int) : String :=
  "[" ++ numbers ns ++ "]"

end BlockCalculus.Text
