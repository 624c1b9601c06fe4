/-!
# Kinds of blocks

A block denotes a function on integers. Three kinds are base functions (zero, successor,
projection), three build functions from functions (composition, primitive recursion,
minimization), and the last one wraps a subtree under a name.
-/

namespace BlockCalculus

/-- The seven kinds of blocks (`BlockType`). -/
inductive Kind where
  | zero
  | successor
  | projection
  | composition
  | primitiveRecursion
  | minimization
  | custom
  deriving DecidableEq, Repr

namespace Kind

/-- Every kind, in the order of the standard catalogue. -/
def all : List Kind :=
  [zero, successor, projection, composition, primitiveRecursion, minimization, custom]

/-- The name under which a kind is stored and reported. -/
def name : Kind → String
  | zero => "Zero"
  | successor => "Successor"
  | projection => "Projection"
  | composition => "Composition"
  | primitiveRecursion => "Primitive Recursion"
  | minimization => "Minimization"
  | custom => "Custom"

/-- The name in capitals, shown for a block that has no name of its own. -/
def caption : Kind → String
  | zero => "ZERO"
  | successor => "SUCCESSOR"
  | projection => "PROJECTION"
  | composition => "COMPOSITION"
  | primitiveRecursion => "PRIMITIVE RECURSION"
  | minimization => "MINIMIZATION"
  | custom => "CUSTOM"

/-- The kind of a given name. -/
def ofName? (s : String) : Option Kind :=
  all.find? fun k => k.name == s

theorem mem_all (k : Kind) : k ∈ all := by
  cases k <;> decide

/-- Distinct kinds have distinct names, so a stored name determines its kind. -/
theorem ofName?_name (k : Kind) : ofName? k.name = some k := by
  cases k <;> decide

end Kind

end BlockCalculus
