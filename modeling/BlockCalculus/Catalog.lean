import BlockCalculus.Evaluation.Script
import BlockCalculus.Fault

/-!
# Catalogues of block kinds

A catalogue says, for every kind it knows, which parameters and slots a new block gets, by which
rule the block is evaluated and by which check it is checked. An entry is put together as a
`Draft` and completed by `Draft.build`. Entries are registered one per kind, until the catalogue is
frozen.

`standard` is the catalogue of the seven kinds. Where a catalogue can be left out, an empty one
counts as left out (`orStandard`).
-/

namespace BlockCalculus

/-- How a block is evaluated (`BlockRule`): as blocks of a kind are, or by a rule of one's own,
which has a script for every block and inputs. -/
inductive Rule where
  | ofKind (kind : Kind)
  | own (script : Block → List Int → Script)

/-- A parameter that new blocks get (`NumValueSpec`). -/
structure ParamSpec where
  name : String
  default : Int
  minimum : Int := 0
  deriving DecidableEq, Repr

/-- What a catalogue says of a kind (`BlockConfig`). The slots of a `counted` entry follow from the
parameter `m` of the block, otherwise they are the `slots` of the entry. -/
structure Entry where
  kind : Kind
  slots : List SlotShape := []
  params : List ParamSpec := []
  counted : Bool := false
  rule : Rule
  check : Kind
  description : Option String := none

/-- The slots of a composition of `size` parts (`_composition_layout`): one for the outer function,
which takes as many inputs as there are parts, and one for every part. A negative size counts as
zero. -/
def compositionSlots (size : Int) : List SlotShape :=
  { name := "f", descriptor := 1, exact := some (max size 0) } ::
    (List.range size.toNat).map fun i => { name := "g" ++ toString (i + 1) }

namespace Entry

/-- The slots that a block with the given parameters should have (`BlockConfig.layout`). -/
def layout (e : Entry) (params : List Param) : List SlotShape :=
  if e.counted then compositionSlots ((Param.value? "m" params).getD 1) else e.slots

/-- The parameters of a new block. -/
def newParams (e : Entry) : List Param :=
  e.params.map fun p => ⟨p.name, p.default, p.minimum⟩

end Entry

/-- An entry that is being put together (`BlockConfigBuilder`). -/
structure Draft where
  kind : Kind
  slots : List SlotShape := []
  params : List ParamSpec := []
  counted : Bool := false
  rule : Option Rule := none
  check : Option Kind := none
  description : Option String := none

/-- Completes a draft, which needs a rule and a check (`BlockConfigBuilder.build`). -/
def Draft.build (d : Draft) : Except Fault Entry :=
  match d.rule, d.check with
  | none, _ => .error (.noRule d.kind)
  | some _, none => .error (.noCheck d.kind)
  | some rule, some check =>
    .ok { kind := d.kind, slots := d.slots, params := d.params, counted := d.counted,
          rule, check, description := d.description }

/-- A catalogue (`BlockRegistry`): entries in the order of their registration. -/
structure Catalog where
  entries : List Entry := []
  frozen : Bool := false

namespace Catalog

/-- The entry of a kind (`BlockRegistry.lookup`). -/
def lookup? (kind : Kind) (c : Catalog) : Option Entry :=
  c.entries.find? fun e => e.kind == kind

/-- The entry of a kind, which has to be there (`BlockRegistry.get`). -/
def get (kind : Kind) (c : Catalog) : Except Fault Entry :=
  match c.lookup? kind with
  | some e => .ok e
  | none => .error (.notRegistered kind)

/-- Adds an entry (`BlockRegistry.register`). -/
def register (c : Catalog) (e : Entry) : Except Fault Catalog :=
  if c.frozen then .error .frozen
  else if (c.lookup? e.kind).isSome then .error (.alreadyRegistered e.kind)
  else .ok { c with entries := c.entries ++ [e] }

/-- Adds entries until one is refused (`BlockRegistry.register_all`). The answer is the catalogue
reached, and why it went no further if it did not take all. -/
def registerAll (c : Catalog) : List Entry → Catalog × Option Fault
  | [] => (c, none)
  | e :: rest =>
    match c.register e with
    | .ok c' => registerAll c' rest
    | .error f => (c, some f)

/-- Takes no more entries (`BlockRegistry.freeze`). -/
def freeze (c : Catalog) : Catalog :=
  { c with frozen := true }

/-! ## The standard catalogue -/

/-- Always zero. -/
def zero : Entry where
  kind := .zero
  rule := .ofKind .zero
  check := .zero
  description := some "Ignores inputs. Returns 0."

/-- One more than the input. -/
def successor : Entry where
  kind := .successor
  rule := .ofKind .successor
  check := .successor
  description := some "1 input. Returns the input incremented by 1."

/-- One of the inputs. -/
def projection : Entry where
  kind := .projection
  params := [{ name := "i", default := 1, minimum := 1 }]
  rule := .ofKind .projection
  check := .projection
  description := some
    ("n > 0 inputs. Returns the i-th input, where i is a parameter of the block and " ++
      "1 <= i <= n.")

/-- A function of the results of functions. -/
def composition : Entry where
  kind := .composition
  params := [{ name := "m", default := 1, minimum := 0 }]
  counted := true
  rule := .ofKind .composition
  check := .composition
  description := some
    ("n inputs. Contains m blocks g1 ... gm. Runs g1 ... gm on the n inputs. Then returns f " ++
      "evaluated on the results of g1 ... gm.")

/-- The slot for the value at zero. -/
def baseCase : SlotShape := { name := "Base Case", descriptor := 0, shift := some (-1) }

/-- The slot for the value at a successor. -/
def recursiveCase : SlotShape := { name := "Recursive Case", descriptor := 3, shift := some 1 }

/-- Recursion on the last input. -/
def primitiveRecursion : Entry where
  kind := .primitiveRecursion
  slots := [baseCase, recursiveCase]
  rule := .ofKind .primitiveRecursion
  check := .primitiveRecursion
  description := some
    ("n >= 1 inputs. If rightmost input is 0, returns the base case. Otherwise, returns the " ++
      "recursive case evaluated where y = (rightmost input - 1), and z is the result of the " ++
      "previous recursive step (this block, evaluated with rightmost input decremented).")

/-- The least zero of a function. -/
def minimization : Entry where
  kind := .minimization
  slots := [{ name := "f", descriptor := 2, shift := some 1 }]
  rule := .ofKind .minimization
  check := .minimization
  description := some
    ("Any number of inputs. Finds the smallest non-negative integer n such that f evaluated on " ++
      "the inputs and n returns 0.")

/-- The slot for the body of a named block. -/
def customBody : SlotShape := { name := "Custom Function" }

/-- A named function. -/
def custom : Entry where
  kind := .custom
  slots := [customBody]
  rule := .ofKind .custom
  check := .custom

/-- The standard entry of a kind. -/
def entryOf : Kind → Entry
  | .zero => zero
  | .successor => successor
  | .projection => projection
  | .composition => composition
  | .primitiveRecursion => primitiveRecursion
  | .minimization => minimization
  | .custom => custom

/-- The catalogue of the seven kinds (`default_registry`). -/
def standard : Catalog where
  entries := Kind.all.map entryOf
  frozen := true

@[simp] theorem lookup?_standard (kind : Kind) : standard.lookup? kind = some (entryOf kind) := by
  cases kind <;> rfl

/-- The catalogue to use where one can be left out: an empty one counts as left out. -/
def orStandard : Option Catalog → Catalog
  | some c => if c.entries.isEmpty then standard else c
  | none => standard

end Catalog

end BlockCalculus
